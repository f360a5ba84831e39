import WebSocket.ByteQueue
import WebSocket.Frame.Reader
import WebSocket.Handshake.Negotiation

/-!
# Sessions

A session is the server's side of one conversation: the opening handshake, then frames, until the
client closes or breaks the rules. Whatever arrives is fed to it; the application reads the data
that frames brought, as one stream of bytes, and writes data of its own. Of its decoder it keeps the
state of a reader and no more; a `Connection` keeps all.
-/

namespace WebSocket

inductive Status where
  /-- Nothing has been fed yet. -/
  | idle
  | handshaking
  | established
  | closed
  | failed
deriving DecidableEq, Repr

/-- A session in such a state does nothing any more. -/
def Status.isFinal : Status → Bool
  | closed | failed => true
  | idle | handshaking | established => false

structure Session where
  id : UInt32 := 0
  status : Status := .idle
  negotiation : Negotiation := {}
  reader : FrameReader := .header
  /-- Data that the application has not read. -/
  received : ByteQueue := {}

namespace Session

structure Progress where
  session : Session
  channel : Channel
  result : Except SessionError Status
  records : Array Record := #[]
  calls : Array Call := #[]

def record (s : Session) (notices : Array Notice) : Array Record :=
  notices.map fun notice => { session := s.id, notice }

/-- Ends the session. -/
def fail (s : Session) (error : SessionError) (ch : Channel) (trace : Trace) : Progress :=
  { session := { s with status := .failed }, channel := ch, result := .error error
    records := s.record (trace.notices.push (.sessionFailed error)), calls := trace.calls }

/-- Reads the frames that are there; `before` is what has been done already. -/
def readFrames (s : Session) (ch : Channel) (before : Trace) : Progress :=
  let progress := s.reader.decode ch
  let s :=
    { s with
      reader := progress.reader
      received := s.received.appendAll progress.delivered }
  let trace := before ++ progress.trace
  match progress.verdict with
  | .pending =>
    { session := s, channel := progress.channel, result := .ok s.status
      records := s.record trace.notices, calls := trace.calls }
  | .closed =>
    { session := { s with status := .closed }, channel := progress.channel, result := .ok .closed
      records := s.record (trace.notices.push .sessionClosed), calls := trace.calls }
  | .fault error => s.fail (.frame error) progress.channel trace

/-- Reads the request; once it is answered, frames may follow at once. -/
def negotiate (s : Session) (ch : Channel) : Progress :=
  let progress := s.negotiation.advance ch
  let s := { s with status := .handshaking, negotiation := progress.negotiation }
  let trace := progress.trace
  match progress.verdict with
  | .pending =>
    { session := s, channel := progress.channel, result := .ok .handshaking
      records := s.record trace.notices, calls := trace.calls }
  | .done =>
    readFrames { s with status := .established } progress.channel
      (trace ++ { notices := #[.handshakeComplete] })
  | .fault error => s.fail (.handshake error) progress.channel trace

/-- Takes what has arrived on the channel as far as it goes. -/
def feed (s : Session) (ch : Channel) : Progress :=
  match s.status with
  | .idle | .handshaking => s.negotiate ch
  | .established => s.readFrames ch {}
  | .closed | .failed => { session := s, channel := ch, result := .ok s.status }

/-- What writing comes to: the session itself does not change. -/
structure Written where
  channel : Channel
  records : Array Record
  calls : Array Call := #[]

/-- Sends data in one frame, or drops it unless the session is established. -/
def write (s : Session) (ch : Channel) (payload : List UInt8) : Written :=
  if s.status = .established then
    let frame := ServerFrame.binary payload
    { channel := ch.write frame.encode, records := s.record #[.dataSent payload.length]
      calls := frame.calls }
  else { channel := ch, records := s.record #[.dataDropped payload.length] }

def read (s : Session) (n : Nat) : List UInt8 × Session :=
  let (bytes, received) := s.received.read n
  (bytes, { s with received })

def readInto (s : Session) (buffer : List UInt8) : Nat × List UInt8 × Session :=
  let (count, buffer, received) := s.received.readInto buffer
  (count, buffer, { s with received })

/-- How many bytes the application can read. -/
def available (s : Session) : Nat :=
  s.received.size

end Session

end WebSocket
