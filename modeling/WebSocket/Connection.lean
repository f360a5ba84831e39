import WebSocket.Frame.Registers
import WebSocket.Session

/-!
# Connections

A connection is a session with a decoder of its own, which keeps its state in registers and its own
copy of the number that tells sessions apart in the log. What the decoder notes is logged under its
number, all else under that of the connection.
-/

namespace WebSocket

structure Connection where
  id : UInt32 := 0
  status : Status := .idle
  negotiation : Negotiation := {}
  decoder : Registers := {}
  /-- Data that the application has not read. -/
  received : ByteQueue := {}

namespace Connection

structure Progress where
  connection : Connection
  channel : Channel
  result : Except SessionError Status
  records : Array Record := #[]
  calls : Array Call := #[]

/-- What the connection itself logs. -/
def record (c : Connection) (notices : Array Notice) : Array Record :=
  notices.map fun notice => { session := c.id, notice }

/-- The decoder is given the same number. -/
def setId (c : Connection) (id : UInt32) : Connection :=
  { c with id, decoder := c.decoder.setId id }

/-- Ends the connection; so much has been logged and called before. -/
def fail (c : Connection) (error : SessionError) (ch : Channel) (records : Array Record)
    (calls : Array Call) : Progress :=
  { connection := { c with status := .failed }, channel := ch, result := .error error
    records := records ++ c.record #[.sessionFailed error], calls }

/-- What comes of a call of the decoder, which has left it with these registers; the data that it
brought has been received. -/
def conclude (c : Connection) (decoder : Registers) (work : Work) (received : ByteQueue)
    (records : Array Record) (calls : Array Call) : Progress :=
  let records := records ++ c.decoder.record work.trace.notices
  let calls := calls ++ work.trace.calls
  let c := { c with decoder, received }
  match work.verdict with
  | .pending => { connection := c, channel := work.channel, result := .ok c.status, records, calls }
  | .closed =>
    { connection := { c with status := .closed }, channel := work.channel, result := .ok .closed
      records := records ++ c.record #[.sessionClosed], calls }
  | .fault error => c.fail (.frame error) work.channel records calls

/-- Reads the frames that are there, after what has been logged and called. -/
def readFrames (c : Connection) (ch : Channel) (records : Array Record) (calls : Array Call) :
    Progress :=
  let (decoder, work) := c.decoder.decode ch
  c.conclude decoder work (c.received.appendAll work.delivered) records calls

/-- Reads the request; once it is answered, frames may follow at once. -/
def negotiate (c : Connection) (ch : Channel) : Progress :=
  let progress := c.negotiation.advance ch
  let c := { c with status := .handshaking, negotiation := progress.negotiation }
  let records := c.record progress.trace.notices
  let calls := progress.trace.calls
  match progress.verdict with
  | .pending =>
    { connection := c, channel := progress.channel, result := .ok .handshaking, records, calls }
  | .done =>
    readFrames { c with status := .established } progress.channel
      (records ++ c.record #[.handshakeComplete]) calls
  | .fault error => c.fail (.handshake error) progress.channel records calls

/-- Takes what has arrived on the channel as far as it goes. -/
def feed (c : Connection) (ch : Channel) : Progress :=
  match c.status with
  | .idle | .handshaking => c.negotiate ch
  | .established => c.readFrames ch #[] #[]
  | .closed | .failed => { connection := c, channel := ch, result := .ok c.status }

theorem feed_of_opening {c : Connection} (h : c.status = .idle ∨ c.status = .handshaking)
    (ch : Channel) : c.feed ch = c.negotiate ch := by
  rcases h with h | h <;> rw [feed, h]

theorem feed_of_established {c : Connection} (h : c.status = .established) (ch : Channel) :
    c.feed ch = c.readFrames ch #[] #[] := by
  rw [feed, h]

theorem feed_of_final {c : Connection} (h : c.status.isFinal = true) (ch : Channel) :
    c.feed ch = { connection := c, channel := ch, result := .ok c.status } := by
  rw [feed]
  cases hstatus : c.status with
  | idle | handshaking | established =>
    rw [hstatus] at h
    cases h
  | closed | failed => rfl

/-- Sends data in one frame, or drops it unless frames are being exchanged. -/
def write (c : Connection) (ch : Channel) (payload : List UInt8) : Session.Written :=
  if c.status = .established then
    let frame := ServerFrame.binary payload
    { channel := ch.write frame.encode, records := c.record #[.dataSent payload.length]
      calls := frame.calls }
  else { channel := ch, records := c.record #[.dataDropped payload.length] }

def read (c : Connection) (n : Nat) : List UInt8 × Connection :=
  let (bytes, received) := c.received.read n
  (bytes, { c with received })

def readInto (c : Connection) (buffer : List UInt8) : Nat × List UInt8 × Connection :=
  let (count, buffer, received) := c.received.readInto buffer
  (count, buffer, { c with received })

/-- How many bytes the application can read. -/
def available (c : Connection) : Nat :=
  c.received.size

end Connection

end WebSocket
