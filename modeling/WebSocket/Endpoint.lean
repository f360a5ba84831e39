import WebSocket.Peer
import WebSocket.Session

/-!
# Endpoints

A session joined to a peer. Each operation moves the session by what the peer gave and then offers
the peer all that the session wrote. Output that the peer refuses is lost, and the session is as far
as if it had been accepted.
-/

namespace WebSocket

inductive EndpointError where
  | session (error : SessionError)
  | io (fault : Fault)
deriving DecidableEq, Repr

def EndpointError.message : EndpointError → String
  | session error => error.message
  | io fault => "i/o error: " ++ fault.message

structure Endpoint where
  peer : Peer := {}
  channel : Channel := {}
  session : Session := {}
  /-- How much is asked of the peer at a time: at least one byte, for a read of none would look like
  the end of the stream. -/
  bufferSize : Nat := 8192
  bufferSize_pos : 0 < bufferSize := by decide

namespace Endpoint

structure Exchange (α : Type) where
  endpoint : Endpoint
  result : Except EndpointError α
  records : Array Record := #[]
  calls : Array PeerCall := #[]

/-- Hands what the session has written to the peer; when that is nothing, no call is made. -/
def deliver (e : Endpoint) : Exchange Unit :=
  let (bytes, channel) := e.channel.collect
  if bytes.isEmpty then { endpoint := e, result := .ok () }
  else
    let (fault, peer, calls) := e.peer.send bytes
    { endpoint := { e with peer, channel }
      result := match fault with
        | none => .ok ()
        | some fault => .error (.io fault)
      records := e.session.record #[.peerWritten bytes.length]
      calls }

/-- Feeds the session with one read. A fault of the read leaves the session as it is, and a fault in
delivering its output hides its own result. -/
def receive (e : Endpoint) : Exchange Status :=
  if e.session.status.isFinal then { endpoint := e, result := .ok e.session.status }
  else
    let bufferSize := e.bufferSize
    let (given, peer) := e.peer.read bufferSize
    let calls := #[PeerCall.read bufferSize]
    match given with
    | .error fault => { endpoint := { e with peer }, result := .error (.io fault), calls }
    | .ok [] => { endpoint := { e with peer }, result := .error (.io .unexpectedEof), calls }
    | .ok bytes =>
      let arrived := e.session.record #[.peerRead bytes.length]
      let fed := e.session.feed (e.channel.receive bytes)
      let sent := deliver
        { peer, channel := fed.channel, session := fed.session, bufferSize
          bufferSize_pos := e.bufferSize_pos }
      { endpoint := sent.endpoint
        result := match sent.result with
          | .ok () => fed.result.mapError .session
          | .error error => .error error
        records := arrived ++ fed.records ++ sent.records
        calls := calls ++ sent.calls }

/-- Sends application data. -/
def send (e : Endpoint) (payload : List UInt8) : Exchange Unit :=
  let written := e.session.write e.channel payload
  let sent := deliver { e with channel := written.channel }
  { sent with records := written.records ++ sent.records }

def read (e : Endpoint) (n : Nat) : List UInt8 × Endpoint :=
  let (bytes, session) := e.session.read n
  (bytes, { e with session })

def readInto (e : Endpoint) (buffer : List UInt8) : Nat × List UInt8 × Endpoint :=
  let (count, buffer, session) := e.session.readInto buffer
  (count, buffer, { e with session })

def setBufferSize (e : Endpoint) (size : Nat) : Endpoint :=
  { e with bufferSize := max 1 size, bufferSize_pos := Nat.le_max_left 1 size }

end Endpoint

end WebSocket
