import WebSocket.Error
import WebSocket.Opcode

/-!
# The log

A notice says what happened; a record is a notice with the session it happened in. Notices of the
opening handshake do not name their session.
-/

namespace WebSocket

inductive Severity where
  | trace
  | debug
  | warn
deriving DecidableEq, Repr

def Severity.name : Severity → String
  | trace => "TRACE"
  | debug => "DEBUG"
  | warn => "WARN"

inductive Notice where
  | keyReceived
  | keyRepeated
  | responseSent
  | handshakeComplete
  | frameReceived (opcode : Opcode)
  | closeReceived
  | payloadAnnounced (length : Nat)
  | pongSent (length : Nat)
  | sessionClosed
  | sessionFailed (error : SessionError)
  | dataDropped (length : Nat)
  | dataSent (length : Nat)
  | peerRead (length : Nat)
  | peerWritten (length : Nat)
deriving DecidableEq, Repr

namespace Notice

def severity : Notice → Severity
  | keyReceived | keyRepeated | responseSent | handshakeComplete | closeReceived
  | sessionClosed => .debug
  | frameReceived _ | payloadAnnounced _ | pongSent _ | dataDropped _ | dataSent _ | peerRead _
  | peerWritten _ => .trace
  | sessionFailed _ => .warn

def namesSession : Notice → Bool
  | keyReceived | keyRepeated | responseSent => false
  | _ => true

def text : Notice → String
  | keyReceived => "received Sec-WebSocket-Key"
  | keyRepeated => "ignoring repeated Sec-WebSocket-Key header"
  | responseSent => "handshake response sent"
  | handshakeComplete => "handshake complete"
  | frameReceived opcode => "recv: " ++ opcode.name ++ " frame"
  | closeReceived => "received close frame"
  | payloadAnnounced length => "recv: payload of " ++ toString length ++ " bytes"
  | pongSent length => "send: pong of " ++ toString length ++ " bytes"
  | sessionClosed => "closed"
  | sessionFailed error => error.message
  | dataDropped length => "not open; dropping " ++ toString length ++ " bytes"
  | dataSent length => "send: binary frame of " ++ toString length ++ " bytes"
  | peerRead length => "read " ++ toString length ++ " bytes"
  | peerWritten length => "write " ++ toString length ++ " bytes"

end Notice

structure Record where
  session : UInt32
  notice : Notice
deriving DecidableEq, Repr

def Record.message (r : Record) : String :=
  if r.notice.namesSession then toString r.session.toNat ++ ": " ++ r.notice.text
  else r.notice.text

end WebSocket
