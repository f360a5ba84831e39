import WebSocket.Frame.Header
import WebSocket.Trace

/-!
# Frames that a server sends

They are final and unmasked. A header is written on its own, and so is a payload unless it is empty.
-/

namespace WebSocket

inductive ServerFrame where
  | binary (payload : List UInt8)
  | pong (payload : List UInt8)
  | close
deriving DecidableEq, Repr

namespace ServerFrame

def opcode : ServerFrame → Opcode
  | binary _ => .binary
  | pong _ => .pong
  | close => .close

def payload : ServerFrame → List UInt8
  | binary payload | pong payload => payload
  | close => []

/-- The first byte holds the final bit and the opcode. -/
def header (f : ServerFrame) : List UInt8 :=
  encodeHeader (UInt8.ofNat (128 + f.opcode.toNat)) f.payload.length

def encode (f : ServerFrame) : List UInt8 :=
  f.header ++ f.payload

/-- The writes by which a frame is sent. -/
def calls (f : ServerFrame) : Array Call :=
  if f.payload.isEmpty then #[.write f.header] else #[.write f.header, .write f.payload]

end ServerFrame

end WebSocket
