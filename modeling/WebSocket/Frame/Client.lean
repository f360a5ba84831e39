import WebSocket.Frame.Header
import WebSocket.Mask
import WebSocket.Opcode

/-!
# Frames that a client sends

They are masked, each with a key of its own. A server reads the length in any form that fits, and
takes no notice of the upper four bits of the first byte.
-/

namespace WebSocket

structure ClientFrame where
  /-- The final bit and three reserved ones. -/
  flags : Fin 16
  opcode : Opcode
  form : LengthForm
  key : Vector UInt8 4
  /-- As it is before masking. -/
  payload : List UInt8
deriving DecidableEq, Repr

namespace ClientFrame

/-- The length can be written in the chosen form. -/
def Fits (f : ClientFrame) : Prop :=
  f.payload.length < f.form.bound

instance (f : ClientFrame) : Decidable f.Fits :=
  inferInstanceAs (Decidable (_ < _))

def header (f : ClientFrame) : List UInt8 :=
  UInt8.ofNat (16 * f.flags.val + f.opcode.toNat) ::
    UInt8.ofNat (128 + f.form.code f.payload.length) :: f.form.extension f.payload.length

def encode (f : ClientFrame) : List UInt8 :=
  f.header ++ f.key.toList ++ Mask.apply { key := f.key } f.payload

end ClientFrame

end WebSocket
