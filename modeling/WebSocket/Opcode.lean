/-!
# Frame types

The opcode stands in the low four bits of a frame's first byte. Six of the sixteen values have a
meaning; `ofNat?_toNat` and `toNat_of_ofNat?` say that the numbering is one to one on them.
-/

namespace WebSocket

/-- What a peer does with the payload of a frame that it reads to its end. -/
inductive Purpose where
  | data
  | ping
  | pong
deriving DecidableEq, Repr

inductive Opcode where
  | continuation
  | text
  | binary
  | close
  | ping
  | pong
deriving DecidableEq, Repr

namespace Opcode

def toNat : Opcode → Nat
  | continuation => 0
  | text => 1
  | binary => 2
  | close => 8
  | ping => 9
  | pong => 10

def ofNat? : Nat → Option Opcode
  | 0 => some continuation
  | 1 => some text
  | 2 => some binary
  | 8 => some close
  | 9 => some ping
  | 10 => some pong
  | _ => none

def name : Opcode → String
  | continuation => "Continue"
  | text => "Text"
  | binary => "Binary"
  | close => "Close"
  | ping => "Ping"
  | pong => "Pong"

/-- A close frame has none: its payload is never read, for it ends the conversation. -/
def purpose? : Opcode → Option Purpose
  | continuation | text | binary => some .data
  | close => none
  | ping => some .ping
  | pong => some .pong

/-- The frame type that a first byte announces; its upper four bits do not matter. -/
def ofByte? (first : UInt8) : Option Opcode :=
  ofNat? (first.toNat % 16)

@[simp] theorem ofNat?_toNat (op : Opcode) : ofNat? op.toNat = some op := by
  cases op <;> rfl

theorem toNat_of_ofNat? {n : Nat} {op : Opcode} (h : ofNat? n = some op) : op.toNat = n := by
  unfold ofNat? at h
  split at h <;> cases h <;> rfl

end Opcode

end WebSocket
