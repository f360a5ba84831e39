/-!
# Big-endian numbers

A number in base 256, its most significant byte first.
-/

namespace WebSocket.BigEndian

/-- The last `width` base-256 digits of `n`. -/
def bytes : Nat → Nat → List UInt8
  | 0, _ => []
  | width + 1, n => UInt8.ofNat (n >>> (8 * width)) :: bytes width n

def value (bs : List UInt8) : Nat :=
  bs.foldl (fun n b => n * 256 + b.toNat) 0

@[simp] theorem length_bytes (width n : Nat) : (bytes width n).length = width := by
  induction width with
  | zero => rfl
  | succ width ih => simp [bytes, ih]

@[simp] theorem value_nil : value [] = 0 := rfl

end WebSocket.BigEndian
