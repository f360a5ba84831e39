import WebSocket.BigEndian

/-!
# Lengths in frame headers

A payload length is written in one of three forms: in the low seven bits of the second byte of the
header, or in two or eight bytes behind it, which the codes 126 and 127 announce. The top bit of the
second byte marks a masked frame.
-/

namespace WebSocket

inductive LengthForm where
  | short
  | twoBytes
  | eightBytes
deriving DecidableEq, Repr

namespace LengthForm

/-- The lengths below this one can be written. -/
def bound : LengthForm → Nat
  | short => 126
  | twoBytes => UInt16.size
  | eightBytes => UInt64.size

/-- The low seven bits of the second byte. -/
def code (form : LengthForm) (length : Nat) : Nat :=
  match form with
  | short => length
  | twoBytes => 126
  | eightBytes => 127

/-- What stands behind the second byte. -/
def extension (form : LengthForm) (length : Nat) : List UInt8 :=
  match form with
  | short => []
  | twoBytes => BigEndian.bytes 2 length
  | eightBytes => BigEndian.bytes 8 length

/-- The form that a length code announces. -/
def ofCode (code : Nat) : LengthForm :=
  if code = 126 then twoBytes else if code = 127 then eightBytes else short

/-- The form with the fewest bytes. -/
def shortest (length : Nat) : LengthForm :=
  if length < short.bound then short
  else if length < twoBytes.bound then twoBytes
  else eightBytes

theorem lt_bound_shortest {length : Nat} (h : length < UInt64.size) :
    length < (shortest length).bound := by
  unfold shortest
  split
  · assumption
  · split <;> assumption

theorem ofCode_code {form : LengthForm} {length : Nat} (h : length < form.bound) :
    ofCode (form.code length) = form := by
  cases form with
  | short =>
    have hne : length ≠ 126 ∧ length ≠ 127 := by
      simp only [bound] at h
      omega
    simp [code, ofCode, hne]
  | twoBytes => rfl
  | eightBytes => rfl

end LengthForm

/-- The header of an unmasked frame, its length in the shortest form. -/
def encodeHeader (first : UInt8) (length : Nat) : List UInt8 :=
  let form := LengthForm.shortest length
  first :: UInt8.ofNat (form.code length) :: form.extension length

end WebSocket
