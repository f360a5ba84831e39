/-!
# Masking

A client combines its payload with a repeating key of four bytes. A mask remembers how far the key
has been used, so a payload may be unmasked in pieces (`apply_append`), and masking twice from the
same position gives the payload back (`apply_apply`).
-/

namespace WebSocket

/-- A key has bytes, so that there is a first one. The zero is the one that `Fin` names. -/
instance Mask.neZero_length : @NeZero Nat Zero.ofOfNat0 4 := ⟨by decide⟩

structure Mask where
  key : Vector UInt8 4
  /-- The key byte that meets the next payload byte. -/
  index : Fin 4 := 0
deriving DecidableEq, Repr

namespace Mask

def apply (m : Mask) (payload : List UInt8) : List UInt8 :=
  payload.mapIdx fun i b => b ^^^ m.key[m.index + Fin.ofNat 4 i]

/-- The mask after `n` more payload bytes. -/
def advance (m : Mask) (n : Nat) : Mask :=
  { m with index := m.index + Fin.ofNat 4 n }

@[simp] theorem length_apply (m : Mask) (payload : List UInt8) :
    (m.apply payload).length = payload.length := by
  simp [apply]

@[simp] theorem apply_nil (m : Mask) : m.apply [] = [] := rfl

private theorem ofNat_add (i n : Nat) : Fin.ofNat 4 (i + n) = Fin.ofNat 4 n + Fin.ofNat 4 i := by
  apply Fin.ext
  simp [Fin.val_add, Nat.add_comm]

private theorem add_assoc (a b c : Fin 4) : a + b + c = a + (b + c) := by
  apply Fin.ext
  simp [Fin.val_add, Nat.add_assoc]

theorem apply_append (m : Mask) (p q : List UInt8) :
    m.apply (p ++ q) = m.apply p ++ (m.advance p.length).apply q := by
  simp only [apply, advance, List.mapIdx_append, ofNat_add, add_assoc]

theorem apply_cons (m : Mask) (b : UInt8) (bytes : List UInt8) :
    m.apply (b :: bytes) = (b ^^^ m.key[m.index]) :: (m.advance 1).apply bytes := by
  have happend := m.apply_append [b] bytes
  have hfirst : m.apply [b] = [b ^^^ m.key[m.index]] := by simp [apply]
  rw [hfirst] at happend
  exact happend

@[simp] theorem apply_apply (m : Mask) (payload : List UInt8) :
    m.apply (m.apply payload) = payload := by
  apply List.ext_getElem
  · simp
  · intro i _ _
    simp only [apply, List.getElem_mapIdx, UInt8.xor_assoc, UInt8.xor_self, UInt8.xor_zero]

@[simp] theorem advance_zero (m : Mask) : m.advance 0 = m := by
  cases m
  simp [advance]

theorem index_advance (m : Mask) (n : Nat) :
    ((m.advance n).index : Nat) = (m.index + n) % 4 := by
  simp [advance, Fin.val_add]

theorem advance_advance (m : Mask) (n k : Nat) : (m.advance n).advance k = m.advance (n + k) := by
  simp only [advance, Nat.add_comm n k, ofNat_add, add_assoc]

end Mask

end WebSocket
