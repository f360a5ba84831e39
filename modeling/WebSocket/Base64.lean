/-!
# Base 64

Three bytes are written as four characters of six bits each; the last group is filled up with `=`.
Decoding what was encoded gives it back (`decode?_encode`).
-/

namespace WebSocket.Base64

/-- The character for the low six bits of `n`. -/
def digit (n : Nat) : Char :=
  let n := n % 64
  if n < 26 then Char.ofNat ('A'.toNat + n)
  else if n < 52 then Char.ofNat ('a'.toNat + (n - 26))
  else if n < 62 then Char.ofNat ('0'.toNat + (n - 52))
  else if n = 62 then '+'
  else '/'

def encode : List UInt8 → List Char
  | [] => []
  | [a] =>
    let n := a.toNat * 16
    [digit (n / 64), digit n, '=', '=']
  | [a, b] =>
    let n := (a.toNat * 256 + b.toNat) * 4
    [digit (n / 4096), digit (n / 64), digit n, '=']
  | a :: b :: c :: rest =>
    let n := (a.toNat * 256 + b.toNat) * 256 + c.toNat
    digit (n / 262144) :: digit (n / 4096) :: digit (n / 64) :: digit n :: encode rest

def value? (c : Char) : Option Nat :=
  if 'A' ≤ c ∧ c ≤ 'Z' then some (c.toNat - 'A'.toNat)
  else if 'a' ≤ c ∧ c ≤ 'z' then some (c.toNat - 'a'.toNat + 26)
  else if '0' ≤ c ∧ c ≤ '9' then some (c.toNat - '0'.toNat + 52)
  else if c = '+' then some 62
  else if c = '/' then some 63
  else none

/-- Refuses a text that is not made of whole groups, or that goes on after the padding. -/
def decode? : List Char → Option (List UInt8)
  | [] => some []
  | p :: q :: r :: s :: rest =>
    if s ≠ '=' then do
      let n := (((← value? p) * 64 + (← value? q)) * 64 + (← value? r)) * 64 + (← value? s)
      return UInt8.ofNat (n / 65536) :: UInt8.ofNat (n / 256) :: UInt8.ofNat n :: (← decode? rest)
    else if rest ≠ [] then none
    else if r ≠ '=' then do
      let n := ((← value? p) * 64 + (← value? q)) * 64 + (← value? r)
      return [UInt8.ofNat (n / 1024), UInt8.ofNat (n / 4)]
    else do
      let n := (← value? p) * 64 + (← value? q)
      return [UInt8.ofNat (n / 16)]
  | _ => none

private theorem value?_digit_of_lt : ∀ n < 64, value? (digit n) = some n ∧ digit n ≠ '=' := by
  decide

theorem value?_digit (n : Nat) : value? (digit n) = some (n % 64) := by
  have h := value?_digit_of_lt (n % 64) (Nat.mod_lt n (by decide))
  have hmod : digit (n % 64) = digit n := by simp [digit]
  rw [← hmod]
  exact h.1

theorem digit_ne_padding (n : Nat) : digit n ≠ '=' := by
  have h := value?_digit_of_lt (n % 64) (Nat.mod_lt n (by decide))
  have hmod : digit (n % 64) = digit n := by simp [digit]
  rw [← hmod]
  exact h.2

private theorem ofNat_eq {n : Nat} {b : UInt8} (h : n % 256 = b.toNat) : UInt8.ofNat n = b := by
  apply UInt8.toNat_inj.mp
  rw [UInt8.toNat_ofNat']
  exact h

theorem decode?_encode (bytes : List UInt8) : decode? (encode bytes) = some bytes := by
  fun_induction encode bytes with
  | case1 => rfl
  | case2 a n =>
    have ha := a.toNat_lt
    simp only [decode?, value?_digit, ne_eq, not_true_eq_false, if_false, Option.bind_eq_bind,
      Option.bind_some, Option.pure_def, Option.some.injEq, List.cons.injEq, and_true]
    exact ofNat_eq (by omega)
  | case3 a b n =>
    have ha := a.toNat_lt
    have hb := b.toNat_lt
    simp only [decode?, value?_digit, digit_ne_padding, ne_eq, not_true_eq_false, not_false_eq_true,
      if_true, if_false, Option.bind_eq_bind, Option.bind_some, Option.pure_def,
      Option.some.injEq, List.cons.injEq, and_true]
    exact ⟨ofNat_eq (by omega), ofNat_eq (by omega)⟩
  | case4 a b c rest n ih =>
    have ha := a.toNat_lt
    have hb := b.toNat_lt
    have hc := c.toNat_lt
    simp only [decode?, value?_digit, digit_ne_padding, ih, ne_eq, not_false_eq_true,
      if_true, Option.bind_eq_bind, Option.bind_some, Option.pure_def,
      Option.some.injEq, List.cons.injEq, and_true]
    exact ⟨ofNat_eq (by omega), ofNat_eq (by omega), ofNat_eq (by omega)⟩

end WebSocket.Base64
