import Mathlib.Algebra.Group.Nat.Defs
import WebSocket.BigEndian

/-!
# Writing and reading big-endian numbers

Writing `n` in `width` bytes and reading it back gives `n` again when it fits (`value_bytes_of_lt`),
and reading then writing in the same width gives the same bytes (`bytes_value`).
-/

namespace WebSocket.BigEndian

private theorem bytes_succ (width n : Nat) :
    bytes (width + 1) n = UInt8.ofNat (n / 256 ^ width) :: bytes width n := by
  have hpow : 2 ^ (8 * width) = 256 ^ width := Nat.pow_mul 2 8 width
  rw [bytes, Nat.shiftRight_eq_div_pow, hpow]

private theorem foldl_digits (bs : List UInt8) (n : Nat) :
    bs.foldl (fun n b => n * 256 + b.toNat) n = n * 256 ^ bs.length + value bs := by
  induction bs generalizing n with
  | nil => simp [value]
  | cons b bs ih =>
    simp only [value, List.foldl_cons, List.length_cons] at *
    rw [ih (n * 256 + b.toNat), ih (0 * 256 + b.toNat)]
    simp only [Nat.zero_mul, Nat.zero_add, Nat.add_mul, Nat.pow_succ]
    rw [Nat.mul_assoc, Nat.mul_comm 256, Nat.add_assoc]

theorem value_cons (b : UInt8) (bs : List UInt8) :
    value (b :: bs) = b.toNat * 256 ^ bs.length + value bs := by
  rw [value, List.foldl_cons, foldl_digits]
  simp

theorem value_lt (bs : List UInt8) : value bs < 256 ^ bs.length := by
  induction bs with
  | nil => simp
  | cons b bs ih =>
    have hb := b.toNat_lt
    have h : (b.toNat + 1) * 256 ^ bs.length ≤ 256 * 256 ^ bs.length :=
      Nat.mul_le_mul_right _ (by omega)
    rw [value_cons, List.length_cons, Nat.pow_succ]
    rw [Nat.add_mul] at h
    omega

theorem value_bytes (width n : Nat) : value (bytes width n) = n % 256 ^ width := by
  induction width with
  | zero => simp [bytes, Nat.mod_one]
  | succ width ih =>
    have h : (UInt8.ofNat (n / 256 ^ width)).toNat = n / 256 ^ width % 256 := UInt8.toNat_ofNat'
    rw [bytes_succ, value_cons, ih, length_bytes, h, Nat.pow_succ, Nat.mod_mul, Nat.mul_comm,
      Nat.add_comm]

theorem value_bytes_of_lt {width n : Nat} (h : n < 256 ^ width) : value (bytes width n) = n := by
  rw [value_bytes, Nat.mod_eq_of_lt h]

private theorem bytes_add_mul (width n k : Nat) :
    bytes width (k * 256 ^ width + n) = bytes width n := by
  induction width generalizing k with
  | zero => rfl
  | succ width ih =>
    have h : k * 256 ^ (width + 1) + n = k * 256 * 256 ^ width + n := by
      rw [Nat.pow_succ, Nat.mul_assoc, Nat.mul_comm 256]
    rw [bytes_succ, bytes_succ, h, ih]
    congr 1
    apply UInt8.toNat_inj.mp
    rw [Nat.add_comm, Nat.add_mul_div_right _ _ (Nat.pow_pos (by decide))]
    simp

theorem bytes_value (bs : List UInt8) : bytes bs.length (value bs) = bs := by
  induction bs with
  | nil => rfl
  | cons b bs ih =>
    have hlt := value_lt bs
    rw [List.length_cons, bytes_succ, value_cons, bytes_add_mul, ih, Nat.add_comm,
      Nat.add_mul_div_right _ _ (Nat.pow_pos (by decide)), Nat.div_eq_of_lt hlt, Nat.zero_add]
    simp

end WebSocket.BigEndian
