import Mathlib.Data.List.Basic
import WebSocket.Ascii

/-!
# Texts, letters and blanks

The bytes of an ASCII text are those of its encoding; two letters that become the same in lower case
are the same but for their case; and trimming leaves the longest part of a byte string that neither
begins nor ends with a blank.
-/

namespace WebSocket.Ascii

/-! ## Texts -/

private theorem utf8EncodeChar_of_lt {c : Char} (h : c.toNat < 128) :
    String.utf8EncodeChar c = [UInt8.ofNat c.toNat] :=
  if_pos (Nat.le_of_lt_succ h)

/-- All its characters are ASCII. -/
def IsAscii (chars : List Char) : Prop :=
  ∀ c ∈ chars, c.toNat < 128

instance (chars : List Char) : Decidable (IsAscii chars) :=
  List.decidableBAll _ _

theorem bytes_eq_toUTF8 {text : String} (h : IsAscii text.toList) :
    bytes text = text.toUTF8.data.toList := by
  have hencode : text.toUTF8 = text.toList.utf8Encode := by simp
  rw [hencode, bytes]
  generalize text.toList = chars at h
  induction chars with
  | nil => rfl
  | cons c chars ih =>
    obtain ⟨hc, hchars⟩ := List.forall_mem_cons.mp h
    simp only [List.utf8Encode] at ih ⊢
    simp [ih hchars, utf8EncodeChar_of_lt hc]

/-! ## Letters -/

/-- The same byte, or the same letter in the other case. -/
def SameLetter (a b : UInt8) : Prop :=
  a = b ∨ (0x41 ≤ a ∧ a ≤ 0x5A ∧ b = a + 0x20) ∨ (0x41 ≤ b ∧ b ≤ 0x5A ∧ a = b + 0x20)

instance (a b : UInt8) : Decidable (SameLetter a b) :=
  inferInstanceAs (Decidable (_ ∨ _))

/-- The same text, byte by byte, in letters of either case. -/
def SameText (s t : List UInt8) : Prop :=
  s.length = t.length ∧ ∀ p ∈ s.zip t, SameLetter p.1 p.2

instance (s t : List UInt8) : Decidable (SameText s t) :=
  @instDecidableAnd _ _ (Nat.decEq _ _) (List.decidableBAll _ _)

theorem toLower_eq_iff {a b : UInt8} : toLower a = toLower b ↔ SameLetter a b := by
  have hfirst : (0x41 : UInt8).toNat = 0x41 := rfl
  have hlast : (0x5A : UInt8).toNat = 0x5A := rfl
  have hshift : (0x20 : UInt8).toNat = 0x20 := rfl
  have ha := a.toNat_lt
  have hb := b.toNat_lt
  unfold toLower SameLetter
  simp only [UInt8.le_iff_toNat_le, ← UInt8.toNat_inj, hfirst, hlast]
  split <;> split <;> simp only [UInt8.toNat_add, hshift] <;> omega

theorem map_toLower_eq_iff {s t : List UInt8} :
    s.map toLower = t.map toLower ↔ SameText s t := by
  induction s generalizing t with
  | nil => cases t <;> simp [SameText]
  | cons a s ih =>
    cases t with
    | nil => simp [SameText]
    | cons b t =>
      rw [List.map_cons, List.map_cons, List.cons.injEq, ih, toLower_eq_iff]
      simp [SameText, and_left_comm]

/-! ## Blanks -/

/-- Space, tab, line feed, form feed and carriage return. -/
def blanks : List UInt8 := [0x20, 0x09, 0x0A, 0x0C, 0x0D]

theorem isBlank_eq_false_iff {b : UInt8} : isBlank b = false ↔ b ∉ blanks := by
  simp [isBlank, blanks, and_assoc]

def Unpadded (bs : List UInt8) : Prop :=
  (∀ b ∈ bs.head?, b ∉ blanks) ∧ ∀ b ∈ bs.getLast?, b ∉ blanks

/-- `core` is the longest part of `bs` without blanks at its ends; it is empty if there is none. -/
structure IsCore (bs core : List UInt8) : Prop where
  part : core <:+: bs
  unpadded : Unpadded core
  longest : ∀ part, part <:+: bs → Unpadded part → part.length ≤ core.length

private theorem head?_dropWhile_notMem (bs : List UInt8) :
    ∀ b ∈ (bs.dropWhile isBlank).head?, b ∉ blanks := by
  intro b hb
  have h := List.head?_dropWhile_not isBlank bs
  rw [Option.mem_def.mp hb] at h
  exact isBlank_eq_false_iff.mp (by simpa using h)

private theorem infix_dropWhile {part bs : List UInt8} (h : part <:+: bs)
    (hhead : ∀ b ∈ part.head?, b ∉ blanks) : part <:+: bs.dropWhile isBlank := by
  induction bs with
  | nil => exact h
  | cons b bs ih =>
    by_cases hb : isBlank b = true
    · rw [List.dropWhile_cons_of_pos hb]
      rcases List.infix_cons_iff.mp h with hprefix | hinfix
      · cases part with
        | nil => exact List.nil_infix
        | cons c part =>
          obtain ⟨rfl, -⟩ := List.cons_prefix_cons.mp hprefix
          rw [isBlank_eq_false_iff.mpr (hhead c rfl)] at hb
          cases hb
      · exact ih hinfix
    · rwa [List.dropWhile_cons_of_neg hb]

private theorem infix_trim {part bs : List UInt8} (h : part <:+: bs) (hpart : Unpadded part) :
    part <:+: trim bs := by
  have hfront := infix_dropWhile h hpart.1
  have hback : ∀ b ∈ part.reverse.head?, b ∉ blanks := by
    rw [List.head?_reverse]
    exact hpart.2
  have hrev := infix_dropWhile (List.reverse_infix.mpr hfront) hback
  rw [← List.reverse_infix, trim, List.reverse_reverse]
  exact hrev

private theorem trim_isPrefix (bs : List UInt8) : trim bs <+: bs.dropWhile isBlank := by
  rw [← List.reverse_suffix, trim, List.reverse_reverse]
  exact List.dropWhile_suffix _

private theorem unpadded_trim (bs : List UInt8) : Unpadded (trim bs) := by
  constructor
  · intro b hb
    have hhead := head?_dropWhile_notMem bs
    obtain ⟨rest, hrest⟩ := trim_isPrefix bs
    rw [← hrest] at hhead
    apply hhead
    rw [List.head?_append, Option.mem_def.mp hb]
    rfl
  · intro b hb
    rw [trim, List.getLast?_reverse] at hb
    exact head?_dropWhile_notMem _ b hb

theorem isCore_trim (bs : List UInt8) : IsCore bs (trim bs) where
  part := (trim_isPrefix bs).isInfix.trans (List.dropWhile_suffix _).isInfix
  unpadded := unpadded_trim bs
  longest _ h hpart := (infix_trim h hpart).length_le

/-- The longest part is unique. -/
theorem isCore_iff {bs core : List UInt8} : IsCore bs core ↔ core = trim bs := by
  constructor
  · intro h
    have hinfix := infix_trim h.part h.unpadded
    exact hinfix.eq_of_length_le (h.longest _ (isCore_trim bs).part (unpadded_trim bs))
  · intro h
    rw [h]
    exact isCore_trim bs

example : trim [0x20, 0x0B, 0x20, 0x61, 0x0D, 0x0A] = [0x0B, 0x20, 0x61] := by decide

end WebSocket.Ascii
