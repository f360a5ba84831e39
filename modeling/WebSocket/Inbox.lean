import WebSocket.Ascii

/-!
# Unread bytes

The bytes that have arrived on a connection and have not been taken. Their number is kept beside
them, for it is asked for at every step; it adds nothing to the value (`ext_bytes`).
-/

namespace WebSocket

structure Inbox where
  bytes : List UInt8 := []
  size : Nat := bytes.length
  size_eq : size = bytes.length := by rfl

namespace Inbox

@[ext] theorem ext_bytes {a b : Inbox} (h : a.bytes = b.bytes) : a = b := by
  obtain ⟨bytes, size, hs⟩ := a
  obtain ⟨bytes', size', hs'⟩ := b
  cases h
  cases hs
  cases hs'
  rfl

def append (i : Inbox) (chunk : List UInt8) : Inbox where
  bytes := i.bytes ++ chunk
  size := i.size + chunk.length
  size_eq := by simp [i.size_eq]

def drop (i : Inbox) (n : Nat) : Inbox where
  bytes := i.bytes.drop n
  size := i.size - n
  size_eq := by simp [i.size_eq]

/-- The first line with its line feed; none while no line is complete. -/
def takeLine? (i : Inbox) : Option (List UInt8 × Inbox) :=
  let body := i.bytes.takeWhile (· != Ascii.newline)
  if body.length < i.size then some (body ++ [Ascii.newline], i.drop (body.length + 1)) else none

@[simp] theorem bytes_append (i : Inbox) (chunk : List UInt8) :
    (i.append chunk).bytes = i.bytes ++ chunk := rfl

@[simp] theorem bytes_drop (i : Inbox) (n : Nat) : (i.drop n).bytes = i.bytes.drop n := rfl

private theorem ne_newline {body : List UInt8} (h : Ascii.newline ∉ body) :
    ∀ b ∈ body, (b != Ascii.newline) = true := by
  intro b hb
  rw [bne_iff_ne]
  exact fun he => h (he ▸ hb)

private theorem takeLine?_of_bytes {i : Inbox} {body rest : List UInt8}
    (h : i.bytes = body ++ Ascii.newline :: rest) (hbody : Ascii.newline ∉ body) :
    i.takeLine? = some (body ++ [Ascii.newline], i.drop (body.length + 1)) := by
  have htake : i.bytes.takeWhile (· != Ascii.newline) = body := by
    rw [h, List.takeWhile_append_of_pos (ne_newline hbody)]
    simp
  have hlt : body.length < i.size := by
    rw [i.size_eq, h]
    simp
  simp only [takeLine?, htake, hlt, if_true]

theorem takeLine?_eq_none_iff {i : Inbox} : i.takeLine? = none ↔ Ascii.newline ∉ i.bytes := by
  constructor
  · intro h hmem
    obtain ⟨body, rest, hbytes, hbody⟩ := List.eq_append_cons_of_mem hmem
    rw [takeLine?_of_bytes hbytes hbody] at h
    cases h
  · intro h
    have htake : i.bytes.takeWhile (· != Ascii.newline) = i.bytes := by
      rw [← List.append_nil i.bytes, List.takeWhile_append_of_pos (ne_newline h)]
      rfl
    simp only [takeLine?, htake, i.size_eq, Nat.lt_irrefl, if_false]

/-- A line is the shortest prefix that ends in a line feed. -/
theorem takeLine?_eq_some_iff {i rest : Inbox} {line : List UInt8} :
    i.takeLine? = some (line, rest) ↔
      ∃ body, Ascii.newline ∉ body ∧ line = body ++ [Ascii.newline] ∧
        i.bytes = line ++ rest.bytes := by
  constructor
  · intro h
    by_cases hmem : Ascii.newline ∈ i.bytes
    · obtain ⟨body, tail, hbytes, hbody⟩ := List.eq_append_cons_of_mem hmem
      rw [takeLine?_of_bytes hbytes hbody] at h
      cases h
      exact ⟨body, hbody, rfl, by simp [hbytes]⟩
    · rw [takeLine?_eq_none_iff.mpr hmem] at h
      cases h
  · rintro ⟨body, hbody, rfl, hbytes⟩
    have hrest : i.drop (body.length + 1) = rest := ext_bytes (by simp [hbytes])
    rw [← hrest]
    exact takeLine?_of_bytes (hbytes.trans (List.append_cons _ _ _).symm) hbody

theorem size_lt_of_takeLine? {i rest : Inbox} {line : List UInt8}
    (h : i.takeLine? = some (line, rest)) : rest.size < i.size := by
  obtain ⟨body, _, rfl, hbytes⟩ := takeLine?_eq_some_iff.mp h
  rw [i.size_eq, rest.size_eq, hbytes]
  simp only [List.length_append, List.length_singleton]
  omega

end Inbox

end WebSocket
