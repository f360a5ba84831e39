import WebSocket.Proofs.Frame.Taking

/-!
# Readers that wait

A run of steps always ends, for each step takes bytes or brings a payload to its end. A reader that
waits then has used up what it can: of what it waits for, less is to be seen than it needs, and if
it is asked to go on all the same, it does nothing.
-/

namespace WebSocket.FrameReader

/-- So few bytes can be seen that the reader has to wait for more. -/
def Starved (r : FrameReader) (available : Nat) : Prop :=
  match r with
  | header | length16 _ => available < 2
  | length64 _ => available < 8
  | maskKey _ _ => available < 4
  | payload p => available = 0 ∧ 0 < p.remaining
  | closed => False

/-- A step that waits has nothing to take, and takes nothing. -/
def Waits (r : FrameReader) (ch : Channel) : Prop :=
  r.step ch = r.suspend ch ∧ r.Starved ch.available

variable {r : FrameReader} {ch : Channel}

private theorem verdict_readHeader_ne (first second : UInt8) (ch : Channel) :
    (readHeader first second ch).verdict ≠ some .pending := by
  unfold readHeader
  split
  · simp
  · split
    · simp
    · split <;> simp

private theorem waits_payload {p : PartialPayload} (hm : ch.maxRead ≠ some 0)
    (h : (readPayload p ch).verdict = some .pending) : Waits (payload p) ch := by
  have havailable := ch.available_le
  rw [Waits, step]
  unfold readPayload at h ⊢
  dsimp only at h ⊢
  by_cases hzero : p.remaining = 0
  · rw [if_pos hzero] at h
    unfold finish at h
    split at h <;> cases h
  rw [if_neg hzero] at h ⊢
  by_cases hcount : min p.remaining ch.available = 0
  · rw [if_pos hcount]
    exact ⟨rfl, by omega, by omega⟩
  rw [if_neg hcount] at h
  by_cases hpong : p.purpose = .pong
  · rw [if_pos hpong] at h
    cases h
  · -- A read that may give bytes gives some.
    have hgiven := Channel.readCount_ne_zero hm hcount (by omega)
    have hlength : (ch.read (min p.remaining ch.available)).1.length ≠ 0 := by
      rwa [ch.length_read]
    simp only [takePayload, if_neg hpong, if_neg hlength] at h
    cases h

theorem waits_of_step (hm : ch.maxRead ≠ some 0) (h : (r.step ch).verdict = some .pending) :
    r.Waits ch := by
  cases r with
  | payload p => exact waits_payload hm h
  | closed => cases h
  | header =>
    simp only [Waits, step] at h ⊢
    split at h
    · rename_i hnone
      exact ⟨rfl, Channel.takeExact?_eq_none_iff.mp hnone⟩
    · exact absurd h (verdict_readHeader_ne _ _ _)
  | length16 purpose | length64 purpose | maskKey purpose length =>
    simp only [Waits, step] at h ⊢
    split at h
    · rename_i hnone
      exact ⟨rfl, Channel.takeExact?_eq_none_iff.mp hnone⟩
    · cases h

theorem waits_of_decode (hm : ch.maxRead ≠ some 0) (h : (r.decode ch).verdict = .pending) :
    (r.decode ch).reader.Waits (r.decode ch).channel := by
  induction hw : r.weight ch using Nat.strongRecOn generalizing r ch with
  | ind w ih =>
    cases hverdict : (r.step ch).verdict with
    | some verdict =>
      rw [decode_of_some hverdict] at h ⊢
      have hpending : verdict = .pending := h
      have hwaits := waits_of_step hm (hpending ▸ hverdict)
      rw [hwaits.1]
      exact hwaits
    | none =>
      have hlimits := r.sameLimits_step ch
      rw [decode_of_none hverdict] at h ⊢
      exact ih _ (hw ▸ weight_step hverdict) (hlimits.2 ▸ hm) h rfl

/-- A reader that waits does nothing until more can be seen. -/
theorem Waits.decode (h : r.Waits ch) :
    r.decode ch =
      { reader := r, channel := ch, verdict := .pending, delivered := #[], trace := {} } := by
  have hverdict : (r.step ch).verdict = some .pending := by
    rw [h.1]
    rfl
  rw [decode_of_some hverdict, h.1]
  rfl

/-- A run that is given up if it has come to no verdict after `n` steps. -/
def attempt : Nat → FrameReader → Channel → Option Progress
  | 0, _, _ => none
  | n + 1, r, ch =>
    let turn := r.step ch
    match turn.verdict with
    | some verdict =>
      some
        { reader := turn.reader, channel := turn.channel, verdict, delivered := turn.delivered
          trace := turn.trace }
    | none =>
      (attempt n turn.reader turn.channel).map fun later =>
        { later with
          delivered := turn.delivered ++ later.delivered
          trace := turn.trace ++ later.trace }

theorem attempt_of_weight_lt {n : Nat} (h : r.weight ch < n) :
    attempt n r ch = some (r.decode ch) := by
  induction n generalizing r ch with
  | zero => exact absurd h (Nat.not_lt_zero _)
  | succ n ih =>
    cases hverdict : (r.step ch).verdict with
    | some verdict =>
      simp only [attempt, hverdict]
      rw [decode_of_some hverdict]
    | none =>
      have hlt := weight_step hverdict
      simp only [attempt, hverdict]
      rw [ih (by omega), decode_of_none hverdict]
      rfl

/-- Twice the number of unread bytes bounds the number of steps. -/
theorem weight_lt (r : FrameReader) (ch : Channel) : r.weight ch < 2 * ch.inbox.size + 2 := by
  unfold weight
  split <;> omega

end WebSocket.FrameReader
