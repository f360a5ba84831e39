import WebSocket.Proofs.Frame.Outcome

/-!
# Reading is resumable

Reading a byte string in two parts comes to the same as reading it whole. What a reader can do next
is said once (`move`): it waits, or it stops and looks at nothing more, or it takes bytes from the
front and goes on, whatever else has arrived behind them.
-/

namespace WebSocket.FrameReader

/-- What a reader does with `bytes`, and would do if more of them had arrived. -/
inductive Move (r : FrameReader) (bytes : List UInt8) : Prop where
  | waits (h : r.outcome bytes = r.waiting bytes)
  | stops (hverdict : (r.outcome bytes).verdict ≠ .pending)
      (h : ∀ more, r.outcome (bytes ++ more) = (r.outcome bytes).leaving more)
  | goes (e : Effect) (next : FrameReader) (rest : List UInt8)
      (hlt : next.weight (.holding rest) < r.weight (.holding bytes))
      (h : ∀ more, r.outcome (bytes ++ more) = (next.outcome (rest ++ more)).after e)

theorem exists_eq_toList_append {n : Nat} {bytes : List UInt8} (h : ¬ bytes.length < n) :
    ∃ (taken : Vector UInt8 n) (rest : List UInt8), bytes = taken.toList ++ rest := by
  have hlen : (bytes.take n).toArray.size = n := by
    simp only [List.size_toArray, List.length_take]
    omega
  exact ⟨⟨(bytes.take n).toArray, hlen⟩, bytes.drop n, (List.take_append_drop n bytes).symm⟩

private theorem weight_afterHeader_le (purpose : Purpose) (code : Nat) (bytes : List UInt8) :
    (afterHeader purpose code).weight (.holding bytes) = 2 * bytes.length := by
  unfold afterHeader
  split <;> rfl

private theorem move_header (bytes : List UInt8) : Move header bytes := by
  match bytes with
  | [] => exact .waits (outcome_header_of_lt (by simp))
  | [_] => exact .waits (outcome_header_of_lt (by simp))
  | first :: second :: rest =>
    cases hop : Opcode.ofByte? first with
    | none =>
      have h := outcome_header_unknown hop second
      refine .stops (by simp [h rest]) ?_
      intro more
      rw [List.cons_append, List.cons_append, h, h]
      rfl
    | some opcode =>
      cases hpurpose : opcode.purpose? with
      | none =>
        have h := outcome_header_close hop hpurpose second
        refine .stops (by simp [h rest]) ?_
        intro more
        rw [List.cons_append, List.cons_append, h, h]
        rfl
      | some purpose =>
        by_cases hmask : second.toNat < 128
        · have h := outcome_header_unmasked hop hpurpose hmask
          refine .stops (by simp [h rest]) ?_
          intro more
          rw [List.cons_append, List.cons_append, h, h]
          rfl
        · have h (more : List UInt8) := outcome_header_masked hop hpurpose hmask (rest ++ more)
          refine .goes _ _ rest ?_ h
          rw [weight_afterHeader_le]
          show 2 * rest.length < 2 * (rest.length + 2)
          omega

private theorem move_payload (p : PartialPayload) (bytes : List UInt8) :
    Move (payload p) bytes := by
  by_cases hzero : p.remaining = 0
  · have h (more : List UInt8) := outcome_payload_zero hzero (bytes ++ more)
    exact .goes _ header bytes (Nat.lt_succ_self _) h
  by_cases hbytes : bytes = []
  · rw [hbytes]
    exact .waits (outcome_payload_nil hzero)
  have hpos : bytes.length ≠ 0 := fun h => hbytes (List.length_eq_zero_iff.mp h)
  have hle : (bytes.take p.remaining).length ≤ p.remaining := List.length_take_le _ _
  refine .goes { data := p.yield (bytes.take p.remaining) }
    (payload (p.absorb (bytes.take p.remaining))) (bytes.drop p.remaining) ?_ ?_
  · show 2 * (bytes.drop p.remaining).length + 1 < 2 * bytes.length + 1
    rw [List.length_drop]
    omega
  · intro more
    rw [← outcome_payload_append hle, ← List.append_assoc, List.take_append_drop]

/-- The only case analysis on the states of a reader. -/
theorem move (r : FrameReader) (bytes : List UInt8) : Move r bytes := by
  cases r with
  | header => exact move_header bytes
  | length16 purpose =>
    by_cases h : bytes.length < 2
    · exact .waits (outcome_length16_of_lt h purpose)
    · obtain ⟨digits, rest, rfl⟩ := exists_eq_toList_append h
      refine .goes {} (maskKey purpose (BigEndian.value digits.toList)) rest ?_ ?_
      · show 2 * rest.length < 2 * (digits.toList ++ rest).length
        simp
      · intro more
        rw [List.append_assoc, outcome_length16]
        rfl
  | length64 purpose =>
    by_cases h : bytes.length < 8
    · exact .waits (outcome_length64_of_lt h purpose)
    · obtain ⟨digits, rest, rfl⟩ := exists_eq_toList_append h
      refine .goes {} (maskKey purpose (BigEndian.value digits.toList)) rest ?_ ?_
      · show 2 * rest.length < 2 * (digits.toList ++ rest).length
        simp
      · intro more
        rw [List.append_assoc, outcome_length64]
        rfl
  | maskKey purpose length =>
    by_cases h : bytes.length < 4
    · exact .waits (outcome_maskKey_of_lt h purpose length)
    · obtain ⟨key, rest, rfl⟩ := exists_eq_toList_append h
      refine .goes { notices := [.payloadAnnounced length] }
        (payload { purpose, remaining := length, mask := { key } }) rest ?_ ?_
      · show 2 * rest.length + 1 < 2 * (key.toList ++ rest).length
        simp only [List.length_append, Vector.length_toList]
        omega
      · intro more
        rw [List.append_assoc, outcome_maskKey]
  | payload p => exact move_payload p bytes
  | closed =>
    refine .stops (by simp [outcome_closed]) ?_
    intro more
    rw [outcome_closed, outcome_closed]
    rfl

/-- Once reading has stopped, more bytes stay where they are. -/
theorem outcome_append_of_stopped {r : FrameReader} {bytes : List UInt8}
    (h : (r.outcome bytes).verdict ≠ .pending) (more : List UInt8) :
    r.outcome (bytes ++ more) = (r.outcome bytes).leaving more := by
  induction hw : r.weight (.holding bytes) using Nat.strongRecOn generalizing r bytes with
  | ind w ih =>
    cases move r bytes with
    | waits hwait => simp [hwait, waiting] at h
    | stops _ hstop => exact hstop more
    | goes e next rest hlt hgo =>
      have hnil := hgo []
      rw [List.append_nil, List.append_nil] at hnil
      rw [hnil] at h ⊢
      rw [hgo, ih _ (hw ▸ hlt) h rfl]
      rfl

/-- Reading that waits is taken up again where it was left. -/
theorem outcome_append_of_pending {r : FrameReader} {bytes : List UInt8}
    (h : (r.outcome bytes).verdict = .pending) (more : List UInt8) :
    r.outcome (bytes ++ more) =
      ((r.outcome bytes).state.outcome ((r.outcome bytes).unread ++ more)).after
        (r.outcome bytes).effect := by
  induction hw : r.weight (.holding bytes) using Nat.strongRecOn generalizing r bytes with
  | ind w ih =>
    cases move r bytes with
    | waits hwait =>
      rw [hwait]
      rfl
    | stops hstop _ => exact absurd h hstop
    | goes e next rest hlt hgo =>
      have hnil := hgo []
      rw [List.append_nil, List.append_nil] at hnil
      rw [hnil] at h ⊢
      rw [hgo, ih _ (hw ▸ hlt) h rfl, Outcome.after_after]
      rfl

theorem resumable : Resumable (· = .pending) outcome where
  resume := outcome_append_of_pending
  stop := outcome_append_of_stopped

end WebSocket.FrameReader
