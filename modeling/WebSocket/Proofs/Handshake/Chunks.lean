import WebSocket.Proofs.Handshake.Request

/-!
# Requests in chunks

A request may arrive in any chunks. A negotiation that is run after each of them answers at the
first chunk with which the line that decides is complete.
-/

namespace WebSocket.Negotiation

structure Runs where
  negotiation : Negotiation
  channel : Channel
  verdicts : List Verdict := []
  notices : List Notice := []
  /-- The chunks that did not arrive any more. -/
  unfed : List (List UInt8) := []

/-- One run after each chunk, until one does not ask for more. -/
def advanceAll (n : Negotiation) (ch : Channel) : List (List UInt8) → Runs
  | [] => { negotiation := n, channel := ch }
  | chunk :: chunks =>
    let progress := n.advance (ch.receive chunk)
    let notices := progress.trace.notices.toList
    if progress.verdict = .pending then
      let later := advanceAll progress.negotiation progress.channel chunks
      { later with
        verdicts := progress.verdict :: later.verdicts
        notices := notices ++ later.notices }
    else
      { negotiation := progress.negotiation, channel := progress.channel
        verdicts := [progress.verdict], notices, unfed := chunks }

/-- The runs that lead to an outcome. -/
private def concluded (o : Outcome Negotiation Verdict) (sent : Array UInt8)
    (verdicts : List Verdict) (unfed : List (List UInt8)) : Runs where
  negotiation := o.state
  channel := .holding o.unread (sent ++ o.effect.output)
  verdicts := verdicts
  notices := o.effect.notices
  unfed := unfed

/-- The runs with one more before them that asked for more. -/
private def Runs.delayed (c : Runs) (notices : List Notice) : Runs :=
  { c with verdicts := .pending :: c.verdicts, notices := notices ++ c.notices }

private theorem concluded_delayed (o : Outcome Negotiation Verdict) (e : Effect)
    (sent : Array UInt8) (verdicts : List Verdict) (unfed : List (List UInt8)) :
    (concluded o (sent ++ e.output) verdicts unfed).delayed e.notices =
      concluded (o.after e) sent (.pending :: verdicts) unfed := by
  simp [concluded, Runs.delayed, Outcome.after, Channel.holding_append]

private theorem advanceAll_of_stopped {n : Negotiation} {unread chunk : List UInt8}
    (h : (n.outcome (unread ++ chunk)).verdict ≠ .pending) (sent : Array UInt8)
    (chunks : List (List UInt8)) :
    n.advanceAll (.holding unread sent) (chunk :: chunks) =
      concluded (n.outcome (unread ++ chunk)) sent [(n.outcome (unread ++ chunk)).verdict]
        chunks := by
  rw [advanceAll, Channel.receive_holding, advance_holding]
  simp only [if_neg h]
  rfl

private theorem advanceAll_of_pending {n : Negotiation} {unread chunk : List UInt8}
    {o : Outcome Negotiation Verdict} (ho : n.outcome (unread ++ chunk) = o)
    (h : o.verdict = .pending) (sent : Array UInt8) (chunks : List (List UInt8)) :
    n.advanceAll (.holding unread sent) (chunk :: chunks) =
      (o.state.advanceAll (.holding o.unread (sent ++ o.effect.output)) chunks).delayed
        o.effect.notices := by
  subst ho
  rw [advanceAll, Channel.receive_holding, advance_holding]
  simp only [h]
  rfl

private theorem advanceAll_waits (chunks : List (List UInt8)) {n : Negotiation}
    {unread : List UInt8} (hunread : Ascii.newline ∉ unread)
    (h : (n.outcome (unread ++ chunks.flatten)).verdict = .pending) (sent : Array UInt8) :
    n.advanceAll (.holding unread sent) chunks =
      concluded (n.outcome (unread ++ chunks.flatten)) sent
        (List.replicate chunks.length .pending) [] := by
  induction chunks generalizing n unread sent with
  | nil =>
    rw [List.flatten_nil, List.append_nil, outcome_tail hunread]
    simp [advanceAll, waiting, concluded]
  | cons chunk chunks ih =>
    rw [List.flatten_cons, ← List.append_assoc] at h ⊢
    by_cases hchunk : (n.outcome (unread ++ chunk)).verdict = .pending
    · rw [resumable.resume hchunk] at h ⊢
      rw [advanceAll_of_pending rfl hchunk, ih (newline_notMem_unread hchunk) h,
        concluded_delayed]
      rfl
    · rw [resumable.stop hchunk] at h
      exact absurd h hchunk

private theorem advanceAll_stops (chunks : List (List UInt8)) {n : Negotiation}
    {unread : List UInt8} (hunread : Ascii.newline ∉ unread)
    (h : (n.outcome (unread ++ chunks.flatten)).verdict ≠ .pending) (sent : Array UInt8) :
    ∃ fed last unfed, chunks = fed ++ last :: unfed ∧
      (n.outcome (unread ++ fed.flatten)).verdict = .pending ∧
      let o := n.outcome (unread ++ (fed ++ [last]).flatten)
      o.verdict ≠ .pending ∧
        n.advanceAll (.holding unread sent) chunks =
          concluded o sent (List.replicate fed.length .pending ++ [o.verdict]) unfed := by
  induction chunks generalizing n unread sent with
  | nil =>
    rw [List.flatten_nil, List.append_nil, outcome_tail hunread] at h
    exact absurd rfl h
  | cons chunk chunks ih =>
    by_cases hchunk : (n.outcome (unread ++ chunk)).verdict = .pending
    · have hwhole := resumable.resume hchunk
      rw [List.flatten_cons, ← List.append_assoc, hwhole] at h
      obtain ⟨fed, last, unfed, rfl, hfed, hlast, hrun⟩ := ih (newline_notMem_unread hchunk) h
        (sent ++ (n.outcome (unread ++ chunk)).effect.output)
      refine ⟨chunk :: fed, last, unfed, rfl, ?_, ?_⟩
      · rw [List.flatten_cons, ← List.append_assoc, hwhole]
        exact hfed
      · rw [List.cons_append, List.flatten_cons, ← List.append_assoc, hwhole]
        refine ⟨hlast, ?_⟩
        rw [advanceAll_of_pending rfl hchunk, hrun, concluded_delayed]
        rfl
    · refine ⟨[], chunk, chunks, rfl, ?_, ?_⟩
      · rw [List.flatten_nil, List.append_nil, outcome_tail hunread]
        rfl
      · rw [List.nil_append, List.flatten_singleton]
        exact ⟨hchunk, advanceAll_of_stopped hchunk sent chunks⟩

private theorem Reads.isPrefix_of_stopped {part more tail : List UInt8}
    {read after : List (List UInt8)} {o : Outcome Negotiation Verdict}
    (h : Reads (part ++ more) read after tail o)
    (hpart : (Negotiation.outcome {} part).verdict ≠ .pending) : read.flatten <+: part := by
  have hsame : (Negotiation.outcome {} part).leaving more = o.leaving tail := by
    rw [← resumable.stop hpart, h.outcome]
  have hunread := congrArg (List.length ∘ Outcome.unread) hsame
  have hwhole := congrArg List.length h.whole
  have hlen : read.flatten.length ≤ part.length := by
    simp only [Function.comp, Outcome.leaving, List.flatten_append, List.length_append,
      h.judged.unread_eq] at hunread hwhole
    omega
  refine List.prefix_of_prefix_length_le ?_ (List.prefix_append part more) hlen
  rw [h.whole, List.flatten_append, List.append_assoc]
  exact List.prefix_append _ _

private theorem Reads.not_isPrefix_of_pending {bytes part tail : List UInt8}
    {read after : List (List UInt8)} {o : Outcome Negotiation Verdict}
    (h : Reads bytes read after tail o) (hverdict : o.verdict ≠ .pending)
    (hpart : (Negotiation.outcome {} part).verdict = .pending) : ¬ read.flatten <+: part := by
  intro hbegin
  obtain ⟨rest, hrest⟩ := hbegin
  have hread : ∀ line ∈ read, IsLine line := (List.forall_mem_append.mp h.lines).1
  rw [← hrest, outcome_of_decided h.judged hverdict hread] at hpart
  exact hverdict hpart

/-- The outcome of a request is told by its lines, whatever chunks it arrives in. Each run asks for
more until the line that decides is complete; what is behind that line stays unread. -/
theorem advanceAll_by_lines (chunks : List (List UInt8)) :
    (∃ read after tail o, Reads chunks.flatten read after tail o) ∧
      ∀ read after tail o, Reads chunks.flatten read after tail o →
        let run := advanceAll {} {} chunks
        run.negotiation = o.state ∧
          run.channel.outgoing.toList = o.effect.output ∧
          run.notices = o.effect.notices ∧
          run.channel.inbox.bytes ++ run.unfed.flatten = o.unread ++ tail ∧
          (o.verdict = .pending →
            run.verdicts = List.replicate chunks.length .pending ∧ run.unfed = []) ∧
          (o.verdict ≠ .pending →
            ∃ fed last, chunks = fed ++ last :: run.unfed ∧
              run.verdicts = List.replicate fed.length .pending ++ [o.verdict] ∧
              ¬ read.flatten <+: fed.flatten ∧ read.flatten <+: (fed ++ [last]).flatten) := by
  refine ⟨exists_reads _, ?_⟩
  intro read after tail o h
  dsimp only
  have hwhole := h.outcome
  have hfresh : ({} : Channel) = .holding [] := rfl
  by_cases hverdict : o.verdict = .pending
  · have hpending : (outcome {} ([] ++ chunks.flatten)).verdict = .pending := by
      rw [List.nil_append, hwhole]
      exact hverdict
    rw [hfresh, advanceAll_waits chunks List.not_mem_nil hpending, List.nil_append, hwhole]
    simp [concluded, Outcome.leaving, hverdict]
  · have hstopped : (outcome {} ([] ++ chunks.flatten)).verdict ≠ .pending := by
      rw [List.nil_append, hwhole]
      exact hverdict
    obtain ⟨fed, last, unfed, hchunks, hfed, hlast, hrun⟩ :=
      advanceAll_stops chunks List.not_mem_nil hstopped #[]
    rw [List.nil_append] at hfed hlast hrun
    have hflatten : chunks.flatten = (fed ++ [last]).flatten ++ unfed.flatten := by
      rw [hchunks, ← List.flatten_append, List.append_cons]
    have hsame : (outcome {} (fed ++ [last]).flatten).leaving unfed.flatten = o.leaving tail := by
      rw [← resumable.stop hlast, ← hflatten, hwhole]
    obtain ⟨hstate, hunread, hverdict', heffect⟩ := Outcome.ext_iff.mp hsame
    simp only [Outcome.leaving] at hstate hunread hverdict' heffect
    rw [hflatten] at h
    rw [hfresh, hrun]
    refine ⟨hstate, ?_, congrArg Effect.notices heffect, hunread, fun hp => absurd hp hverdict, ?_⟩
    · rw [concluded, heffect]
      simp
    · intro _
      refine ⟨fed, last, hchunks, ?_, h.not_isPrefix_of_pending hverdict hfed,
        h.isPrefix_of_stopped hlast⟩
      rw [concluded, hverdict']

end WebSocket.Negotiation
