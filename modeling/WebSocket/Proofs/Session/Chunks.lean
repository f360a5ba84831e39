import WebSocket.Proofs.Session.Outcome

/-!
# Conversations in chunks

Feeding a stream chunk by chunk comes to the same as feeding it whole, in all that is seen of a
session; of the results of the feeds, one is that of the whole.
-/

namespace WebSocket.Session

structure Feeds where
  session : Session
  channel : Channel
  results : List Result := []
  records : Array Record := #[]

/-- One feed after each chunk. -/
def feedAll (s : Session) (ch : Channel) : List (List UInt8) → Feeds
  | [] => { session := s, channel := ch }
  | chunk :: chunks =>
    let progress := s.feed (ch.receive chunk)
    let later := feedAll progress.session progress.channel chunks
    { later with
      results := progress.result :: later.results
      records := progress.records ++ later.records }

/-- The results of the parts of a feed with this result: an error comes once, when the session has
gone on until then, and nothing comes of the parts behind it. -/
def Splits : Result → List Result → Prop
  | .ok status, results => ∃ before : List Status, results = before.map .ok ++ [.ok status]
  | .error error, results =>
    ∃ (before : List Status) (after : Nat),
      results = before.map .ok ++ .error error :: List.replicate after (.ok .failed) ∧
        ∀ status ∈ before, status.isFinal = false

private theorem Splits.self (result : Result) : Splits result [result] := by
  cases result with
  | ok status => exact ⟨[], rfl⟩
  | error error => exact ⟨[], 0, rfl, by simp⟩

private theorem Splits.cons {result : Result} {results : List Result} {status : Status}
    (hstatus : status.isFinal = false) (h : Splits result results) :
    Splits result (.ok status :: results) := by
  cases result with
  | ok last =>
    obtain ⟨before, rfl⟩ := h
    exact ⟨status :: before, rfl⟩
  | error error =>
    obtain ⟨before, after, rfl, hbefore⟩ := h
    exact ⟨status :: before, after, rfl, List.forall_mem_cons.mpr ⟨hstatus, hbefore⟩⟩

private theorem Follows.trans {s : Session} {sent : Array UInt8} {a b : Outcome Core Result}
    {p q : Progress} (hp : Follows s sent a p)
    (hq : Follows p.session (sent ++ a.effect.output) b q) :
    Follows s sent (b.after a.effect) { q with records := p.records ++ q.records } where
  core := hq.core
  id := hq.id.trans hp.id
  valid := hq.valid
  received := by
    rw [hq.received, hp.received, List.append_assoc]
    rfl
  channel := by
    rw [hq.channel, Channel.holding_append]
    rfl
  result := hq.result
  records := by
    rw [Array.toList_append, hp.records, hq.records, hp.id, ← List.map_append]
    rfl

private theorem feedAll_of_final {s : Session} (h : s.status.isFinal = true)
    (chunks : List (List UInt8)) (bytes : List UInt8) (sent : Array UInt8) :
    s.feedAll (.holding bytes sent) chunks =
      { session := s, channel := .holding (bytes ++ chunks.flatten) sent
        results := List.replicate chunks.length (.ok s.status) } := by
  induction chunks generalizing bytes with
  | nil => simp [feedAll]
  | cons chunk chunks ih =>
    rw [feedAll, Channel.receive_holding, feed_of_final h]
    simp [ih, List.replicate_succ]

private theorem splits_cons_replicate (c : Core) (bytes : List UInt8) (n : Nat) :
    Splits (c.outcome bytes).verdict
      ((c.outcome bytes).verdict :: List.replicate n (.ok (c.outcome bytes).state.status)) := by
  rw [Core.status_outcome]
  cases (c.outcome bytes).verdict with
  | ok status =>
    refine ⟨List.replicate n status, ?_⟩
    rw [List.map_replicate, ← List.replicate_succ', List.replicate_succ]
    rfl
  | error error => exact ⟨[], n, rfl, by simp⟩

private theorem feedAll_cons {s : Session} {unread chunk : List UInt8} {sent : Array UInt8}
    {o : Outcome Core Result}
    (h : Follows s sent o (s.feed (.holding (unread ++ chunk) sent)))
    (chunks : List (List UInt8)) :
    s.feedAll (.holding unread sent) (chunk :: chunks) =
      let progress := s.feed (.holding (unread ++ chunk) sent)
      let later := feedAll progress.session (.holding o.unread (sent ++ o.effect.output)) chunks
      { later with
        results := o.verdict :: later.results, records := progress.records ++ later.records } := by
  rw [feedAll, Channel.receive_holding, h.result, h.channel]

theorem feedAll_spec (chunks : List (List UInt8)) {s : Session} (h : s.received.Valid)
    (unread chunk : List UInt8) (sent : Array UInt8) :
    let o := s.core.outcome (unread ++ (chunk :: chunks).flatten)
    let run := s.feedAll (.holding unread sent) (chunk :: chunks)
    Follows s sent o
        { session := run.session, channel := run.channel, result := o.verdict
          records := run.records } ∧
      Splits o.verdict run.results := by
  induction chunks generalizing s unread chunk sent with
  | nil =>
    have hfeed := feed_holding h (unread ++ chunk) sent
    dsimp only
    rw [feedAll_cons hfeed, List.flatten_singleton]
    constructor
    · refine ⟨hfeed.core, hfeed.id, hfeed.valid, hfeed.received, rfl, rfl, ?_⟩
      simpa [feedAll] using hfeed.records
    · exact Splits.self _
  | cons next chunks ih =>
    have hfeed := feed_holding h (unread ++ chunk) sent
    dsimp only
    rw [feedAll_cons hfeed, List.flatten_cons, ← List.append_assoc]
    by_cases hgo : Core.Continues (s.core.outcome (unread ++ chunk)).verdict
    · obtain ⟨hlater, hresults⟩ := ih hfeed.valid (s.core.outcome (unread ++ chunk)).unread next
        (sent ++ (s.core.outcome (unread ++ chunk)).effect.output)
      rw [hfeed.core] at hlater hresults
      rw [Core.resumable.resume hgo]
      refine ⟨hfeed.trans hlater, ?_⟩
      cases hverdict : (s.core.outcome (unread ++ chunk)).verdict with
      | ok status =>
        rw [hverdict] at hgo
        exact hresults.cons hgo
      | error error =>
        rw [hverdict] at hgo
        cases hgo
    · have hstatus : (s.feed (.holding (unread ++ chunk) sent)).session.status =
          (s.core.outcome (unread ++ chunk)).state.status := congrArg Core.status hfeed.core
      have hfinal : (s.feed (.holding (unread ++ chunk) sent)).session.status.isFinal = true := by
        rw [hstatus, Core.status_outcome]
        simpa [Core.Continues] using hgo
      rw [Core.resumable.stop hgo]
      dsimp only
      rw [feedAll_of_final hfinal, hstatus]
      constructor
      · refine ⟨hfeed.core, hfeed.id, hfeed.valid, hfeed.received, rfl, rfl, ?_⟩
        simpa [Outcome.leaving] using hfeed.records
      · exact splits_cons_replicate _ _ _

end WebSocket.Session
