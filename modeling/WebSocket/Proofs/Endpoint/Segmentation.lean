import Mathlib.Algebra.GroupWithZero.Nat
import WebSocket.Proofs.Endpoint.Faults
import WebSocket.Proofs.Endpoint.Reads
import WebSocket.Proofs.Session.Outcome

/-!
# Reading in other sizes

An endpoint that is driven receives until the peer has nothing left to give or the session is at its
end (`drive`). Where it then stands hangs on the bytes that it read, not on the blocks in which the
peer had them nor on the buffers in which it took them.
-/

namespace WebSocket

namespace ReadEvent

/-- More than the number of the reads that meet the event. -/
def weight : ReadEvent → Nat
  | .fault _ => 1
  | .data bytes => bytes.length + 1

theorem weight_meet {size : Nat} (h : 0 < size) (event : ReadEvent) :
    ((event.meet size).2.map weight).sum < event.weight := by
  cases event with
  | fault why => exact Nat.one_pos
  | data bytes =>
    unfold meet
    dsimp only
    split
    · exact Nat.succ_pos _
    · rename_i hrest
      have hlength : 0 < (bytes.drop size).length := by
        rw [List.length_pos_iff]
        exact hrest
      simp only [List.length_drop] at hlength
      simp only [List.map_singleton, List.sum_singleton, weight, List.length_drop]
      omega

end ReadEvent

namespace Endpoint

/-- There is nothing left to receive. -/
def isDone (e : Endpoint) : Bool :=
  e.peer.reads.isEmpty || e.session.status.isFinal

/-- A receive, before which the buffer may be given other sizes. -/
def round (sizes : List Nat) : List Operation :=
  sizes.map .setBufferSize ++ [.receive]

def toRead (e : Endpoint) : Nat :=
  (e.peer.reads.map ReadEvent.weight).sum

/-- Sizes are set and nothing else. -/
theorem exists_run_resize (e : Endpoint) (sizes : List Nat) :
    ∃ n h, e.run (sizes.map .setBufferSize) = { e with bufferSize := n, bufferSize_pos := h } := by
  induction sizes generalizing e with
  | nil => exact ⟨e.bufferSize, e.bufferSize_pos, rfl⟩
  | cons size sizes ih =>
    obtain ⟨n, h, hrun⟩ := ih (e.setBufferSize size)
    exact ⟨n, h, hrun⟩

theorem toRead_receive_lt {e : Endpoint} (h : e.isDone = false) :
    e.receive.endpoint.toRead < e.toRead := by
  obtain ⟨hreads, hfinal⟩ := Bool.or_eq_false_iff.mp h
  cases hevents : e.peer.reads with
  | nil =>
    rw [hevents] at hreads
    cases hreads
  | cons event reads =>
    rw [toRead, toRead, reads_receive hfinal, Peer.read_of_cons hevents, hevents,
      Peer.reads_withReads, List.map_append, List.sum_append, List.map_cons, List.sum_cons]
    have hweight := event.weight_meet e.bufferSize_pos
    omega

theorem toRead_round_lt {e : Endpoint} (h : e.isDone = false) (sizes : List Nat) :
    (e.run (round sizes)).toRead < e.toRead := by
  obtain ⟨n, hn, hresize⟩ := e.exists_run_resize sizes
  rw [round, run_append, hresize]
  exact toRead_receive_lt (e := { e with bufferSize := n, bufferSize_pos := hn }) h

/-- The operations by which an endpoint receives until nothing is left, if the buffer is given the
sizes `sizes k` before the receive of number `k`. -/
def drive (sizes : Nat → List Nat) (e : Endpoint) : List Operation :=
  if e.isDone then []
  else round (sizes 0) ++ drive (fun k => sizes (k + 1)) (e.run (round (sizes 0)))
termination_by e.toRead
decreasing_by
  rename_i h
  exact toRead_round_lt (Bool.eq_false_iff.mpr h) _

def results (e : Endpoint) (ops : List Operation) : List (Except EndpointError Answer) :=
  (e.turns ops).map fun t => t.exchange.result

theorem results_cons (e : Endpoint) (op : Operation) (ops : List Operation) :
    e.results (op :: ops) = (e.perform op).result :: (e.perform op).endpoint.results ops := rfl

theorem results_append (e : Endpoint) (first second : List Operation) :
    e.results (first ++ second) = e.results first ++ (e.run first).results second := by
  induction first generalizing e with
  | nil => rfl
  | cons op first ih =>
    rw [List.cons_append, results_cons, results_cons, ih]
    rfl

/-- Setting sizes reports no error. -/
theorem error_notMem_results_resize (e : Endpoint) (sizes : List Nat) (error : EndpointError) :
    .error error ∉ e.results (sizes.map .setBufferSize) := by
  induction sizes generalizing e with
  | nil => exact List.not_mem_nil
  | cons size sizes ih =>
    intro hmem
    rcases List.mem_cons.mp hmem with heq | hmem
    · cases heq
    · exact ih _ hmem

/-- Of a round, the receive alone can report an error. -/
theorem error_mem_results_round (e : Endpoint) (sizes : List Nat) (error : EndpointError) :
    .error error ∈ e.results (round sizes) ↔
      (e.run (sizes.map .setBufferSize)).receive.result = .error error := by
  have hresults : e.results (round sizes) = e.results (sizes.map .setBufferSize) ++
      [(e.run (sizes.map .setBufferSize)).receive.result.map .status] := by
    rw [round, results_append]
    rfl
  rw [hresults, List.mem_append, List.mem_singleton]
  constructor
  · intro hmem
    rcases hmem with hmem | heq
    · exact absurd hmem (e.error_notMem_results_resize sizes error)
    · cases hresult : (e.run (sizes.map .setBufferSize)).receive.result with
      | ok status =>
        rw [hresult] at heq
        cases heq
      | error found =>
        rw [hresult] at heq
        cases heq
        rfl
  · intro heq
    rw [heq]
    exact .inr rfl

/-- A verdict of the session that is reported as an error is that error. -/
theorem mapError_session_eq_error {verdict : Session.Result} {error : EndpointError}
    (h : verdict.mapError .session = .error error) :
    ∃ found, verdict = .error found ∧ error = .session found := by
  cases verdict with
  | ok status => cases h
  | error found =>
    cases h
    exact ⟨found, rfl, rfl⟩

/-! ## One receive -/

/-- An endpoint that waits for blocks of bytes, from a peer that takes whatever is sent; of what it
has read, `unread` waits for more. -/
structure Awaits (e : Endpoint) (unread : List UInt8) (blocks : List (List UInt8)) : Prop where
  reads : e.peer.reads = blocks.map .data
  nonempty : ∀ block ∈ blocks, block ≠ []
  steady : e.peer.Steady
  channel : e.channel = .holding unread
  received : e.session.received.Valid

/-- What becomes of an endpoint whose session has this outcome. -/
structure Comes (before after : Endpoint) (o : Outcome Session.Core Session.Result) : Prop where
  core : after.session.core = o.state
  received : after.session.received.toList = before.session.received.toList ++ o.effect.data
  accepted : after.peer.accepted.toList = before.peer.accepted.toList ++ o.effect.output

theorem Comes.trans {a b c : Endpoint} {o o' : Outcome Session.Core Session.Result}
    (h : a.Comes b o) (h' : b.Comes c o') : a.Comes c (o'.after o.effect) where
  core := h'.core
  received := by
    rw [h'.received, h.received, List.append_assoc]
    rfl
  accepted := by
    rw [h'.accepted, h.accepted, List.append_assoc]
    rfl

private theorem exists_read_block {p : Peer} {block : List UInt8} {blocks : List (List UInt8)}
    (hreads : p.reads = (block :: blocks).map .data)
    (hnonempty : ∀ rest ∈ block :: blocks, rest ≠ []) {size : Nat} (hsize : 0 < size) :
    ∃ (b : UInt8) (given : List UInt8) (left : List (List UInt8)),
      p.read size = (.ok (b :: given), p.withReads (left.map .data)) ∧
        (b :: given) ++ left.flatten = (block :: blocks).flatten ∧ ∀ rest ∈ left, rest ≠ [] := by
  obtain ⟨hblock, hblocks⟩ := List.forall_mem_cons.mp hnonempty
  have hfirst : p.reads = .data block :: blocks.map .data := hreads
  have hread := Peer.read_of_cons hfirst size
  obtain ⟨b, bytes, rfl⟩ := List.exists_cons_of_ne_nil hblock
  cases hdrop : (b :: bytes).drop size with
  | nil =>
    refine ⟨b, bytes, blocks, ?_, rfl, hblocks⟩
    rw [hread]
    simp only [ReadEvent.meet, hdrop]
    rfl
  | cons r rest =>
    obtain ⟨n, rfl⟩ : ∃ n, size = n + 1 := ⟨size - 1, by omega⟩
    refine ⟨b, bytes.take n, (r :: rest) :: blocks, ?_, ?_, ?_⟩
    · rw [hread]
      simp only [ReadEvent.meet, hdrop]
      rfl
    · rw [List.flatten_cons, List.flatten_cons, ← hdrop, ← List.take_succ_cons, ← List.append_assoc,
        List.take_append_drop]
    · exact List.forall_mem_cons.mpr ⟨List.cons_ne_nil r rest, hblocks⟩

private theorem Awaits.receive {e : Endpoint} {unread block : List UInt8}
    {blocks : List (List UInt8)} (h : e.Awaits unread (block :: blocks))
    (hfinal : e.session.status.isFinal = false) :
    ∃ given left, given ++ left.flatten = (block :: blocks).flatten ∧
      let o := e.session.core.outcome (unread ++ given)
      e.receive.endpoint.Awaits o.unread left ∧ e.Comes e.receive.endpoint o ∧
        e.receive.result = o.verdict.mapError .session := by
  obtain ⟨b, given, left, hread, hflatten, hleft⟩ :=
    exists_read_block h.reads h.nonempty e.bufferSize_pos
  refine ⟨b :: given, left, hflatten, ?_⟩
  intro o
  have hreceive := receive_of_read hfinal hread
  have hfollows := Session.feed_holding h.received (unread ++ b :: given) #[]
  rw [h.channel, Channel.receive_holding] at hreceive
  generalize e.session.feed (.holding (unread ++ b :: given)) = fed at hreceive hfollows
  let sending := e.fedWith (e.peer.withReads (left.map .data)) fed
  have hpeer : sending.peer.Steady := ⟨h.steady.writes, h.steady.flushes⟩
  have houtgoing : sending.channel.outgoing.toList = o.effect.output := by
    rw [show sending.channel = fed.channel from rfl, hfollows.channel, Channel.outgoing_holding]
    simp [o]
  obtain ⟨hresult, hsteady, haccepted, -⟩ := deliver_of_steady hpeer
  obtain ⟨peer, hendpoint, taken, met, hsends⟩ := sending.exists_deliver
  have hsame : e.receive.endpoint = sending.deliver.endpoint := by
    rw [hreceive]
    rfl
  have hsession : e.receive.endpoint.session = fed.session := by
    rw [hsame, hendpoint]
    rfl
  have hawaits : e.receive.endpoint.Awaits o.unread left := by
    have hchannel : sending.channel = .holding o.unread (#[] ++ o.effect.output) := hfollows.channel
    constructor
    · rw [hsame, hendpoint]
      exact hsends.reads
    · exact hleft
    · rw [hsame]
      exact hsteady
    · rw [hsame, hendpoint, hchannel]
      rfl
    · rw [hsession]
      exact hfollows.valid
  have hcomes : e.Comes e.receive.endpoint o := by
    constructor
    · rw [hsession]
      exact hfollows.core
    · rw [hsession]
      exact hfollows.received
    · rw [hsame, haccepted, Array.toList_append, houtgoing]
      rfl
  refine ⟨hawaits, hcomes, ?_⟩
  rw [hreceive, conclude, hresult, hfollows.result]
  rfl

private theorem Awaits.round {e : Endpoint} {unread block : List UInt8}
    {blocks : List (List UInt8)} (h : e.Awaits unread (block :: blocks))
    (hfinal : e.session.status.isFinal = false) (sizes : List Nat) :
    ∃ given left, given ++ left.flatten = (block :: blocks).flatten ∧
      let o := e.session.core.outcome (unread ++ given)
      (e.run (round sizes)).Awaits o.unread left ∧ e.Comes (e.run (round sizes)) o ∧
        ∀ error, .error error ∈ e.results (round sizes) ↔
          o.verdict.mapError .session = .error error := by
  obtain ⟨n, hn, hresize⟩ := e.exists_run_resize sizes
  let resized : Endpoint := { e with bufferSize := n, bufferSize_pos := hn }
  have hresized : resized.Awaits unread (block :: blocks) :=
    ⟨h.reads, h.nonempty, h.steady, h.channel, h.received⟩
  obtain ⟨given, left, hflatten, hawaits, hcomes, hresult⟩ := hresized.receive hfinal
  have hrun : e.run (Endpoint.round sizes) = resized.receive.endpoint := by
    rw [Endpoint.round, run_append, hresize]
    rfl
  refine ⟨given, left, hflatten, ?_⟩
  intro o
  rw [hrun]
  refine ⟨hawaits, ⟨hcomes.core, hcomes.received, hcomes.accepted⟩, ?_⟩
  intro error
  rw [error_mem_results_round, hresize]
  exact iff_of_eq (congrArg (· = .error error) hresult)

/-! ## The receives of a drive -/

/-- What a run has come to that brought bytes of this outcome to the session. -/
structure Completes (e : Endpoint) (ops : List Operation)
    (o : Outcome Session.Core Session.Result) : Prop where
  done : (e.run ops).isDone = true
  comes : e.Comes (e.run ops) o
  results : ∀ error, .error error ∈ e.results ops ↔ o.verdict.mapError .session = .error error

theorem Comes.status {before after : Endpoint} {c : Session.Core} {bytes : List UInt8}
    (h : before.Comes after (c.outcome bytes)) :
    after.session.status = Session.Core.statusOf (c.outcome bytes).verdict := by
  have hstatus := congrArg Session.Core.status h.core
  rw [Session.Core.status_outcome] at hstatus
  exact hstatus

private theorem Completes.behind {e : Endpoint} {first ops : List Operation}
    {o o' : Outcome Session.Core Session.Result} (h : (e.run first).Completes ops o')
    (hcomes : e.Comes (e.run first) o)
    (hresults : ∀ error, .error error ∈ e.results first ↔
      o.verdict.mapError .session = .error error)
    (hmore : Session.Core.Continues o.verdict) :
    e.Completes (first ++ ops) (o'.after o.effect) where
  done := by
    rw [run_append]
    exact h.done
  comes := by
    rw [run_append]
    exact hcomes.trans h.comes
  results := by
    intro error
    have hnone : .error error ∉ e.results first := by
      intro hmem
      obtain ⟨found, hverdict, -⟩ := mapError_session_eq_error ((hresults error).mp hmem)
      rw [hverdict] at hmore
      cases hmore
    rw [results_append, List.mem_append]
    constructor
    · intro hmem
      rcases hmem with hmem | hmem
      · exact absurd hmem hnone
      · exact (h.results error).mp hmem
    · intro heq
      exact .inr ((h.results error).mpr heq)

theorem drive_of_isDone {e : Endpoint} (h : e.isDone = true) (sizes : Nat → List Nat) :
    e.drive sizes = [] := by
  rw [drive, if_pos h]

private theorem Awaits.drive {e : Endpoint} {unread block : List UInt8}
    {blocks : List (List UInt8)} (h : e.Awaits unread (block :: blocks))
    (hfinal : e.session.status.isFinal = false) (sizes : Nat → List Nat) :
    e.Completes (e.drive sizes)
      (e.session.core.outcome (unread ++ (block :: blocks).flatten)) := by
  induction hweight : e.toRead using Nat.strongRecOn generalizing e unread block blocks sizes with
  | ind weight ih =>
    have hgoing : e.isDone = false := by
      rw [isDone, h.reads, hfinal]
      rfl
    obtain ⟨given, left, hflatten, hawaits, hcomes, hresults⟩ := h.round hfinal (sizes 0)
    have hless := hweight ▸ toRead_round_lt hgoing (sizes 0)
    rw [Endpoint.drive, hgoing, ← hflatten, ← List.append_assoc]
    simp only [Bool.false_eq_true, if_false]
    by_cases hmore : Session.Core.Continues (e.session.core.outcome (unread ++ given)).verdict
    · cases left with
      | nil =>
        have hdone : (e.run (Endpoint.round (sizes 0))).isDone = true := by
          rw [isDone, hawaits.reads]
          rfl
        rw [drive_of_isDone hdone, List.append_nil, List.flatten_nil, List.append_nil]
        exact ⟨hdone, hcomes, hresults⟩
      | cons next left =>
        have hnext : (e.run (Endpoint.round (sizes 0))).session.status.isFinal = false := by
          rw [hcomes.status]
          exact hmore
        have hrest := ih _ hless hawaits hnext (fun k => sizes (k + 1)) rfl
        rw [hcomes.core] at hrest
        rw [Session.Core.resumable.resume hmore]
        exact hrest.behind hcomes hresults hmore
    · have hdone : (e.run (Endpoint.round (sizes 0))).isDone = true := by
        have hfinal' : (e.run (Endpoint.round (sizes 0))).session.status.isFinal = true := by
          rw [hcomes.status]
          simpa [Session.Core.Continues] using hmore
        rw [isDone, hfinal', Bool.or_true]
      rw [drive_of_isDone hdone, List.append_nil, Session.Core.resumable.stop hmore]
      exact ⟨hdone, ⟨hcomes.core, hcomes.received, hcomes.accepted⟩, hresults⟩

private theorem Completes.alike {a b : Endpoint} {ops ops' : List Operation}
    {o : Outcome Session.Core Session.Result} (ha : a.Completes ops o) (hb : b.Completes ops' o)
    (hreceived : a.session.received.toList = b.session.received.toList)
    (haccepted : a.peer.accepted = b.peer.accepted) :
    (a.run ops).session.core = (b.run ops').session.core ∧
      (a.run ops).session.received.toList = (b.run ops').session.received.toList ∧
      (a.run ops).peer.accepted = (b.run ops').peer.accepted ∧
      ∀ error, .error error ∈ a.results ops ↔ .error error ∈ b.results ops' := by
  refine ⟨ha.comes.core.trans hb.comes.core.symm, ?_, ?_, ?_⟩
  · rw [ha.comes.received, hb.comes.received, hreceived]
  · apply Array.toList_inj.mp
    rw [ha.comes.accepted, hb.comes.accepted, haccepted]
  · intro error
    exact (ha.results error).trans (hb.results error).symm

private theorem Completes.error_notMem {e : Endpoint} {ops : List Operation}
    {o : Outcome Session.Core Session.Result} (h : e.Completes ops o) (fault : Fault) :
    .error (.io fault) ∉ e.results ops := by
  intro hmem
  obtain ⟨found, -, heq⟩ := mapError_session_eq_error ((h.results (.io fault)).mp hmem)
  cases heq

/-- The outcome of a drive that brings these bytes to a new session. -/
def driven (bytes : List UInt8) : Outcome Session.Core Session.Result :=
  if bytes = [] then { state := {}, unread := [], verdict := .ok .idle }
  else ({} : Session.Core).outcome bytes

private theorem completes_driven {blocks : List (List UInt8)}
    (hblocks : ∀ block ∈ blocks, block ≠ []) (sizes : Nat → List Nat)
    {writes : List WriteEvent} {flushes : List (Option Fault)}
    (hwrites : ∀ event ∈ writes, event.Succeeds) (hflushes : ∀ fault ∈ flushes, fault = none) :
    let e : Endpoint := { peer := { reads := blocks.map .data, writes, flushes } }
    e.Completes (e.drive sizes) (driven blocks.flatten) := by
  intro e
  have hawaits : e.Awaits [] blocks :=
    ⟨rfl, hblocks, ⟨hwrites, hflushes⟩, rfl, ByteQueue.valid_empty⟩
  cases blocks with
  | nil =>
    rw [drive_of_isDone rfl]
    refine ⟨rfl, ⟨rfl, rfl, rfl⟩, ?_⟩
    intro error
    constructor
    · intro hmem
      cases hmem
    · intro heq
      cases heq
  | cons block blocks =>
    have hblock := hblocks block List.mem_cons_self
    have hne : (block :: blocks).flatten ≠ [] := by simp [hblock]
    rw [driven, if_neg hne]
    exact hawaits.drive rfl sizes

/-- Two drives over the same bytes, from peers that take whatever is sent, end alike: whatever the
blocks in which the peers had the bytes and the sizes that the buffers were given, the sessions are
as far, hold the same data, and have had the same bytes accepted; and the same errors were reported,
none of which was the end of the stream, for every receive was made with bytes left to read. -/
theorem drive_segmented {blocks blocks' : List (List UInt8)}
    (hblocks : ∀ block ∈ blocks, block ≠ []) (hblocks' : ∀ block ∈ blocks', block ≠ [])
    (hsame : blocks.flatten = blocks'.flatten) (sizes sizes' : Nat → List Nat)
    {writes writes' : List WriteEvent} {flushes flushes' : List (Option Fault)}
    (hwrites : ∀ event ∈ writes, event.Succeeds) (hwrites' : ∀ event ∈ writes', event.Succeeds)
    (hflushes : ∀ fault ∈ flushes, fault = none) (hflushes' : ∀ fault ∈ flushes', fault = none) :
    let a : Endpoint := { peer := { reads := blocks.map .data, writes, flushes } }
    let b : Endpoint :=
      { peer := { reads := blocks'.map .data, writes := writes', flushes := flushes' } }
    let atEnd := a.run (a.drive sizes)
    let atEnd' := b.run (b.drive sizes')
    atEnd.isDone = true ∧ atEnd'.isDone = true ∧
      atEnd.session.core = atEnd'.session.core ∧
      atEnd.session.received.toList = atEnd'.session.received.toList ∧
      atEnd.peer.accepted = atEnd'.peer.accepted ∧
      (∀ error, .error error ∈ a.results (a.drive sizes) ↔
        .error error ∈ b.results (b.drive sizes')) ∧
      .error (.io .unexpectedEof) ∉ a.results (a.drive sizes) ∧
      .error (.io .unexpectedEof) ∉ b.results (b.drive sizes') := by
  intro a b atEnd atEnd'
  have ha := completes_driven hblocks sizes hwrites hflushes
  have hb := completes_driven hblocks' sizes' hwrites' hflushes'
  rw [← hsame] at hb
  obtain ⟨hcore, hreceived, haccepted, hresults⟩ := ha.alike hb rfl rfl
  exact ⟨ha.done, hb.done, hcore, hreceived, haccepted, hresults, ha.error_notMem _,
    hb.error_notMem _⟩

/-- A request without a key, read at once and byte by byte. -/
theorem drive_segmented_keyless :
    let a : Endpoint := { peer := { reads := [.data [71, 10, 13, 10]] } }
    let b : Endpoint :=
      { peer := { reads := [.data [71], .data [10, 13, 10]], writes := [.accept 1] } }
    let atEnd := a.run (a.drive fun _ => [])
    let atEnd' := b.run (b.drive fun _ => [7, 0])
    (∀ event ∈ b.peer.writes, event.Succeeds) ∧ atEnd.session.status = .failed ∧
      (a.drive fun _ => []).length = 1 ∧ (b.drive fun _ => [7, 0]).length = 12 ∧
      atEnd.isDone = true ∧ atEnd'.isDone = true ∧
      atEnd.session.core = atEnd'.session.core ∧
      atEnd.session.received.toList = atEnd'.session.received.toList ∧
      atEnd.peer.accepted = atEnd'.peer.accepted ∧
      (∀ error, .error error ∈ a.results (a.drive fun _ => []) ↔
        .error error ∈ b.results (b.drive fun _ => [7, 0])) ∧
      .error (.io .unexpectedEof) ∉ a.results (a.drive fun _ => []) ∧
      .error (.io .unexpectedEof) ∉ b.results (b.drive fun _ => [7, 0]) := by
  have hwrites : ∀ event ∈ [WriteEvent.accept 1], event.Succeeds := by decide
  have hnone : ∀ event ∈ ([] : List WriteEvent), event.Succeeds := by decide
  have hflushes : ∀ fault ∈ ([] : List (Option Fault)), fault = none := by decide
  have hblocks : ∀ block ∈ [[71, 10, 13, 10]], block ≠ ([] : List UInt8) := by decide
  have hblocks' : ∀ block ∈ [[71], [10, 13, 10]], block ≠ ([] : List UInt8) := by decide
  have hdrive := drive_segmented hblocks hblocks' (by decide) (fun _ => []) (fun _ => [7, 0])
    hnone hwrites hflushes hflushes
  exact ⟨hwrites, by decide +kernel, by decide +kernel, by decide +kernel, hdrive⟩

end Endpoint

end WebSocket
