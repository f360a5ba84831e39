import Mathlib.Data.List.Basic
import WebSocket.Endpoint

/-!
# Delivery

What becomes of output that is offered to a peer. The peer takes bytes from the front until it has
them all or a call fails. Either way the output has left the channel: nothing of it is offered
again, and neither the session nor what the peer has still to give is touched.
-/

namespace WebSocket

/-- A write that meets this event is not the last one unless all has been accepted. -/
def WriteEvent.Succeeds : WriteEvent → Prop
  | .accept most => most ≠ 0
  | .fault _ => False

instance : DecidablePred WriteEvent.Succeeds
  | .accept most => inferInstanceAs (Decidable (most ≠ 0))
  | .fault _ => inferInstanceAs (Decidable False)

namespace Peer

/-- What a peer makes of an offer. It accepts `taken`, in writes that offer first all the bytes and
then what is left of them; `met` are the events that these writes meet. -/
structure Offer.Takes (o : Offer) (writes : List WriteEvent) (bytes : List UInt8)
    (accepted : Array UInt8) (calls : Array PeerCall) (taken : List UInt8) (met : List WriteEvent)
    (offers : List (List UInt8)) : Prop where
  accepted_eq : o.accepted = accepted ++ taken
  writes_eq : writes = met ++ o.writes
  calls_eq : o.calls = calls ++ offers.map PeerCall.write
  taken_prefix : taken <+: bytes
  first : bytes ≠ [] → offers.head? = some bytes
  left : ∀ rest ∈ offers, rest ≠ [] ∧ rest <:+ bytes
  complete : o.fault = none → taken = bytes
  no_fault : (∀ event ∈ met, event.Succeeds) → o.fault = none

private theorem takes_nil (writes : List WriteEvent) (accepted : Array UInt8)
    (calls : Array PeerCall) :
    (offer writes [] accepted calls).Takes writes [] accepted calls [] [] [] where
  accepted_eq := by simp [offer]
  writes_eq := by simp [offer]
  calls_eq := by simp [offer]
  taken_prefix := List.prefix_rfl
  first := fun h => absurd rfl h
  left := by simp
  complete := fun _ => rfl
  no_fault := fun _ => by simp [offer]

private theorem takes_rest {bytes : List UInt8} (h : bytes ≠ []) (accepted : Array UInt8)
    (calls : Array PeerCall) :
    (offer [] bytes accepted calls).Takes [] bytes accepted calls bytes [] [bytes] := by
  have hoffer : offer [] bytes accepted calls =
      { fault := none, writes := [], accepted := accepted ++ bytes
        calls := calls.push (.write bytes) } := by
    cases bytes with
    | nil => exact absurd rfl h
    | cons b bytes => rfl
  rw [hoffer]
  exact ⟨rfl, rfl, by simp, List.prefix_rfl, fun _ => rfl, by simp [h], fun _ => rfl,
    fun _ => rfl⟩

private theorem takes_failed {event : WriteEvent} {writes : List WriteEvent} {bytes : List UInt8}
    {accepted : Array UInt8} {calls : Array PeerCall} {fault : Fault} (h : bytes ≠ [])
    (hevent : ¬ event.Succeeds)
    (hoffer : offer (event :: writes) bytes accepted calls =
      { fault := some fault, writes, accepted, calls := calls.push (.write bytes) }) :
    (offer (event :: writes) bytes accepted calls).Takes (event :: writes) bytes accepted calls []
      [event] [bytes] := by
  rw [hoffer]
  refine ⟨by simp, rfl, by simp, List.nil_prefix, fun _ => rfl, by simp [h], ?_, ?_⟩
  · intro hnone
    cases hnone
  · intro hall
    exact absurd (hall event List.mem_cons_self) hevent

private theorem Offer.Takes.more {o : Offer} {writes met : List WriteEvent} {most : Nat}
    {bytes taken : List UInt8} {accepted : Array UInt8} {calls : Array PeerCall}
    {offers : List (List UInt8)} (h : bytes ≠ [])
    (ho : o.Takes writes (bytes.drop most) (accepted ++ bytes.take most)
      (calls.push (.write bytes)) taken met offers) :
    o.Takes (.accept most :: writes) bytes accepted calls (bytes.take most ++ taken)
      (.accept most :: met) (bytes :: offers) where
  accepted_eq := by
    rw [ho.accepted_eq]
    apply Array.toList_inj.mp
    simp
  writes_eq := by rw [ho.writes_eq, List.cons_append]
  calls_eq := by
    rw [ho.calls_eq]
    apply Array.toList_inj.mp
    simp
  taken_prefix := by
    have hprefix := (List.prefix_append_right_inj (bytes.take most)).mpr ho.taken_prefix
    rwa [List.take_append_drop] at hprefix
  first := fun _ => rfl
  left := by
    intro rest hrest
    rcases List.mem_cons.mp hrest with rfl | hrest
    · exact ⟨h, List.suffix_rfl⟩
    · obtain ⟨hne, hsuffix⟩ := ho.left rest hrest
      exact ⟨hne, hsuffix.trans (List.drop_suffix most bytes)⟩
  complete := by
    intro hnone
    rw [ho.complete hnone, List.take_append_drop]
  no_fault := by
    intro hall
    exact ho.no_fault fun event hevent => hall event (List.mem_cons_of_mem _ hevent)

theorem exists_takes (writes : List WriteEvent) (bytes : List UInt8) (accepted : Array UInt8)
    (calls : Array PeerCall) :
    ∃ taken met offers,
      (offer writes bytes accepted calls).Takes writes bytes accepted calls taken met offers := by
  induction writes generalizing bytes accepted calls with
  | nil =>
    cases bytes with
    | nil => exact ⟨[], [], [], takes_nil [] accepted calls⟩
    | cons b bytes => exact ⟨_, _, _, takes_rest (List.cons_ne_nil b bytes) accepted calls⟩
  | cons event writes ih =>
    cases bytes with
    | nil => exact ⟨[], [], [], takes_nil _ accepted calls⟩
    | cons b bytes =>
      have hne : b :: bytes ≠ [] := List.cons_ne_nil b bytes
      cases event with
      | fault fault => exact ⟨_, _, _, takes_failed hne id rfl⟩
      | accept most =>
        by_cases hmost : most = 0
        · have hfails : ¬ (WriteEvent.accept most).Succeeds := fun h => h hmost
          have hoffer : offer (.accept most :: writes) (b :: bytes) accepted calls =
              { fault := some .writeZero, writes, accepted
                calls := calls.push (.write (b :: bytes)) } := by
            simp only [offer, hmost, if_true]
          exact ⟨_, _, _, takes_failed hne hfails hoffer⟩
        · obtain ⟨taken, met, offers, hrest⟩ := ih ((b :: bytes).drop most)
            (accepted ++ (b :: bytes).take most) (calls.push (.write (b :: bytes)))
          have hoffer : offer (.accept most :: writes) (b :: bytes) accepted calls =
              offer writes ((b :: bytes).drop most) (accepted ++ (b :: bytes).take most)
                (calls.push (.write (b :: bytes))) := by
            simp only [offer, hmost, if_false]
          rw [hoffer]
          exact ⟨_, _, _, hrest.more hne⟩

/-- A peer that never fails a call once something is offered. -/
structure Steady (p : Peer) : Prop where
  writes : ∀ event ∈ p.writes, event.Succeeds
  flushes : ∀ fault ∈ p.flushes, fault = none

/-- What comes of sending `bytes` to the peer `p`: it is left as `q`, having accepted `taken`. -/
structure Sends (p : Peer) (bytes : List UInt8) (q : Peer) (calls : Array PeerCall)
    (taken : List UInt8) (met : List WriteEvent) : Prop where
  reads : q.reads = p.reads
  accepted : q.accepted = p.accepted ++ taken
  writes : p.writes = met ++ q.writes
  taken_prefix : taken <+: bytes
  complete : (∀ event ∈ met, event.Succeeds) → taken = bytes
  no_reads : ∀ size, .read size ∉ calls.toList

theorem exists_sends (p : Peer) (bytes : List UInt8) :
    ∃ taken met, p.Sends bytes (p.send bytes).2.1 (p.send bytes).2.2 taken met := by
  obtain ⟨taken, met, offers, htakes⟩ := exists_takes p.writes bytes p.accepted #[]
  have hcalls : ∀ size, .read size ∉ (offer p.writes bytes p.accepted #[]).calls.toList := by
    intro size hmem
    simp [htakes.calls_eq] at hmem
  refine ⟨taken, met, ?_⟩
  unfold send
  dsimp only
  split
  · exact ⟨rfl, htakes.accepted_eq, htakes.writes_eq, htakes.taken_prefix,
      fun hall => htakes.complete (htakes.no_fault hall), hcalls⟩
  · have hflush : ∀ size, .read size ∉
        ((offer p.writes bytes p.accepted #[]).calls.push .flush).toList := by
      intro size hmem
      rw [Array.toList_push, List.mem_append, List.mem_singleton] at hmem
      rcases hmem with hmem | hmem
      · exact hcalls size hmem
      · cases hmem
    unfold flush
    dsimp only
    split
    · exact ⟨rfl, htakes.accepted_eq, htakes.writes_eq, htakes.taken_prefix,
        fun hall => htakes.complete (htakes.no_fault hall), hflush⟩
    · exact ⟨rfl, htakes.accepted_eq, htakes.writes_eq, htakes.taken_prefix,
        fun hall => htakes.complete (htakes.no_fault hall), hflush⟩

/-- The calls by which a peer is sent bytes that it takes: writes, each of which offers what is left
of the bytes, and a flush behind them. -/
def Flushed (bytes : List UInt8) (calls : List PeerCall) : Prop :=
  ∃ offers : List (List UInt8), calls = offers.map .write ++ [.flush] ∧
    offers.head? = some bytes ∧ ∀ rest ∈ offers, rest ≠ [] ∧ rest <:+ bytes

theorem Steady.send {p : Peer} (h : p.Steady) {bytes : List UInt8} (hne : bytes ≠ []) :
    (p.send bytes).1 = none ∧ (p.send bytes).2.1.Steady ∧
      (p.send bytes).2.1.accepted = p.accepted ++ bytes ∧
      Flushed bytes (p.send bytes).2.2.toList := by
  obtain ⟨taken, met, offers, htakes⟩ := exists_takes p.writes bytes p.accepted #[]
  have hevents : ∀ event ∈ met ++ (offer p.writes bytes p.accepted #[]).writes, event.Succeeds := by
    rw [← htakes.writes_eq]
    exact h.writes
  obtain ⟨hmet, hwrites⟩ := List.forall_mem_append.mp hevents
  have hfault := htakes.no_fault hmet
  have haccepted := htakes.accepted_eq
  rw [htakes.complete hfault] at haccepted
  have hcalls : Flushed bytes ((offer p.writes bytes p.accepted #[]).calls.push .flush).toList :=
    ⟨offers, by simp [htakes.calls_eq], htakes.first hne, htakes.left⟩
  unfold Peer.send flush
  simp only [hfault]
  cases hflushes : p.flushes with
  | nil => exact ⟨rfl, ⟨hwrites, by simp⟩, haccepted, hcalls⟩
  | cons fault flushes =>
    have hall := h.flushes
    rw [hflushes] at hall
    obtain ⟨hfirst, hrest⟩ := List.forall_mem_cons.mp hall
    exact ⟨hfirst, ⟨hwrites, hrest⟩, haccepted, hcalls⟩

end Peer

namespace Endpoint

theorem deliver_of_empty {e : Endpoint} (h : e.channel.outgoing = #[]) :
    e.deliver = { endpoint := e, result := .ok () } := by
  simp [deliver, Channel.collect, h]

/-- Delivery takes all output off the channel, and touches nothing else but the write side of the
peer. -/
theorem exists_deliver (e : Endpoint) :
    ∃ peer, e.deliver.endpoint =
        { e with peer, channel := { e.channel with outgoing := #[] } } ∧
      ∃ taken met, e.peer.Sends e.channel.outgoing.toList peer e.deliver.calls taken met := by
  by_cases h : e.channel.outgoing = #[]
  · refine ⟨e.peer, ?_, [], [], ?_⟩
    · rw [deliver_of_empty h, ← h]
    · rw [deliver_of_empty h, h]
      exact ⟨rfl, by simp, rfl, List.nil_prefix, fun _ => rfl, by simp⟩
  · have hne : e.channel.outgoing.toList.isEmpty = false := by simpa using h
    simp only [deliver, Channel.collect, hne, Bool.false_eq_true, if_false]
    exact ⟨_, rfl, e.peer.exists_sends e.channel.outgoing.toList⟩

/-- A steady peer gets all that is delivered. -/
theorem deliver_of_steady {e : Endpoint} (hp : e.peer.Steady) :
    e.deliver.result = .ok () ∧ e.deliver.endpoint.peer.Steady ∧
      e.deliver.endpoint.peer.accepted = e.peer.accepted ++ e.channel.outgoing ∧
      (e.channel.outgoing = #[] → e.deliver.calls = #[]) ∧
      (e.channel.outgoing ≠ #[] →
        Peer.Flushed e.channel.outgoing.toList e.deliver.calls.toList) := by
  by_cases h : e.channel.outgoing = #[]
  · rw [deliver_of_empty h]
    exact ⟨rfl, hp, by simp [h], fun _ => rfl, fun hne => absurd h hne⟩
  · have hne : e.channel.outgoing.toList ≠ [] := by simpa using h
    have hempty : e.channel.outgoing.toList.isEmpty = false := by simpa using h
    obtain ⟨hfault, hsteady, haccepted, hcalls⟩ := hp.send hne
    simp only [deliver, Channel.collect, hempty, Bool.false_eq_true, if_false]
    refine ⟨?_, hsteady, ?_, fun hnil => absurd hnil h, fun _ => hcalls⟩
    · simp [hfault]
    · apply Array.toList_inj.mp
      rw [haccepted]
      simp

end Endpoint

end WebSocket
