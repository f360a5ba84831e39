import WebSocket.Proofs.Endpoint.Faults
import WebSocket.Proofs.Endpoint.Reads
import WebSocket.Proofs.Session.Lifecycle

/-!
# Reads that bring nothing

A read that fails or finds the stream at its end takes one event from the peer and leaves all else
as it is, so that the receive may be made again: a run in which such events were put between those
of the peer, each with a receive of its own to meet it, is for all other operations the run without
them (`reads_interrupted`). Nor does a receive keep back what the session found wrong.
-/

namespace WebSocket

namespace ReadEvent

/-- The event has no byte to give. -/
def Barren : ReadEvent → Prop
  | .fault _ => True
  | .data bytes => bytes = []

/-- What a receive reports that meets the event, if it has no byte to give. -/
def refusal : ReadEvent → Fault
  | .fault why => why
  | .data _ => .unexpectedEof

end ReadEvent

namespace Endpoint

open Session (Conversation)

/-- A receive that brings nothing takes the event that it met from the peer and reports it. -/
theorem receive_of_barren {e : Endpoint} {event : ReadEvent} {reads : List ReadEvent}
    (hfinal : e.session.status.isFinal = false) (hreads : e.peer.reads = event :: reads)
    (h : event.Barren) :
    e.receive =
      { endpoint := e.withReads reads, result := .error (.io event.refusal)
        calls := #[.read e.bufferSize] } := by
  cases event with
  | fault why =>
    simp only [receive, hfinal, Peer.read, hreads, Bool.false_eq_true, if_false]
    rfl
  | data bytes =>
    have hbytes : bytes = [] := h
    simp only [receive, hfinal, Peer.read, hreads, hbytes, List.drop_nil, Bool.false_eq_true,
      if_false]
    rfl

/-! ## Scripts in which events were put -/

/-- An event of a script of reads, or one that was put in between. -/
inductive Slot where
  | own (event : ReadEvent)
  | added (event : ReadEvent) (h : event.Barren)

namespace Slot

def event : Slot → ReadEvent
  | own event => event
  | added event _ => event

def own? : Slot → Option ReadEvent
  | own event => some event
  | added _ _ => none

def isAdded : Slot → Bool
  | own _ => false
  | added _ _ => true

theorem map_event_own (events : List ReadEvent) : (events.map own).map event = events := by
  rw [List.map_map]
  exact List.map_id _

theorem filterMap_own?_own (events : List ReadEvent) : (events.map own).filterMap own? = events := by
  rw [List.filterMap_map]
  exact List.filterMap_some

end Slot

inductive Step where
  | own (op : Operation)
  /-- A receive that is made besides. -/
  | extra

namespace Step

def op : Step → Operation
  | own op => op
  | extra => .receive

def own? : Step → Option Operation
  | own op => some op
  | extra => none

def isExtra : Step → Bool
  | own _ => false
  | extra => true

end Step

/-- The next read meets an event that was put in: of the script, so much is left as there are events
for the peer to give. -/
def meetsAdded (e : Endpoint) (script : List Slot) : Bool :=
  (script.drop (script.length - e.peer.reads.length)).head?.any Slot.isAdded

/-- The extra receives of a run meet events that were put in, and no other receive does. -/
def Fits (script : List Slot) : Endpoint → List Step → Prop
  | _, [] => True
  | e, step :: steps =>
    (e.asks step.op = true → e.meetsAdded script = step.isExtra) ∧
      Fits script (e.perform step.op).endpoint steps

/-- The turns of a run that are not extra. -/
def ownTurns (e : Endpoint) : List Step → List Turn
  | [] => []
  | .own op :: steps => { before := e, op } :: (e.perform op).endpoint.ownTurns steps
  | .extra :: steps => (e.perform .receive).endpoint.ownTurns steps

def extraTurns (e : Endpoint) : List Step → List Turn
  | [] => []
  | .own op :: steps => (e.perform op).endpoint.extraTurns steps
  | .extra :: steps =>
    { before := e, op := .receive } :: (e.perform .receive).endpoint.extraTurns steps

/-- All that a turn does, but for what it leaves to be read. -/
def Turn.apart (t : Turn) : Exchange Answer :=
  t.exchange.withReads []

/-- A turn that calls on the peer for one read only, reports why it brought nothing, and takes from
the peer the event that it met. -/
def Turn.Bounces (t : Turn) : Prop :=
  ∃ event reads, t.before.peer.reads = event :: reads ∧ event.Barren ∧
    t.exchange =
      { endpoint := t.before.withReads reads, result := .error (.io event.refusal)
        calls := #[.read t.before.bufferSize] }

/-- What a peer has still to give are the events of `slots`, which are the last of the script; of
the first of them a part may have been given. -/
structure Aligned (script slots : List Slot) (e : Endpoint) : Prop where
  reads : e.peer.reads = slots.map Slot.event
  marks : slots.map Slot.isAdded <:+ script.map Slot.isAdded

namespace Aligned

variable {script slots : List Slot} {e : Endpoint}

theorem meetsAdded_eq (h : Aligned script slots e) :
    e.meetsAdded script = slots.head?.any Slot.isAdded := by
  have hlength : e.peer.reads.length = slots.length := by rw [h.reads, List.length_map]
  have hmarks := List.suffix_iff_eq_drop.mp h.marks
  rw [List.length_map, List.length_map, ← List.map_drop] at hmarks
  have hhead : ∀ l : List Slot, l.head?.any Slot.isAdded = (l.map Slot.isAdded).head?.any id := by
    intro l
    cases l <;> rfl
  rw [meetsAdded, hlength, hhead, ← hmarks, ← hhead]

private theorem marks_own {event : ReadEvent} {pieces : List ReadEvent}
    (h : (Slot.own event :: slots).map Slot.isAdded <:+ script.map Slot.isAdded)
    (hlength : pieces.length ≤ 1) :
    (pieces.map Slot.own ++ slots).map Slot.isAdded <:+ script.map Slot.isAdded := by
  apply List.IsSuffix.trans _ h
  cases pieces with
  | nil => exact List.suffix_cons _ _
  | cons piece pieces =>
    have hnil : pieces = [] := by simpa using hlength
    rw [hnil]
    exact List.suffix_rfl

private theorem own_receive (h : Aligned script slots e)
    (hfinal : e.session.status.isFinal = false) (hmeets : slots.head?.any Slot.isAdded = false) :
    ∃ left, Aligned script left e.receive.endpoint ∧
      (e.withReads (slots.filterMap Slot.own?)).receive =
        e.receive.withReads (left.filterMap Slot.own?) := by
  cases slots with
  | nil =>
    have hread := Peer.read_of_nil h.reads e.bufferSize
    have hreads := reads_receive hfinal
    rw [hread, h.reads] at hreads
    exact ⟨[], ⟨hreads, h.marks⟩,
      receive_withReads hfinal hread (Peer.read_of_nil rfl e.bufferSize)⟩
  | cons slot slots =>
    cases slot with
    | added event hbarren => cases hmeets
    | own event =>
      have hhead : e.peer.reads = event :: slots.map Slot.event := h.reads
      have hread := Peer.read_of_cons hhead e.bufferSize
      have hread' := Peer.read_of_cons (p := e.peer.withReads (event :: slots.filterMap Slot.own?))
        rfl e.bufferSize
      have hreads := reads_receive hfinal
      rw [hread] at hreads
      have hlength := event.length_meet_le e.bufferSize
      generalize (event.meet e.bufferSize).2 = pieces at *
      refine ⟨pieces.map Slot.own ++ slots, ⟨?_, marks_own h.marks hlength⟩, ?_⟩
      · rw [hreads, List.map_append, Slot.map_event_own]
        rfl
      · rw [List.filterMap_append, Slot.filterMap_own?_own]
        exact receive_withReads hfinal hread hread'

/-- An operation that meets no event that was put in. -/
theorem own (h : Aligned script slots e) {op : Operation}
    (hmeets : e.asks op = true → e.meetsAdded script = false) :
    ∃ left, Aligned script left (e.perform op).endpoint ∧
      (e.withReads (slots.filterMap Slot.own?)).perform op =
        (e.perform op).withReads (left.filterMap Slot.own?) := by
  cases hasks : e.asks op with
  | false =>
    have hsame := perform_withReads hasks e.peer.reads
    have hreads : (e.perform op).endpoint.peer.reads = e.peer.reads :=
      congrArg (fun x => x.endpoint.peer.reads) hsame
    exact ⟨slots, ⟨hreads.trans h.reads, h.marks⟩, perform_withReads hasks _⟩
  | true =>
    have hnot := hmeets hasks
    rw [h.meetsAdded_eq] at hnot
    cases op with
    | receive =>
      have hfinal : e.session.status.isFinal = false := by simpa [asks] using hasks
      obtain ⟨left, hleft, hreceive⟩ := h.own_receive hfinal hnot
      refine ⟨left, hleft, ?_⟩
      rw [perform, hreceive]
      rfl
    | send payload hlen | read n | readInto buffer | sessionRead n | setBufferSize size
    | rename id => cases hasks

/-- A receive that meets an event that was put in. -/
theorem extra (h : Aligned script slots e) (hfinal : e.session.status.isFinal = false)
    (hmeets : e.meetsAdded script = true) :
    ({ before := e, op := .receive } : Turn).Bounces ∧
      ∃ left, Aligned script left (e.perform .receive).endpoint ∧
        (e.perform .receive).endpoint.withReads (left.filterMap Slot.own?) =
          e.withReads (slots.filterMap Slot.own?) := by
  rw [h.meetsAdded_eq] at hmeets
  cases slots with
  | nil => cases hmeets
  | cons slot slots =>
    cases slot with
    | own event => cases hmeets
    | added event hbarren =>
      have hreads : e.peer.reads = event :: slots.map Slot.event := h.reads
      have hreceive := receive_of_barren hfinal hreads hbarren
      have hexchange : e.perform .receive =
          { endpoint := e.withReads (slots.map Slot.event)
            result := .error (.io event.refusal), calls := #[.read e.bufferSize] } := by
        rw [perform, hreceive]
        rfl
      refine ⟨⟨event, _, hreads, hbarren, hexchange⟩, slots, ?_, ?_⟩
      · rw [hexchange]
        exact ⟨rfl, (List.suffix_cons _ _).trans h.marks⟩
      · rw [hexchange]
        rfl

end Aligned

/-- But for the extra turns, a run does what a run of the steps of its own does where only the
events of `slots` of its own are left to be read; and the extra turns bring nothing. -/
structure Undisturbed (e : Endpoint) (slots : List Slot) (steps : List Step) : Prop where
  own :
    (e.ownTurns steps).map Turn.apart =
      ((e.withReads (slots.filterMap Slot.own?)).turns (steps.filterMap Step.own?)).map Turn.apart
  extra : ∀ t ∈ e.extraTurns steps, t.before.session.status.isFinal = false → t.Bounces

namespace Undisturbed

variable {slots left : List Slot} {e : Endpoint} {steps : List Step}

private theorem cons_own {op : Operation}
    (hperform : (e.withReads (slots.filterMap Slot.own?)).perform op =
      (e.perform op).withReads (left.filterMap Slot.own?))
    (h : (e.perform op).endpoint.Undisturbed left steps) :
    e.Undisturbed slots (.own op :: steps) where
  own := by
    have hapart : ({ before := e, op } : Turn).apart =
        ({ before := e.withReads (slots.filterMap Slot.own?), op } : Turn).apart := by
      rw [Turn.apart, Turn.apart, Turn.exchange, Turn.exchange, hperform]
      rfl
    have hnext : ((e.withReads (slots.filterMap Slot.own?)).perform op).endpoint =
        (e.perform op).endpoint.withReads (left.filterMap Slot.own?) := by
      rw [hperform]
      rfl
    rw [ownTurns, List.filterMap_cons_some (by rfl), turns, List.map_cons, List.map_cons, hapart,
      h.own, hnext]
  extra := h.extra

private theorem cons_extra
    (hsame : (e.perform .receive).endpoint.withReads (left.filterMap Slot.own?) =
      e.withReads (slots.filterMap Slot.own?))
    (hbounces : e.session.status.isFinal = false →
      ({ before := e, op := .receive } : Turn).Bounces)
    (h : (e.perform .receive).endpoint.Undisturbed left steps) :
    e.Undisturbed slots (.extra :: steps) where
  own := by
    have hown := h.own
    rw [hsame] at hown
    exact hown
  extra := by
    intro t ht hgoing
    rcases List.mem_cons.mp ht with rfl | ht
    · exact hbounces hgoing
    · exact h.extra t ht hgoing

end Undisturbed

/-- The events that were put in and the receives that meet them disturb no other operation. -/
theorem Aligned.undisturbed {script slots : List Slot} {e : Endpoint} (h : Aligned script slots e)
    {steps : List Step} (hfits : e.Fits script steps) : e.Undisturbed slots steps := by
  induction steps generalizing e slots with
  | nil =>
    constructor
    · rfl
    · intro t ht
      cases ht
  | cons step steps ih =>
    obtain ⟨hmeets, hrest⟩ := hfits
    cases step with
    | own op =>
      obtain ⟨left, hleft, hperform⟩ := h.own hmeets
      exact .cons_own hperform (ih hleft hrest)
    | extra =>
      cases hfinal : e.session.status.isFinal with
      | true =>
        have hstays : (e.perform .receive).endpoint = e := by
          rw [perform, receive_of_final hfinal]
          rfl
        have haligned : Aligned script slots (e.perform .receive).endpoint := by rwa [hstays]
        apply Undisturbed.cons_extra _ _ (ih haligned hrest)
        · rw [hstays]
        · intro hgoing
          rw [hfinal] at hgoing
          cases hgoing
      | false =>
        have hasks : e.asks .receive = true := by simp [asks, hfinal]
        obtain ⟨hbounces, left, hleft, hsame⟩ := h.extra hfinal (hmeets hasks)
        exact .cons_extra hsame (fun _ => hbounces) (ih hleft hrest)

/-! ## What a receive reports -/

/-- Why the delivery of what the session has written fails, if it does. -/
def undelivered (e : Endpoint) : Option Fault :=
  if e.channel.outgoing = #[] then none else (e.peer.send e.channel.outgoing.toList).1

theorem result_deliver (e : Endpoint) :
    e.deliver.result = match e.undelivered with
      | none => .ok ()
      | some fault => .error (.io fault) := by
  by_cases h : e.channel.outgoing = #[]
  · rw [deliver_of_empty h, undelivered, if_pos h]
  · have hempty : e.channel.outgoing.toList.isEmpty = false := by simpa using h
    cases hfault : (e.peer.send e.channel.outgoing.toList).1 with
    | none | some fault =>
      simp only [deliver, Channel.collect, hempty, undelivered, if_neg h, hfault, Bool.false_eq_true,
        if_false]

/-- A receive keeps nothing to itself. At the end of a session it does nothing; if the session fails
by it, it reports what the session found wrong, or why that could not be delivered; and it reports
no such finding if the session did not fail. -/
structure Candid (e : Endpoint) (x : Exchange Status) : Prop where
  rests : e.session.status.isFinal = true →
    x = { endpoint := e, result := .ok e.session.status, records := #[], calls := #[] }
  fails : e.session.status ≠ .failed → x.endpoint.session.status = .failed →
    ∃ bytes p error, e.peer.read e.bufferSize = (.ok bytes, p) ∧
      let fed := e.session.feed (e.channel.receive bytes)
      fed.result = .error error ∧
        x.result = match (e.fedWith p fed).undelivered with
          | none => .error (.session error)
          | some fault => .error (.io fault)
  honest : ∀ error, x.result = .error (.session error) → x.endpoint.session.status = .failed

private theorem candid_conclude {e : Endpoint} (hs : e.session.Coherent)
    (hfinal : e.session.status.isFinal = false) {bytes : List UInt8} {p : Peer}
    (hread : e.peer.read e.bufferSize = (.ok bytes, p)) :
    let fed := e.session.feed (e.channel.receive bytes)
    e.Candid (e.conclude bytes fed (e.fedWith p fed).deliver) := by
  intro fed
  have herror := (hs.leaves_feed (e.channel.receive bytes)).error_iff
  have hsession : (e.conclude bytes fed (e.fedWith p fed).deliver).endpoint.session =
      fed.session := by
    obtain ⟨peer, hendpoint, -⟩ := (e.fedWith p fed).exists_deliver
    rw [conclude, hendpoint]
    rfl
  have hresult : (e.conclude bytes fed (e.fedWith p fed).deliver).result =
      match (e.fedWith p fed).undelivered with
      | none => fed.result.mapError .session
      | some fault => .error (.io fault) := by
    rw [conclude, result_deliver]
    cases (e.fedWith p fed).undelivered <;> rfl
  constructor
  · intro h
    rw [hfinal] at h
    cases h
  · intro _ hfailed
    rw [hsession] at hfailed
    obtain ⟨error, hfed⟩ := herror.mpr ⟨hfinal, hfailed⟩
    have hfed' : fed.result = .error error := hfed
    rw [hfed'] at hresult
    exact ⟨bytes, p, error, hread, hfed, hresult⟩
  · intro error hreported
    rw [hsession]
    apply (herror.mp ?_).2
    rw [hresult] at hreported
    cases hundelivered : (e.fedWith p fed).undelivered with
    | some fault =>
      rw [hundelivered] at hreported
      cases hreported
    | none =>
      rw [hundelivered] at hreported
      cases hfed : fed.result with
      | ok status =>
        rw [hfed] at hreported
        cases hreported
      | error found => exact ⟨found, rfl⟩

theorem Receipt.candid {e : Endpoint} {x : Exchange Status} (h : e.Receipt x)
    (hs : e.session.Coherent) : e.Candid x := by
  cases h with
  | rests hfinal =>
    constructor
    · intro _
      rfl
    · intro hnot hfailed
      exact absurd hfailed hnot
    · intro error herror
      cases herror
  | bounces hfinal fault p =>
    constructor
    · intro h
      rw [hfinal] at h
      cases h
    · intro hnot hfailed
      exact absurd hfailed hnot
    · intro error herror
      cases herror
  | takes hfinal b bytes p fed hread hfed =>
    rw [hfed]
    exact candid_conclude hs hfinal hread

theorem session_perform {e : Endpoint} (h : e.channel.outgoing = #[]) (op : Operation) :
    (e.perform op).endpoint.session = (e.alone.run (e.plain op)).session := by
  obtain ⟨peer, hendpoint, -⟩ := (e.prepare op).exists_deliver
  rw [(perform_eq h op).endpoint, hendpoint]
  rfl

theorem coherent_run {e : Endpoint} (h : e.channel.outgoing = #[]) (hs : e.session.Coherent)
    (ops : List Operation) : (e.run ops).session.Coherent := by
  induction ops generalizing e with
  | nil => exact hs
  | cons op ops ih =>
    rw [run_cons]
    apply ih (outgoing_perform h op)
    rw [session_perform h op]
    exact Session.Coherent.run (c := e.alone) hs _

/-- Where events that bring nothing were put into what a peer gives, and receives into the run to
meet them, all other operations do what they do in the run without them, in everything but what is
left to be read, and each of those receives reports why its read brought nothing and does no more,
unless the session is at its end. In no run does a receive call on the peer when the session is at
its end, or keep back what the session found wrong. -/
theorem reads_interrupted {script : List Slot} (writes : List WriteEvent)
    (flushes : List (Option Fault)) (steps : List Step)
    (h : Fits script { peer := { reads := script.map Slot.event, writes, flushes } } steps) :
    let interrupted : Endpoint := { peer := { reads := script.map Slot.event, writes, flushes } }
    let plain : Endpoint := { peer := { reads := script.filterMap Slot.own?, writes, flushes } }
    (interrupted.ownTurns steps).map Turn.apart =
        (plain.turns (steps.filterMap Step.own?)).map Turn.apart ∧
      (∀ t ∈ interrupted.extraTurns steps,
        t.before.session.status.isFinal = false → t.Bounces) ∧
      ∀ ops, (interrupted.run ops).Candid (interrupted.run ops).receive := by
  intro interrupted plain
  have haligned : interrupted.Aligned script script := ⟨rfl, List.suffix_rfl⟩
  have hrun := haligned.undisturbed h
  refine ⟨hrun.own, hrun.extra, ?_⟩
  intro ops
  exact (receipt_receive _).candid (coherent_run rfl (Session.coherent_fresh 0) ops)

/-- A request that arrives piecemeal, with a read that times out and one at the end of the stream in
between. -/
def halting : List Slot :=
  [.own (.data [71, 69]), .added (.fault .timedOut) trivial, .own (.data [84]),
    .added (.data []) rfl]

theorem reads_interrupted_halting :
    let interrupted : Endpoint := { peer := { reads := halting.map Slot.event } }
    let steps : List Step :=
      [.own (.setBufferSize 1), .own .receive, .own .receive, .extra, .own .receive, .extra]
    let plain : Endpoint := { peer := { reads := [.data [71, 69], .data [84]] } }
    Fits halting interrupted steps ∧
      (interrupted.extraTurns steps).map (fun t => t.exchange.result) =
        [.error (.io .timedOut), .error (.io .unexpectedEof)] ∧
      (interrupted.ownTurns steps).map Turn.apart =
        (plain.turns [.setBufferSize 1, .receive, .receive, .receive]).map Turn.apart ∧
      (∀ t ∈ interrupted.extraTurns steps, t.before.session.status.isFinal = false → t.Bounces) ∧
      ∀ ops, (interrupted.run ops).Candid (interrupted.run ops).receive := by
  intro interrupted steps plain
  have hfits : Fits halting interrupted steps :=
    ⟨by decide, by decide +kernel, by decide +kernel, by decide +kernel, by decide +kernel,
      by decide +kernel, trivial⟩
  obtain ⟨hown, hextra, hcandid⟩ := reads_interrupted [] [] steps hfits
  exact ⟨hfits, by decide +kernel, hown, hextra, hcandid⟩

end Endpoint

end WebSocket
