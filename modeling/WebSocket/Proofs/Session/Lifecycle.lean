import Mathlib.Logic.Relation
import WebSocket.Proofs.Session.Run

/-!
# The life of a session

How far a conversation has come is kept in three places: the status of the session, the accept key
of its negotiation, and its reader. They are never out of step (`Coherent`), on whatever channel the
session is used, for what a feed can leave behind is one of five things (`leaves_feed`).
-/

namespace WebSocket

/-! ## Where reading and negotiating leave off -/

namespace FrameReader

/-- A reader that gives this verdict is closed if that is the verdict, and between two frames if it
met a fault. -/
structure Told (verdict : Option Verdict) (r : FrameReader) : Prop where
  closed_iff : r = .closed ↔ verdict = some .closed
  of_fault : ∀ error, verdict = some (.fault error) → r = .header

private theorem told_going {verdict : Option Verdict} {r : FrameReader} (hr : r ≠ .closed)
    (hverdict : verdict = none ∨ verdict = some .pending) : Told verdict r where
  closed_iff := by
    constructor
    · exact fun h => absurd h hr
    · intro h
      rw [h] at hverdict
      rcases hverdict with hnone | hpending
      · cases hnone
      · cases hpending
  of_fault := by
    intro error h
    rw [h] at hverdict
    rcases hverdict with hnone | hpending
    · cases hnone
    · cases hpending

private theorem told_readHeader (first second : UInt8) (ch : Channel) :
    Told (readHeader first second ch).verdict (readHeader first second ch).reader := by
  unfold readHeader
  split
  · exact ⟨by simp, fun _ _ => rfl⟩
  · split
    · exact ⟨by simp, by simp⟩
    · split
      · exact ⟨by simp, fun _ _ => rfl⟩
      · refine told_going ?_ (.inl rfl)
        unfold afterHeader
        split <;> simp

private theorem told_readPayload (p : PartialPayload) (ch : Channel) :
    Told (readPayload p ch).verdict (readPayload p ch).reader := by
  unfold readPayload
  dsimp only
  split
  · unfold finish
    split <;> exact told_going (by simp) (.inl rfl)
  · split
    · exact told_going (by simp [suspend]) (.inr rfl)
    · split
      · exact told_going (by simp [dropPayload]) (.inl rfl)
      · unfold takePayload
        dsimp only
        split
        · exact told_going (by simp [suspend]) (.inr rfl)
        · exact told_going (by simp) (.inl rfl)

theorem told_step (r : FrameReader) (ch : Channel) :
    Told (r.step ch).verdict (r.step ch).reader := by
  cases r with
  | header =>
    simp only [step]
    split
    · exact told_going (by simp [suspend]) (.inr rfl)
    · exact told_readHeader _ _ _
  | length16 purpose | length64 purpose | maskKey purpose length =>
    simp only [step]
    split
    · exact told_going (by simp [suspend]) (.inr rfl)
    · exact told_going (by simp) (.inl rfl)
  | payload p => exact told_readPayload p ch
  | closed => exact ⟨by simp [step], by simp [step]⟩

theorem told_decode (r : FrameReader) (ch : Channel) :
    Told (some (r.decode ch).verdict) (r.decode ch).reader := by
  induction hw : r.weight ch using Nat.strongRecOn generalizing r ch with
  | ind w ih =>
    have hstep := r.told_step ch
    cases hverdict : (r.step ch).verdict with
    | some verdict =>
      rw [hverdict] at hstep
      rw [decode_of_some hverdict]
      exact hstep
    | none =>
      rw [decode_of_none hverdict]
      exact ih _ (hw ▸ weight_step hverdict) _ _ rfl

end FrameReader

namespace Negotiation

private theorem accept_of_step {n : Negotiation} {line : RequestLine} {accept : String}
    (h : n.step line = .accept accept) : n.accept = some accept := by
  cases line with
  | other => simp [step] at h
  | key value =>
    simp only [step] at h
    split at h
    · cases h
    · split at h <;> cases h
  | finish =>
    cases haccept : n.accept with
    | none => simp [step, haccept] at h
    | some accept' =>
      simp only [step, haccept] at h
      cases h
      rfl

/-- A request is answered with the accept key that the negotiation holds. -/
theorem accept_of_done {n : Negotiation} {ch : Channel} (h : (n.advance ch).verdict = .done) :
    (n.advance ch).negotiation.accept.isSome = true := by
  induction hsize : ch.inbox.size using Nat.strongRecOn generalizing n ch with
  | ind size ih =>
    cases hline : ch.takeLine? with
    | none =>
      rw [advance_of_none hline] at h
      cases h
    | some taken =>
      have hlt := hsize ▸ Channel.size_lt_of_takeLine? hline
      rw [advance_of_some hline] at h ⊢
      cases hstep : n.step (.ofBytes taken.1) with
      | next later notices =>
        rw [hstep] at h
        exact ih _ hlt h rfl
      | accept accept =>
        simp [accept_of_step hstep]
      | refuse error =>
        rw [hstep] at h
        cases h

end Negotiation

/-- The transitions of a session. -/
inductive Status.Move : Status → Status → Prop where
  | start : Move .idle .handshaking
  | answer : Move .handshaking .established
  | refuse : Move .handshaking .failed
  | close : Move .established .closed
  | fail : Move .established .failed

private theorem Status.moves_established {status : Status} (h : status.isFinal = false) :
    Relation.ReflTransGen Move status .established := by
  cases status with
  | idle => exact .tail (.single .start) .answer
  | handshaking => exact .single .answer
  | established => exact .refl
  | closed | failed => cases h

private theorem Status.moves_failed {status : Status} (h : status.isFinal = false) :
    Relation.ReflTransGen Move status .failed := by
  cases status with
  | idle => exact .tail (.single .start) .refuse
  | handshaking => exact .single .refuse
  | established => exact .single .fail
  | closed | failed => cases h

namespace Session

/-- The parts of a session tell the same story. -/
structure Coherent (s : Session) : Prop where
  /-- Before frames are exchanged none has been begun, and there is no data. -/
  opening : s.status = .idle ∨ s.status = .handshaking → s.reader = .header ∧ s.available = 0
  accepted : s.status = .established ∨ s.status = .closed → s.negotiation.accept.isSome = true
  closed_iff : s.status = .closed ↔ s.reader = .closed
  /-- What breaks the rules is found between two frames. -/
  failed : s.status = .failed → s.reader = .header

/-! ## What a feed can do -/

/-- What a feed with this result leaves of a session: it may wait for the rest of the request, have
read frames, have read as far as a close frame, have met a fault, or have had nothing to do. -/
inductive Leaves (s t : Session) : Result → Prop where
  | waits (h : s.status = .idle ∨ s.status = .handshaking) (hstatus : t.status = .handshaking)
      (hreader : t.reader = .header) (hdata : t.available = 0) : Leaves s t (.ok .handshaking)
  | reads (h : s.status.isFinal = false) (hstatus : t.status = .established)
      (haccept : t.negotiation.accept.isSome = true) (hreader : t.reader ≠ .closed) :
      Leaves s t (.ok .established)
  | closes (h : s.status.isFinal = false) (hstatus : t.status = .closed)
      (haccept : t.negotiation.accept.isSome = true) (hreader : t.reader = .closed) :
      Leaves s t (.ok .closed)
  | fails (h : s.status.isFinal = false) (error : SessionError) (hstatus : t.status = .failed)
      (hreader : t.reader = .header) : Leaves s t (.error error)
  | rests (h : s.status.isFinal = true) (heq : t = s) : Leaves s t (.ok s.status)

private theorem leaves_readFrames {s t : Session} (h : s.status.isFinal = false)
    (hstatus : t.status = .established) (haccept : t.negotiation.accept.isSome = true)
    (ch : Channel) (before : Trace) :
    Leaves s (t.readFrames ch before).session (t.readFrames ch before).result := by
  have htold := t.reader.told_decode ch
  cases hverdict : (t.reader.decode ch).verdict with
  | pending =>
    rw [hverdict] at htold
    simp only [readFrames, hverdict, hstatus]
    refine .reads h rfl haccept ?_
    intro hclosed
    cases htold.closed_iff.mp hclosed
  | closed =>
    rw [hverdict] at htold
    simp only [readFrames, hverdict]
    exact .closes h rfl haccept (htold.closed_iff.mpr rfl)
  | fault error =>
    rw [hverdict] at htold
    simp only [readFrames, hverdict, fail]
    exact .fails h _ rfl (htold.of_fault error rfl)

private theorem leaves_negotiate {s : Session} (hs : s.Coherent)
    (h : s.status = .idle ∨ s.status = .handshaking) (ch : Channel) :
    Leaves s (s.negotiate ch).session (s.negotiate ch).result := by
  have hfinal : s.status.isFinal = false := by
    rcases h with h | h <;> rw [h] <;> rfl
  obtain ⟨hreader, hdata⟩ := hs.opening h
  cases hverdict : (s.negotiation.advance ch).verdict with
  | pending =>
    simp only [negotiate, hverdict]
    exact .waits h rfl hreader hdata
  | done =>
    simp only [negotiate, hverdict]
    exact leaves_readFrames hfinal rfl (Negotiation.accept_of_done hverdict) _ _
  | fault error =>
    simp only [negotiate, hverdict, fail]
    exact .fails hfinal _ rfl hreader

theorem Coherent.leaves_feed {s : Session} (hs : s.Coherent) (ch : Channel) :
    Leaves s (s.feed ch).session (s.feed ch).result := by
  cases hstatus : s.status with
  | idle =>
    simp only [feed, hstatus]
    exact leaves_negotiate hs (.inl hstatus) ch
  | handshaking =>
    simp only [feed, hstatus]
    exact leaves_negotiate hs (.inr hstatus) ch
  | established =>
    simp only [feed, hstatus]
    exact leaves_readFrames (by rw [hstatus]; rfl) hstatus (hs.accepted (.inl hstatus)) ch {}
  | closed | failed =>
    have hfinal : s.status.isFinal = true := by
      rw [hstatus]
      rfl
    rw [feed_of_final hfinal]
    exact .rests hfinal rfl

namespace Leaves

variable {s t : Session} {result : Result}

theorem moves (h : Leaves s t result) : Relation.ReflTransGen Status.Move s.status t.status := by
  cases h with
  | waits h hstatus =>
    rw [hstatus]
    rcases h with h | h
    · rw [h]
      exact .single .start
    · rw [h]
  | reads h hstatus =>
    rw [hstatus]
    exact Status.moves_established h
  | closes h hstatus =>
    rw [hstatus]
    exact .tail (Status.moves_established h) .close
  | fails h error hstatus =>
    rw [hstatus]
    exact Status.moves_failed h
  | rests h heq => rw [heq]

theorem status_of_ok {status : Status} (h : Leaves s t (.ok status)) : t.status = status := by
  cases h with
  | waits h hstatus | reads h hstatus | closes h hstatus => exact hstatus
  | rests h heq => rw [heq]

theorem error_iff (h : Leaves s t result) :
    (∃ error, result = .error error) ↔ s.status.isFinal = false ∧ t.status = .failed := by
  cases h with
  | waits h hstatus | reads h hstatus | closes h hstatus => simp [hstatus]
  | fails h error hstatus => simp [h, hstatus]
  | rests h heq => simp [h]

theorem coherent (h : Leaves s t result) (hs : s.Coherent) : t.Coherent := by
  cases h with
  | waits h hstatus hreader hdata =>
    exact ⟨fun _ => ⟨hreader, hdata⟩, by simp [hstatus], by simp [hstatus, hreader],
      fun _ => hreader⟩
  | reads h hstatus haccept hreader =>
    exact ⟨by simp [hstatus], fun _ => haccept, by simp [hstatus, hreader], by simp [hstatus]⟩
  | closes h hstatus haccept hreader =>
    exact ⟨by simp [hstatus], fun _ => haccept, by simp [hstatus, hreader], by simp [hstatus]⟩
  | fails h error hstatus hreader =>
    exact ⟨by simp [hstatus], by simp [hstatus], by simp [hstatus, hreader], fun _ => hreader⟩
  | rests h heq =>
    rw [heq]
    exact hs

end Leaves

/-! ## Histories -/

/-- A use that is made of a session. The channel may be another each time: in between, bytes may
have arrived or been collected, and the limits may have changed. -/
inductive Use where
  | feed (ch : Channel)
  | write (ch : Channel) (payload : List UInt8)
  | read (n : Nat)
  | readInto (buffer : List UInt8)
  | rename (id : UInt32)

def Use.isFeed : Use → Bool
  | feed _ => true
  | write _ _ | read _ | readInto _ | rename _ => false

/-- The session after a use. -/
def use (s : Session) : Use → Session
  | .feed ch => (s.feed ch).session
  | .write _ _ => s
  | .read n => (s.read n).2
  | .readInto buffer => (s.readInto buffer).2.2
  | .rename id => { s with id }

/-- The result of a use, if it is a feed. -/
def result? (s : Session) : Use → Option Result
  | .feed ch => some (s.feed ch).result
  | .write _ _ | .read _ | .readInto _ | .rename _ => none

def useAll (s : Session) (uses : List Use) : Session :=
  uses.foldl use s

/-- The results of the feeds. -/
def results (s : Session) : List Use → List Result
  | [] => []
  | u :: uses => (s.result? u).toList ++ (s.use u).results uses

def isError : Result → Bool
  | .ok _ => false
  | .error _ => true

theorem coherent_fresh (id : UInt32) : Coherent { id } where
  opening := fun _ => ⟨rfl, rfl⟩
  accepted := by simp
  closed_iff := by simp
  failed := fun _ => rfl

theorem status_use {s : Session} {u : Use} (h : u.isFeed = false) :
    (s.use u).status = s.status := by
  cases u with
  | feed ch => cases h
  | write ch payload | read n | readInto buffer | rename id => rfl

private theorem available_read (s : Session) (n : Nat) (h : s.available = 0) :
    (s.read n).2.available = 0 := by
  have hsize : s.received.size = 0 := h
  simp [read, available, ByteQueue.read, hsize]

theorem Coherent.use {s : Session} (hs : s.Coherent) (u : Use) : (s.use u).Coherent := by
  cases u with
  | feed ch => exact (hs.leaves_feed ch).coherent hs
  | write ch payload => exact hs
  | read n =>
    refine ⟨?_, hs.accepted, hs.closed_iff, hs.failed⟩
    intro h
    obtain ⟨hreader, hdata⟩ := hs.opening h
    exact ⟨hreader, available_read s n hdata⟩
  | readInto buffer =>
    refine ⟨?_, hs.accepted, hs.closed_iff, hs.failed⟩
    intro h
    obtain ⟨hreader, hdata⟩ := hs.opening h
    exact ⟨hreader, available_read s buffer.length hdata⟩
  | rename id => exact ⟨hs.opening, hs.accepted, hs.closed_iff, hs.failed⟩

theorem Coherent.useAll {s : Session} (hs : s.Coherent) (uses : List Use) :
    (s.useAll uses).Coherent := by
  induction uses generalizing s with
  | nil => exact hs
  | cons u uses ih => exact ih (hs.use u)

theorem Coherent.run {c : Conversation} (h : c.session.Coherent) (ops : List Operation) :
    (c.run ops).session.Coherent := by
  induction ops generalizing c with
  | nil => exact h
  | cons op ops ih =>
    rw [Conversation.run_cons]
    apply ih
    cases op with
    | arrive bytes | write payload hlen | collect => exact h
    | feed => exact h.use (.feed c.channel)
    | read n => exact h.use (.read n)
    | readInto buffer => exact h.use (.readInto buffer)
    | rename id => exact h.use (.rename id)

private theorem countP_results_of_final {s : Session} (h : s.status.isFinal = true)
    (uses : List Use) : (s.results uses).countP isError = 0 := by
  induction uses generalizing s with
  | nil => rfl
  | cons u uses ih =>
    cases u with
    | feed ch =>
      rw [results, Session.use, result?, feed_of_final h]
      simpa [isError] using ih h
    | write ch payload | read n | readInto buffer | rename id => exact ih h

/-- A feed that fails is the last one that does anything. -/
theorem Coherent.countP_results_le {s : Session} (hs : s.Coherent) (uses : List Use) :
    (s.results uses).countP isError ≤ 1 := by
  induction uses generalizing s with
  | nil => exact Nat.zero_le 1
  | cons u uses ih =>
    cases u with
    | feed ch =>
      have hleaves := hs.leaves_feed ch
      rw [results, Session.use, result?, Option.toList_some, List.singleton_append]
      rw [List.countP_cons]
      cases hresult : (s.feed ch).result with
      | ok status =>
        have hrest : ((s.feed ch).session.results uses).countP isError ≤ 1 := ih (hs.use (.feed ch))
        simpa [isError] using hrest
      | error error =>
        have hfailed := (hleaves.error_iff.mp ⟨error, hresult⟩).2
        have hfinal : (s.feed ch).session.status.isFinal = true := by
          rw [hfailed]
          rfl
        rw [countP_results_of_final hfinal]
        exact Nat.le_refl 1
    | write ch payload | read n | readInto buffer | rename id => exact ih (hs.use _)

/-- Whatever a session is used for and on whatever channels, its parts tell the same story. Only a
feed moves its status, and only along the transitions; its result says where it left the session,
and it is an error exactly when the session has failed by it, which is once at most. A session that
is closed or has failed does nothing with its channel, changes nothing and has nothing to say. -/
theorem lifecycle (id : UInt32) (uses : List Use) :
    let s := useAll { id } uses
    s.Coherent ∧
      (∀ u : Use, u.isFeed = false → (s.use u).status = s.status) ∧
      (∀ ch, let fed := s.feed ch
        Relation.ReflTransGen Status.Move s.status fed.session.status ∧
          (∀ status, fed.result = .ok status → fed.session.status = status) ∧
          ((∃ error, fed.result = .error error) ↔
            s.status.isFinal = false ∧ fed.session.status = .failed)) ∧
      (results { id } uses).countP isError ≤ 1 ∧
      (s.status.isFinal = true → ∀ ch,
        s.feed ch =
            { session := s, channel := ch, result := .ok s.status, records := #[], calls := #[] } ∧
          ∀ payload, (s.write ch payload).channel = ch ∧ (s.write ch payload).calls = #[]) := by
  have hcoherent := (coherent_fresh id).useAll uses
  refine ⟨hcoherent, fun u hu => status_use hu, ?_, (coherent_fresh id).countP_results_le uses, ?_⟩
  · intro ch
    have hleaves := hcoherent.leaves_feed ch
    refine ⟨hleaves.moves, ?_, hleaves.error_iff⟩
    intro status hok
    rw [hok] at hleaves
    exact hleaves.status_of_ok
  · intro hfinal ch
    refine ⟨feed_of_final hfinal ch, ?_⟩
    intro payload
    have hnot : (useAll { id } uses).status ≠ .established := by
      intro hestablished
      rw [hestablished] at hfinal
      cases hfinal
    rw [write, if_neg hnot]
    exact ⟨rfl, rfl⟩

end Session

end WebSocket
