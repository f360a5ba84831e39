import WebSocket.Proofs.Session.Run
import WebSocket.Proofs.Session.Stream

/-!
# All that a session sends

Three sources write to one channel: the handshake, the replies to control frames, and the
application. What comes out is the response and behind it whole frames, in the order of the events
that caused them. A ledger lists these frames from the operations alone and the status in which each
was made; `Accounts` is the invariant that ties it to the session.
-/

namespace WebSocket.Session

/-! ## The ledger -/

structure Ledger where
  /-- All that has been fed. -/
  fed : List UInt8 := []
  /-- What has arrived since the last feed. -/
  waiting : List UInt8 := []
  frames : List ServerFrame := []

/-- A feed is followed by the replies that it makes due, and data is sent only while the session is
established. -/
def Ledger.enter (l : Ledger) (status : Status) : Operation → Ledger
  | .arrive bytes => { l with waiting := l.waiting ++ bytes }
  | .feed =>
    { fed := l.fed ++ l.waiting
      frames := l.frames ++ (replies (l.fed ++ l.waiting)).drop (replies l.fed).length }
  | .write payload _ =>
    if status = .established then { l with frames := l.frames ++ [.binary payload] } else l
  | .read _ | .readInto _ | .collect | .rename _ => l

/-- The ledger of a run. -/
def Conversation.ledger (c : Conversation) (l : Ledger) : List Operation → Ledger
  | [] => l
  | op :: ops => (c.step op).ledger (l.enter c.session.status op) ops

/-- The ledger tells all about a conversation that its output depends on. -/
structure Accounts (c : Conversation) (l : Ledger) : Prop where
  valid : c.session.received.Valid
  core : c.session.core = (Core.outcome {} l.fed).state ∨ c.session.core = {} ∧ l.fed = []
  channel : c.channel =
    .holding ((Core.outcome {} l.fed).unread ++ l.waiting) c.channel.outgoing
  written : c.written = spoken l.fed l.frames
  silent : opening? l.fed = none → l.frames = []
  last : ∃ others, .close ∉ others ∧ l.frames = others ++ farewell c.session.status
  fits : ∀ f ∈ l.frames, f.payload.length < 2 ^ 64

private theorem Core.outcome_nil :
    outcome {} [] =
      { state := { status := .handshaking }, unread := [], verdict := .ok .handshaking } := by
  have hwait := Negotiation.outcome_tail (List.not_mem_nil (a := Ascii.newline)) {}
  simp only [outcome, negotiate, hwait]
  rfl

private theorem Accounts.feed_core {c : Conversation} {l : Ledger} (h : Accounts c l) :
    let now := c.session.core.outcome ((Core.outcome {} l.fed).unread ++ l.waiting)
    let whole := Core.outcome {} (l.fed ++ l.waiting)
    now.state = whole.state ∧ now.unread = whole.unread ∧
      whole.effect.output = (Core.outcome {} l.fed).effect.output ++ now.effect.output := by
  dsimp only
  rcases h.core with hcore | ⟨hcore, hfed⟩
  · obtain ⟨hstate, hunread, heffect⟩ := Core.outcome_append {} l.fed l.waiting
    rw [hcore]
    exact ⟨hstate.symm, hunread.symm, congrArg Effect.output heffect⟩
  · rw [hcore, hfed, Core.outcome_nil]
    exact ⟨rfl, rfl, rfl⟩

private theorem exists_of_append_eq {a b rest : List ServerFrame} {status : Status}
    (h : a ++ rest = b ++ farewell status) (ha : .close ∉ a) (hb : .close ∉ b) :
    ∃ pongs, .close ∉ pongs ∧ rest = pongs ++ farewell status := by
  rcases List.append_eq_append_iff.mp h with ⟨pongs, rfl, hrest⟩ | ⟨extra, rfl, hrest⟩
  · exact ⟨pongs, fun hmem => hb (List.mem_append_right _ hmem), hrest⟩
  · have hextra : .close ∉ extra := fun hmem => ha (List.mem_append_right _ hmem)
    refine ⟨[], List.not_mem_nil, ?_⟩
    rw [List.nil_append]
    by_cases hclosed : status = .closed
    · rw [farewell, if_pos hclosed] at hrest ⊢
      rcases List.append_eq_cons_iff.mp hrest.symm with ⟨-, hrest⟩ | ⟨more, hcons, -⟩
      · exact hrest
      · exact absurd (hcons ▸ List.mem_cons_self) hextra
    · rw [farewell, if_neg hclosed] at hrest ⊢
      exact (List.append_eq_nil_iff.mp hrest.symm).2

private theorem exists_later (fed more : List UInt8) :
    ∃ later, replies (fed ++ more) = replies fed ++ later ∧
      ∃ pongs, .close ∉ pongs ∧
        farewell (Core.outcome {} fed).state.status ++ later =
          pongs ++ farewell (Core.outcome {} (fed ++ more)).state.status := by
  obtain ⟨later, hlater⟩ := replies_append fed more
  obtain ⟨before, hbefore, hfed⟩ := Core.replies_eq fed
  obtain ⟨after, hafter, hwhole⟩ := Core.replies_eq (fed ++ more)
  refine ⟨later, hlater, exists_of_append_eq (a := before) (b := after) ?_ hbefore hafter⟩
  rw [← List.append_assoc, ← hfed, ← hlater, hwhole]

private theorem Accounts.farewell_eq {c : Conversation} {l : Ledger} (h : Accounts c l) :
    farewell c.session.status = farewell (Core.outcome {} l.fed).state.status := by
  rcases h.core with hcore | ⟨hcore, hfed⟩
  · rw [← hcore]
    rfl
  · rw [hfed, Core.outcome_nil, show c.session.status = .idle from congrArg Core.status hcore]
    rfl

private theorem Accounts.feed {c : Conversation} {l : Ledger} (h : Accounts c l) :
    Accounts (c.step .feed) (l.enter c.session.status .feed) := by
  obtain ⟨hstate, hunread, houtput⟩ := h.feed_core
  obtain ⟨later, hlater, pongs, hpongs, hfarewell⟩ := exists_later l.fed l.waiting
  have hfeed := feed_holding h.valid ((Core.outcome {} l.fed).unread ++ l.waiting)
    c.channel.outgoing
  rw [← h.channel] at hfeed
  have hstatus : (c.session.feed c.channel).session.status =
      (Core.outcome {} (l.fed ++ l.waiting)).state.status :=
    congrArg Core.status (hfeed.core.trans hstate)
  have hnew : (replies (l.fed ++ l.waiting)).drop (replies l.fed).length = later := by
    rw [hlater, List.drop_left]
  have hwhole := (Core.outcome_fresh (l.fed ++ l.waiting)).1
  rw [houtput, (Core.outcome_fresh l.fed).1] at hwhole
  simp only [Conversation.step, Ledger.enter, hnew]
  refine ⟨hfeed.valid, .inl (hfeed.core.trans hstate), ?_, ?_, ?_, ?_, ?_⟩
  · rw [hfeed.channel, hunread, List.append_nil]
    rfl
  · rw [Conversation.written, hfeed.channel]
    simp only [Channel.outgoing_holding, Array.toList_appendList, ← List.append_assoc]
    rw [show c.collected ++ c.channel.outgoing.toList = spoken l.fed l.frames from h.written]
    exact spoken_append h.silent hlater hwhole.symm
  · intro hnone
    have hbefore : opening? l.fed = none := by
      cases hopening : opening? l.fed with
      | none => rfl
      | some found =>
        rw [opening?_append hopening] at hnone
        cases hnone
    have hreplies : replies (l.fed ++ l.waiting) = [] := by simp [replies, hnone]
    rw [hreplies] at hlater
    rw [h.silent hbefore, (List.append_eq_nil_iff.mp hlater.symm).2]
    rfl
  · obtain ⟨others, hothers, hframes⟩ := h.last
    refine ⟨others ++ pongs, ?_, ?_⟩
    · rw [List.mem_append]
      exact not_or.mpr ⟨hothers, hpongs⟩
    · rw [hframes, h.farewell_eq, List.append_assoc, hfarewell, hstatus, List.append_assoc]
  · intro f hf
    rcases List.mem_append.mp hf with hf | hf
    · exact h.fits f hf
    · have hmem : f ∈ replies (l.fed ++ l.waiting) := by
        rw [hlater]
        exact List.mem_append_right _ hf
      exact length_lt_of_mem_replies hmem

private theorem Accounts.write {c : Conversation} {l : Ledger} (h : Accounts c l)
    {payload : List UInt8} (hlen : payload.length < 2 ^ 64) :
    Accounts (c.step (.write payload hlen)) (l.enter c.session.status (.write payload hlen)) := by
  by_cases hstatus : c.session.status = .established
  · have hopening : opening? l.fed ≠ none := by
      apply (Core.outcome_fresh l.fed).2.2
      rcases h.core with hcore | ⟨hcore, -⟩
      · rw [← hcore]
        exact hstatus
      · rw [show c.session.status = .idle from congrArg Core.status hcore] at hstatus
        cases hstatus
    obtain ⟨⟨key, stream⟩, hsome⟩ := Option.ne_none_iff_exists'.mp hopening
    simp only [Conversation.step, Session.write, Ledger.enter, hstatus, if_true]
    refine ⟨h.valid, h.core, ?_, ?_, fun hnone => absurd hnone hopening, ?_, ?_⟩
    · rw [h.channel]
      rfl
    · have hwritten := h.written
      simp only [Conversation.written, spoken, hsome, Channel.toList_outgoing_write,
        List.flatMap_append, List.flatMap_singleton, ServerFrame.bytes_eq_encode (.binary payload),
        ← List.append_assoc] at hwritten ⊢
      rw [hwritten]
    · obtain ⟨others, hothers, hframes⟩ := h.last
      rw [farewell, if_neg (by rw [hstatus]; decide), List.append_nil] at hframes
      refine ⟨others ++ [.binary payload], ?_, ?_⟩
      · simpa using hothers
      · rw [hframes, farewell, if_neg (by rw [hstatus]; decide), List.append_nil]
    · intro f hf
      rcases List.mem_append.mp hf with hf | hf
      · exact h.fits f hf
      · rw [List.mem_singleton.mp hf]
        exact hlen
  · simp only [Conversation.step, Session.write, Ledger.enter, if_neg hstatus]
    exact ⟨h.valid, h.core, h.channel, h.written, h.silent, h.last, h.fits⟩

theorem Accounts.step {c : Conversation} {l : Ledger} (h : Accounts c l) (op : Operation) :
    Accounts (c.step op) (l.enter c.session.status op) := by
  cases op with
  | feed => exact h.feed
  | write payload hlen => exact h.write hlen
  | arrive bytes =>
    refine ⟨h.valid, h.core, ?_, h.written, h.silent, h.last, h.fits⟩
    simp only [Conversation.step, Ledger.enter]
    rw [h.channel, Channel.receive_holding, List.append_assoc]
    rfl
  | read n =>
    exact ⟨h.valid.read_snd n, h.core, h.channel, h.written, h.silent, h.last, h.fits⟩
  | readInto buffer =>
    exact ⟨h.valid.read_snd buffer.length, h.core, h.channel, h.written, h.silent, h.last, h.fits⟩
  | collect =>
    refine ⟨h.valid, h.core, ?_, ?_, h.silent, h.last, h.fits⟩
    · simp only [Conversation.step, Channel.collect, Ledger.enter]
      rw [h.channel]
      rfl
    · refine Eq.trans ?_ h.written
      simp [Conversation.step, Conversation.written, Channel.collect]
  | rename id => exact ⟨h.valid, h.core, h.channel, h.written, h.silent, h.last, h.fits⟩

theorem Accounts.run {c : Conversation} {l : Ledger} (h : Accounts c l) (ops : List Operation) :
    Accounts (c.run ops) (c.ledger l ops) := by
  induction ops generalizing c l with
  | nil => exact h
  | cons op ops ih => exact ih (h.step op)

theorem accounts_fresh (id : UInt32) : Accounts { session := { id } } {} where
  valid := ByteQueue.valid_empty
  core := .inr ⟨rfl, rfl⟩
  channel := by
    rw [Core.outcome_nil]
    rfl
  written := by
    rw [spoken, opening?_nil]
    rfl
  silent _ := rfl
  last := ⟨[], List.not_mem_nil, rfl⟩
  fits := by simp

/-- Before the request is complete nothing is sent, and then the response with the accept key of the
first key, followed by the frames of the ledger and by nothing else. They can be read back, for each
is written whole. A close frame is the last of them if the session is closed, and there is none
otherwise; a session that is closed or has failed sends no more. -/
theorem written_eq_frames (id : UInt32) (ops : List Operation) :
    let start : Conversation := { session := { id } }
    let c := start.run ops
    let l := start.ledger {} ops
    ((¬ ∃ key stream, Opens l.fed key stream) → c.written = []) ∧
      (∀ key stream, Opens l.fed key stream →
        let response := (Response.text (acceptKey key)).toUTF8.data.toList
        c.written = response ++ l.frames.flatMap ServerFrame.bytes ∧
          WireFrame.grammar.split (c.written.drop response.length) =
            (l.frames.map ServerFrame.wire, [])) ∧
      (∃ others, .close ∉ others ∧ l.frames = others ++ farewell c.session.status) ∧
      (c.session.status.isFinal = true → ∀ more, (c.run more).written = c.written) := by
  have h := (accounts_fresh id).run ops
  refine ⟨?_, ?_, h.last, Conversation.written_run_of_final⟩
  · intro hnone
    rw [h.written, spoken]
    split
    · rfl
    · rename_i key stream hopening
      exact absurd ⟨key, stream, opening?_eq_some_iff.mp hopening⟩ hnone
  · intro key stream hopens
    have hwritten := h.written
    rw [spoken, opening?_of_opens hopens] at hwritten
    refine ⟨hwritten, ?_⟩
    rw [hwritten, List.drop_left]
    exact ServerFrame.split_bytes h.fits

end WebSocket.Session
