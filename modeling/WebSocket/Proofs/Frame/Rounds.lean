import WebSocket.Frame.Registers
import WebSocket.Proofs.Frame.Decoding
import WebSocket.Proofs.Frame.Starvation

/-!
# Decoding in rounds

A decoder is called again and again: bytes arrive, the limits of the channel change, a fault may
have come before. A reading keeps account of the bytes that were taken and of what was done with
them, and begins a new account after a fault. It is always settled (`settled_run`): what was done is
what the bytes of the account call for, and nothing is left over of them. A decoder that waits has
therefore finished all the frames whose bytes it has taken (`decode_until_starved`).
-/

namespace WebSocket

/-- A decoder with states `σ` takes what it can from a channel. -/
abbrev Decoder (σ : Type) := σ → Channel → σ × Work

def FrameReader.decoder : Decoder FrameReader := fun r ch =>
  let p := r.decode ch
  (p.reader,
    { channel := p.channel, verdict := p.verdict, delivered := p.delivered, trace := p.trace })

/-- What comes before a call: bytes arrive and limits are set. A read that may give bytes gives
some. -/
structure Round where
  arriving : List UInt8 := []
  window : Option Nat := none
  maxRead : Option Nat := none
  gives : maxRead ≠ some 0 := by decide

def Round.prepare (round : Round) (ch : Channel) : Channel :=
  { ch.receive round.arriving with window := round.window, maxRead := round.maxRead }

/-- The calls of a decoder, one in each round. -/
def trail {σ : Type} (decode : Decoder σ) (s : σ) (ch : Channel) : List Round → List (σ × Work)
  | [] => []
  | round :: rounds =>
    let call := decode s (round.prepare ch)
    call :: trail decode call.1 call.2.channel rounds

/-- Where the calls of a decoder have led, and what they did since the first one or the last
fault. -/
structure Reading (σ : Type) where
  reader : σ
  channel : Channel := {}
  /-- The last one. -/
  verdict : FrameReader.Verdict := .pending
  /-- The bytes that were taken. -/
  stream : List UInt8 := []
  effect : Effect := {}

namespace Reading

variable {σ τ : Type}

/-- What comes after a fault is a stream of its own. -/
def account (x : Reading σ) : Reading σ :=
  match x.verdict with
  | .fault _ => { x with verdict := .pending, stream := [], effect := {} }
  | .pending | .closed => x

/-- One more call. -/
def next (decode : Decoder σ) (x : Reading σ) (round : Round) : Reading σ :=
  let ch := round.prepare x.channel
  let (reader, work) := decode x.reader ch
  { reader
    channel := work.channel
    verdict := work.verdict
    stream := x.account.stream ++ ch.inbox.bytes.take (ch.inbox.size - work.channel.inbox.size)
    effect :=
      x.account.effect ++
        { data := work.delivered.toList.flatten
          output := work.channel.outgoing.toList.drop ch.outgoing.size
          notices := work.trace.notices.toList } }

def run (decode : Decoder σ) (x : Reading σ) (rounds : List Round) : Reading σ :=
  rounds.foldl (next decode) x

/-- With the reader at `r`, all that the bytes of the account call for has been done. -/
def Settled (x : Reading σ) (r : FrameReader) : Prop :=
  FrameReader.header.outcome x.stream =
    { state := r, unread := [], verdict := x.verdict, effect := x.effect }

end Reading

namespace FrameReader

/-! ## How a stream ends -/

/-- The two bytes of a header that is refused. -/
inductive Refused : UInt8 → UInt8 → FrameError → Prop where
  | unknown {first : UInt8} (h : Opcode.ofByte? first = none) (second : UInt8) :
      Refused first second (.unknownOpcode (first.toNat % 16))
  | unmasked {first second : UInt8} {opcode : Opcode} (h : Opcode.ofByte? first = some opcode)
      (hclose : opcode ≠ .close) (hmask : second.toNat < 128) : Refused first second .unmasked

variable {tail : List UInt8} {o : Outcome FrameReader Verdict}

theorem Ends.output_of_pending (h : Ends tail o) (hverdict : o.verdict = .pending) :
    o.effect.output = [] := by
  cases h with
  | short _ => rfl
  | inside _ _ _ => exact (ClientFrame.reached_pending _ _).2
  | close _ _ _ => cases hverdict
  | unknown _ _ _ => cases hverdict
  | unmasked _ _ _ _ => cases hverdict

theorem Ends.state_of_closed (h : Ends tail o) (hverdict : o.verdict = .closed) :
    o.state = closed := by
  cases h with
  | short _ => cases hverdict
  | inside _ _ _ =>
    rw [(ClientFrame.reached_pending _ _).1] at hverdict
    cases hverdict
  | close _ _ _ => rfl
  | unknown _ _ _ => cases hverdict
  | unmasked _ _ _ _ => cases hverdict

/-- A fault leaves a reader between two frames, just behind the header that was refused. -/
theorem Ends.of_fault {error : FrameError} (h : Ends tail o) (hverdict : o.verdict = .fault error) :
    o.state = header ∧ o.effect.data = [] ∧ o.effect.output = [] ∧
      ∃ first second, Refused first second error ∧ tail = first :: second :: o.unread := by
  cases h with
  | short _ => cases hverdict
  | inside _ _ _ =>
    rw [(ClientFrame.reached_pending _ _).1] at hverdict
    cases hverdict
  | close _ _ _ => cases hverdict
  | unknown hop second rest =>
    cases hverdict
    exact ⟨rfl, rfl, rfl, _, _, .unknown (Opcode.ofByte?_eq_none_iff.mpr hop) second, rfl⟩
  | unmasked hop hclose hmask rest =>
    cases hverdict
    exact ⟨rfl, rfl, rfl, _, _, .unmasked (Opcode.ofByte?_eq_some_iff.mpr hop) hclose hmask, rfl⟩

end FrameReader

/-! ## Decoders that agree -/

section

variable {σ τ : Type} {R : σ → τ → Prop} {d : Decoder σ} {d' : Decoder τ}

/-- From related states both decoders do the same work, and come to related states. -/
def Agree (R : σ → τ → Prop) (d : Decoder σ) (d' : Decoder τ) : Prop :=
  ∀ {s : σ} {t : τ}, R s t → ∀ ch, R (d s ch).1 (d' t ch).1 ∧ (d s ch).2 = (d' t ch).2

theorem Agree.map_trail (h : Agree R d d') {α : Type} {f : σ × Work → α} {g : τ × Work → α}
    (hview : ∀ {s t}, R s t → ∀ work, f (s, work) = g (t, work)) {s : σ} {t : τ} (hst : R s t)
    (ch : Channel) (rounds : List Round) :
    (trail d s ch rounds).map f = (trail d' t ch rounds).map g := by
  induction rounds generalizing s t ch with
  | nil => rfl
  | cons round rounds ih =>
    obtain ⟨hnext, hwork⟩ := h hst (round.prepare ch)
    have hfirst : f (d s (round.prepare ch)) = g (d' t (round.prepare ch)) := by
      have hcall : (d' t (round.prepare ch)) =
          ((d' t (round.prepare ch)).1, (d s (round.prepare ch)).2) := Prod.ext rfl hwork.symm
      rw [hcall]
      exact hview hnext _
    simp only [trail, List.map_cons, hfirst, hwork, ih hnext]

/-- Two accounts agree, and the states are related. -/
structure Reading.Like (R : σ → τ → Prop) (x : Reading σ) (y : Reading τ) : Prop where
  reader : R x.reader y.reader
  channel : x.channel = y.channel
  verdict : x.verdict = y.verdict
  stream : x.stream = y.stream
  effect : x.effect = y.effect

theorem Agree.next (h : Agree R d d') {x : Reading σ} {y : Reading τ} (hxy : x.Like R y)
    (round : Round) : (x.next d round).Like R (y.next d' round) := by
  obtain ⟨hnext, hwork⟩ := h hxy.reader (round.prepare y.channel)
  have haccount : x.account.stream = y.account.stream ∧ x.account.effect = y.account.effect := by
    unfold Reading.account
    rw [hxy.verdict]
    cases y.verdict with
    | pending | closed => exact ⟨hxy.stream, hxy.effect⟩
    | fault error => exact ⟨rfl, rfl⟩
  unfold Reading.next
  rw [hxy.channel, haccount.1, haccount.2]
  dsimp only
  rw [hwork]
  exact ⟨hnext, rfl, rfl, rfl, rfl⟩

theorem Agree.run (h : Agree R d d') (rounds : List Round) {x : Reading σ} {y : Reading τ}
    (hxy : x.Like R y) : (x.run d rounds).Like R (y.run d' rounds) := by
  induction rounds generalizing x y with
  | nil => exact hxy
  | cons round rounds ih => exact ih (h.next hxy round)

end

/-! ## Accounts are settled -/

namespace Reading

open FrameReader

variable {σ : Type} {x : Reading σ} {r : FrameReader}

/-- The bytes of a settled account are whole frames and a tail. -/
theorem Settled.exists_divides (h : x.Settled r) :
    ∃ frames tail ending, Divides x.stream frames tail ending ∧ ending.unread = [] ∧
      ending.state = r ∧ ending.verdict = x.verdict ∧
      x.effect = ClientFrame.effect frames ++ ending.effect := by
  obtain ⟨ending, hdivides⟩ := FrameReader.exists_divides x.stream
  have houtcome : ending.after (ClientFrame.effect _) = _ := hdivides.outcome.symm.trans h
  refine ⟨_, _, ending, hdivides, ?_, ?_, ?_, ?_⟩
  · exact congrArg Outcome.unread houtcome
  · exact congrArg Outcome.state houtcome
  · exact congrArg Outcome.verdict houtcome
  · exact (congrArg Outcome.effect houtcome).symm

theorem settled_nil (ch : Channel) : Settled { reader := header, channel := ch } header := by
  show header.outcome [] = header.waiting []
  exact outcome_header_of_lt (by decide)

theorem Settled.account (h : x.Settled r) : x.account.Settled r := by
  cases hverdict : x.verdict with
  | pending | closed => simpa only [Reading.account, hverdict] using h
  | fault error =>
    obtain ⟨_, _, ending, hdivides, _, hstate, hfault, _⟩ := h.exists_divides
    have hheader := (hdivides.ends.of_fault (hfault.trans hverdict)).1
    rw [← hstate, hheader]
    simp only [Settled, Reading.account, hverdict]
    exact outcome_header_of_lt (by decide)

theorem verdict_account (x : Reading σ) (error : FrameError) : x.account.verdict ≠ .fault error := by
  cases hverdict : x.verdict <;> simp [account, hverdict]

/-- Unless it was a fault, the next bytes are taken up where the last ones ended. -/
theorem Settled.outcome_append (h : x.Settled r) (hverdict : ∀ error, x.verdict ≠ .fault error)
    (more : List UInt8) :
    header.outcome (x.stream ++ more) = (r.outcome more).after x.effect := by
  cases hv : x.verdict with
  | pending =>
    have hpending : (header.outcome x.stream).verdict = .pending := by rw [h, hv]
    rw [resumable.resume hpending, h, List.nil_append]
  | closed =>
    have hclosed : (header.outcome x.stream).verdict ≠ .pending := by
      rw [h, hv]
      show Verdict.closed ≠ .pending
      decide
    obtain ⟨_, _, ending, hdivides, _, hstate, hending, _⟩ := h.exists_divides
    have hr : r = FrameReader.closed := by
      rw [← hstate]
      exact hdivides.ends.state_of_closed (hending.trans hv)
    rw [resumable.stop hclosed, h, hv, hr, outcome_closed]
    simp [Outcome.leaving, Outcome.after]
  | fault error => exact absurd hv (hverdict error)

theorem settled_next {x : Reading FrameReader} (h : x.Settled x.reader) (round : Round) :
    (x.next decoder round).Settled (x.next decoder round).reader := by
  obtain ⟨taken, e, huses⟩ := x.reader.exists_uses_decode (round.prepare x.channel)
  have hstream : (x.next decoder round).stream = x.account.stream ++ taken := by
    have hbytes : (round.prepare x.channel).inbox.bytes =
        taken ++ (x.reader.decode (round.prepare x.channel)).channel.inbox.bytes := huses.bytes
    simp only [next, decoder, Inbox.size_eq, hbytes, List.length_append, Nat.add_sub_cancel]
    rw [List.take_left]
  have heffect : (x.next decoder round).effect = x.account.effect ++ e := by
    have hdata : (x.reader.decode (round.prepare x.channel)).delivered.toList.flatten = e.data :=
      huses.data
    have houtput : (x.reader.decode (round.prepare x.channel)).channel.outgoing =
        (round.prepare x.channel).outgoing ++ e.output := huses.output
    have hnotices : (x.reader.decode (round.prepare x.channel)).trace.notices.toList = e.notices :=
      huses.notices
    simp only [next, decoder, hdata, houtput, hnotices]
    simp
  rw [Settled, hstream, h.account.outcome_append x.verdict_account, huses.last _ rfl, heffect]
  rfl

theorem Like.settled {R : σ → FrameReader → Prop} {y : Reading FrameReader} (h : x.Like R y)
    (hsettled : y.Settled r) : x.Settled r := by
  unfold Settled at hsettled ⊢
  rw [h.stream, h.verdict, h.effect]
  exact hsettled

theorem settled_run (rounds : List Round) {x : Reading FrameReader} (h : x.Settled x.reader) :
    (x.run decoder rounds).Settled (x.run decoder rounds).reader := by
  induction rounds generalizing x with
  | nil => exact h
  | cons round rounds ih => exact ih (settled_next h round)

end Reading

namespace FrameReader

/-- A run ends, after at most two steps for each byte and two more. When it waits, so little is to
be seen that no step can be taken: to decode again is to do nothing. And after any calls, the bytes
that were taken are whole frames, each with its pong sent if it was a ping, and the beginning of
another frame, as far as it has come. -/
theorem decode_until_starved :
    (∀ (r : FrameReader) (ch : Channel), ch.maxRead ≠ some 0 →
      let progress := r.decode ch
      attempt (2 * ch.inbox.size + 2) r ch = some progress ∧
        (progress.verdict = .pending →
          progress.reader.Starved progress.channel.available ∧
            progress.channel.SameLimits ch ∧
            progress.reader.decode progress.channel =
              { progress with delivered := #[], trace := {} })) ∧
      ∀ rounds : List Round,
        let past := Reading.run decoder { reader := header } rounds
        past.verdict = .pending →
          ∃ frames tail ending, Divides past.stream frames tail ending ∧
            ending.unread = [] ∧ past.reader = ending.state ∧
            past.effect = ClientFrame.effect frames ++ ending.effect ∧
            past.effect.output = (frames.flatMap ClientFrame.replies).flatMap ServerFrame.bytes := by
  constructor
  · intro r ch hm
    refine ⟨attempt_of_weight_lt (r.weight_lt ch), ?_⟩
    intro hpending
    have hwaits := waits_of_decode hm hpending
    refine ⟨hwaits.2, r.sameLimits_decode ch, ?_⟩
    rw [hwaits.decode, hpending]
  · intro rounds past hpending
    have hsettled : past.Settled past.reader := Reading.settled_run rounds (Reading.settled_nil {})
    obtain ⟨frames, tail, ending, hdivides, hunread, hstate, hverdict, heffect⟩ :=
      hsettled.exists_divides
    have hsilent := hdivides.ends.output_of_pending (hverdict.trans hpending)
    refine ⟨frames, tail, ending, hdivides, hunread, hstate.symm, heffect, ?_⟩
    rw [heffect, Effect.output_append, hsilent, List.append_nil]
    rfl

/-- A ping without payload, and the first byte of what comes next. -/
theorem decode_until_starved_ping :
    let ch := Channel.holding [0x89, 0x80, 1, 2, 3, 4, 0x82]
    let progress := header.decode ch
    let rounds : List Round :=
      [{ arriving := [0x89, 0x80, 1, 2] }, { arriving := [3, 4, 0x82], maxRead := some 1 }]
    let past := Reading.run decoder { reader := header } rounds
    ch.maxRead ≠ some 0 ∧ progress.verdict = .pending ∧
      progress.reader.Starved progress.channel.available ∧
      past.verdict = .pending ∧ past.reader = header ∧ past.stream = [0x89, 0x80, 1, 2, 3, 4] ∧
      past.effect.output = [0x8A, 0x00] ∧
      ∃ frames : List ClientFrame,
        [0x8A, 0x00] = (frames.flatMap ClientFrame.replies).flatMap ServerFrame.bytes := by
  have hprogress : (header.decode (.holding [0x89, 0x80, 1, 2, 3, 4, 0x82])).verdict = .pending := by
    decide +kernel
  have hpast : (Reading.run decoder { reader := header }
      [{ arriving := [0x89, 0x80, 1, 2] }, { arriving := [3, 4, 0x82], maxRead := some 1 }]).verdict =
      .pending := by
    decide +kernel
  have hpong : (Reading.run decoder { reader := header }
      [{ arriving := [0x89, 0x80, 1, 2] },
        { arriving := [3, 4, 0x82], maxRead := some 1 }]).effect.output = [0x8A, 0x00] := by
    decide +kernel
  obtain ⟨frames, _, _, _, _, _, _, houtput⟩ := decode_until_starved.2 _ hpast
  refine ⟨by decide, hprogress, ?_, hpast, by decide +kernel, by decide +kernel, hpong, frames, ?_⟩
  · exact ((decode_until_starved.1 header _ (by decide)).2 hprogress).1
  · rw [← houtput]
    exact hpong.symm

end FrameReader

end WebSocket
