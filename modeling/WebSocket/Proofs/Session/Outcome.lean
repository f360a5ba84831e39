import WebSocket.Proofs.Frame.Resumption
import WebSocket.Proofs.Handshake.Outcome
import WebSocket.Session

/-!
# What feeding comes to

Of a session, only its core bears on what is made of the bytes that arrive: not its name, not the
data that waits for the application, and not what was sent before (`feed_holding`). The outcome for
a core is put together from that of the negotiation and that of the reader, and inherits from them
that the bytes may come in any parts.
-/

namespace WebSocket

theorem Status.eq_of_isFinal {status : Status} (h : status.isFinal = true) :
    status = .closed ∨ status = .failed := by
  cases status with
  | idle | handshaking | established => cases h
  | closed => exact .inl rfl
  | failed => exact .inr rfl

namespace Session

abbrev Result := Except SessionError Status

/-- The part of a session that what arrives depends on. -/
@[ext]
structure Core where
  status : Status := .idle
  negotiation : Negotiation := {}
  reader : FrameReader := .header
deriving DecidableEq, Repr

def core (s : Session) : Core where
  status := s.status
  negotiation := s.negotiation
  reader := s.reader

namespace Core

def fail (c : Core) (error : SessionError) (unread : List UInt8) (e : Effect) :
    Outcome Core Result where
  state := { c with status := .failed }
  unread := unread
  verdict := .error error
  effect := e ++ { notices := [.sessionFailed error] }

/-- What a session makes of the outcome of reading. -/
def followReader (c : Core) (o : Outcome FrameReader FrameReader.Verdict) : Outcome Core Result :=
  let c := { c with reader := o.state }
  match o.verdict with
  | .pending =>
    { state := c, unread := o.unread, verdict := .ok c.status, effect := o.effect }
  | .closed =>
    { state := { c with status := .closed }, unread := o.unread, verdict := .ok .closed
      effect := o.effect ++ { notices := [.sessionClosed] } }
  | .fault error => c.fail (.frame error) o.unread o.effect

def readFrames (c : Core) (bytes : List UInt8) : Outcome Core Result :=
  c.followReader (c.reader.outcome bytes)

/-- What a session makes of the outcome of its negotiation. -/
def followNegotiation (c : Core) (o : Outcome Negotiation Negotiation.Verdict) :
    Outcome Core Result :=
  let c := { c with status := .handshaking, negotiation := o.state }
  match o.verdict with
  | .pending =>
    { state := c, unread := o.unread, verdict := .ok .handshaking, effect := o.effect }
  | .done =>
    (readFrames { c with status := .established } o.unread).after
      (o.effect ++ { notices := [.handshakeComplete] })
  | .fault error => c.fail (.handshake error) o.unread o.effect

def negotiate (c : Core) (bytes : List UInt8) : Outcome Core Result :=
  c.followNegotiation (c.negotiation.outcome bytes)

def outcome (c : Core) (bytes : List UInt8) : Outcome Core Result :=
  match c.status with
  | .idle | .handshaking => c.negotiate bytes
  | .established => c.readFrames bytes
  | .closed | .failed => { state := c, unread := bytes, verdict := .ok c.status }

/-- The status in which a feed of this result leaves a session. -/
def statusOf : Result → Status
  | .ok status => status
  | .error _ => .failed

/-- The session takes more of what arrives. -/
def Continues (r : Result) : Prop :=
  (statusOf r).isFinal = false

end Core

/-! ## The feed of a session -/

/-- Progress of a session that had sent `sent` before, as an outcome tells it. -/
structure Follows (s : Session) (sent : Array UInt8) (o : Outcome Core Result) (p : Progress) :
    Prop where
  core : p.session.core = o.state
  id : p.session.id = s.id
  valid : p.session.received.Valid
  received : p.session.received.toList = s.received.toList ++ o.effect.data
  channel : p.channel = .holding o.unread (sent ++ o.effect.output)
  result : p.result = o.verdict
  records : p.records.toList = o.effect.notices.map (Record.mk s.id)

private theorem follows_readFrames {s : Session} (h : s.received.Valid) (bytes : List UInt8)
    (sent : Array UInt8) (e : Effect) (before : Trace) (hdata : e.data = [])
    (hbefore : e.notices = before.notices.toList) :
    Follows s sent ((s.core.readFrames bytes).after e)
      (s.readFrames (.holding bytes (sent ++ e.output)) before) := by
  have hvalid := h.appendAll (s.reader.decode (.holding bytes)).delivered
  have hreceived : (s.received.appendAll (s.reader.decode (.holding bytes)).delivered).toList =
      s.received.toList ++ (s.core.reader.outcome bytes).effect.data := h.toList_appendAll _
  have hnotices : (s.core.reader.outcome bytes).effect.notices =
      (s.reader.decode (.holding bytes)).trace.notices.toList := rfl
  have hcore : s.core.reader = s.reader := rfl
  rw [Session.readFrames, FrameReader.decode_holding, Channel.holding_append]
  cases hverdict : (s.reader.decode (.holding bytes)).verdict with
  | pending =>
    have hout : (s.core.reader.outcome bytes).verdict = .pending := hverdict
    simp only [Core.readFrames, Core.followReader, hout]
    refine ⟨rfl, rfl, hvalid, ?_, rfl, rfl, ?_⟩
    · simpa [Outcome.after, hdata] using hreceived
    · simp [Outcome.after, record, hnotices, hbefore]
  | closed =>
    have hout : (s.core.reader.outcome bytes).verdict = .closed := hverdict
    simp only [Core.readFrames, Core.followReader, hout]
    refine ⟨rfl, rfl, hvalid, ?_, ?_, rfl, ?_⟩
    · simpa [Outcome.after, hdata] using hreceived
    · simp [Outcome.after, hcore]
    · simp [Outcome.after, record, hnotices, hbefore]
  | fault error =>
    have hout : (s.core.reader.outcome bytes).verdict = .fault error := hverdict
    simp only [Core.readFrames, Core.followReader, hout, Core.fail, Session.fail]
    refine ⟨rfl, rfl, hvalid, ?_, ?_, rfl, ?_⟩
    · simpa [Outcome.after, hdata] using hreceived
    · simp [Outcome.after, hcore]
    · simp [Outcome.after, record, hnotices, hbefore]

private theorem follows_negotiate {s : Session} (h : s.received.Valid) (bytes : List UInt8)
    (sent : Array UInt8) :
    Follows s sent (s.core.negotiate bytes) (s.negotiate (.holding bytes sent)) := by
  have hnotices : (s.core.negotiation.outcome bytes).effect.notices =
      (s.negotiation.advance (.holding bytes)).trace.notices.toList := rfl
  have hdata : (s.core.negotiation.outcome bytes).effect.data = [] := rfl
  rw [Session.negotiate, Negotiation.advance_holding]
  cases hverdict : (s.negotiation.outcome bytes).verdict with
  | pending =>
    have hout : (s.core.negotiation.outcome bytes).verdict = .pending := hverdict
    simp only [Core.negotiate, Core.followNegotiation, hout]
    refine ⟨rfl, rfl, h, ?_, rfl, rfl, ?_⟩
    · rw [hdata, List.append_nil]
    · simp [record, hnotices]
  | done =>
    have hout : (s.core.negotiation.outcome bytes).verdict = .done := hverdict
    simp only [Core.negotiate, Core.followNegotiation, hout]
    have houtput : ((s.negotiation.outcome bytes).effect ++
        { notices := [.handshakeComplete] }).output = (s.negotiation.outcome bytes).effect.output :=
      List.append_nil _
    obtain ⟨hcore, hid, hvalid, hreceived, hchannel, hresult, hrecords⟩ := follows_readFrames
      (s := { s with status := .established, negotiation := (s.negotiation.outcome bytes).state })
      h (s.negotiation.outcome bytes).unread sent
      ((s.negotiation.outcome bytes).effect ++ { notices := [.handshakeComplete] })
      ((s.negotiation.advance (.holding bytes)).trace ++ { notices := #[.handshakeComplete] })
      rfl (by simp [Negotiation.outcome])
    rw [houtput] at hcore hid hvalid hreceived hchannel hresult hrecords
    exact ⟨hcore, hid, hvalid, hreceived, hchannel, hresult, hrecords⟩
  | fault error =>
    have hout : (s.core.negotiation.outcome bytes).verdict = .fault error := hverdict
    simp only [Core.negotiate, Core.followNegotiation, hout, Core.fail, Session.fail]
    refine ⟨rfl, rfl, h, ?_, ?_, rfl, ?_⟩
    · simp [hdata]
    · simp [core]
    · simp [record, hnotices]

theorem feed_of_final {s : Session} (h : s.status.isFinal = true) (ch : Channel) :
    s.feed ch = { session := s, channel := ch, result := .ok s.status } := by
  rcases Status.eq_of_isFinal h with hstatus | hstatus
  · simp only [feed, hstatus]
  · simp only [feed, hstatus]

private theorem readFrames_after (s : Session) (ch : Channel) (sent : Array UInt8)
    (before : Trace) :
    s.readFrames (ch.after sent) before =
      { s.readFrames ch before with
        channel := (s.readFrames ch before).channel.after sent } := by
  simp only [Session.readFrames, FrameReader.decode_after]
  cases (s.reader.decode ch).verdict <;> rfl

/-- What was sent before does not bear on a feed, whatever the limits of the channel. -/
theorem feed_after (s : Session) (ch : Channel) (sent : Array UInt8) :
    s.feed (ch.after sent) = { s.feed ch with channel := (s.feed ch).channel.after sent } := by
  cases hstatus : s.status with
  | idle | handshaking =>
    simp only [feed, hstatus, Session.negotiate, Negotiation.advance_after]
    cases (s.negotiation.advance ch).verdict with
    | pending | fault error => rfl
    | done => exact readFrames_after _ _ _ _
  | established =>
    simp only [feed, hstatus]
    exact readFrames_after _ _ _ _
  | closed | failed => simp only [feed, hstatus]

/-- The feed of a session on a channel without limits. -/
theorem feed_holding {s : Session} (h : s.received.Valid) (bytes : List UInt8)
    (sent : Array UInt8) :
    Follows s sent (s.core.outcome bytes) (s.feed (.holding bytes sent)) := by
  cases hstatus : s.status with
  | idle | handshaking =>
    have hcore : s.core.status = s.status := rfl
    simp only [feed, Core.outcome, hcore, hstatus]
    exact follows_negotiate h bytes sent
  | established =>
    have hcore : s.core.status = s.status := rfl
    simp only [feed, Core.outcome, hcore, hstatus]
    have hfollows := follows_readFrames h bytes sent {} {} rfl rfl
    rwa [Outcome.after_empty, show sent ++ ({} : Effect).output = sent by simp] at hfollows
  | closed | failed =>
    have hcore : s.core.status = s.status := rfl
    simp only [feed, Core.outcome, hcore, hstatus]
    exact ⟨rfl, rfl, h, by simp, by simp, rfl, by simp⟩

/-! ## Feeding is resumable -/

namespace Core

theorem followReader_after (c : Core) (o : Outcome FrameReader FrameReader.Verdict) (e : Effect) :
    c.followReader (o.after e) = (c.followReader o).after e := by
  simp only [followReader, Outcome.after, fail]
  cases o.verdict <;> simp [Effect.append_assoc]

theorem followReader_leaving (c : Core) (o : Outcome FrameReader FrameReader.Verdict)
    (more : List UInt8) : c.followReader (o.leaving more) = (c.followReader o).leaving more := by
  simp only [followReader, Outcome.leaving, fail]
  cases o.verdict <;> rfl

private theorem readFrames_resume {c : Core} {bytes : List UInt8}
    (h : Continues (c.readFrames bytes).verdict) (more : List UInt8) :
    (c.readFrames bytes).state.status = c.status ∧
      c.readFrames (bytes ++ more) =
        ((c.readFrames bytes).state.readFrames ((c.readFrames bytes).unread ++ more)).after
          (c.readFrames bytes).effect := by
  cases hverdict : (c.reader.outcome bytes).verdict with
  | pending =>
    have hread : c.readFrames bytes =
        { state := { c with reader := (c.reader.outcome bytes).state }
          unread := (c.reader.outcome bytes).unread, verdict := .ok c.status
          effect := (c.reader.outcome bytes).effect } := by
      simp only [readFrames, followReader, hverdict]
    rw [hread]
    refine ⟨rfl, ?_⟩
    rw [readFrames, FrameReader.resumable.resume hverdict, followReader_after]
    rfl
  | closed =>
    simp only [readFrames, followReader, hverdict] at h
    cases h
  | fault error =>
    simp only [readFrames, followReader, hverdict] at h
    cases h

private theorem readFrames_stop {c : Core} {bytes : List UInt8} (hstatus : c.status.isFinal = false)
    (h : ¬ Continues (c.readFrames bytes).verdict) (more : List UInt8) :
    c.readFrames (bytes ++ more) = (c.readFrames bytes).leaving more := by
  have hverdict : (c.reader.outcome bytes).verdict ≠ .pending := by
    intro hpending
    simp only [readFrames, followReader, hpending] at h
    exact h hstatus
  rw [readFrames, FrameReader.resumable.stop hverdict, followReader_leaving]
  rfl

theorem followNegotiation_after (c : Core) (o : Outcome Negotiation Negotiation.Verdict)
    (e : Effect) : c.followNegotiation (o.after e) = (c.followNegotiation o).after e := by
  simp only [followNegotiation, Outcome.after, fail]
  cases o.verdict <;> simp [Effect.append_assoc]

theorem outcome_of_established {c : Core} (h : c.status = .established) (bytes : List UInt8) :
    c.outcome bytes = c.readFrames bytes := by
  simp only [outcome, h]

theorem outcome_of_final {c : Core} (h : c.status.isFinal = true) (bytes : List UInt8) :
    c.outcome bytes = { state := c, unread := bytes, verdict := .ok c.status } := by
  rcases Status.eq_of_isFinal h with hstatus | hstatus
  · simp only [outcome, hstatus]
  · simp only [outcome, hstatus]

private theorem negotiate_resume {c : Core} {bytes : List UInt8}
    (h : Continues (c.negotiate bytes).verdict) (more : List UInt8) :
    c.negotiate (bytes ++ more) =
      ((c.negotiate bytes).state.outcome ((c.negotiate bytes).unread ++ more)).after
        (c.negotiate bytes).effect := by
  cases hverdict : (c.negotiation.outcome bytes).verdict with
  | pending =>
    rw [negotiate, Negotiation.resumable.resume hverdict, followNegotiation_after]
    simp only [negotiate, followNegotiation, hverdict]
    rfl
  | done =>
    have hstop : (c.negotiation.outcome bytes).verdict ≠ .pending := by simp [hverdict]
    simp only [negotiate, followNegotiation, hverdict] at h
    obtain ⟨hestablished, hresume⟩ := readFrames_resume h more
    rw [negotiate, Negotiation.resumable.stop hstop]
    simp only [negotiate, followNegotiation, Outcome.leaving, hverdict, hresume]
    rw [Outcome.after_after]
    exact congrArg (Outcome.after · _) (outcome_of_established hestablished _).symm
  | fault error =>
    simp only [negotiate, followNegotiation, hverdict] at h
    cases h

private theorem negotiate_stop {c : Core} {bytes : List UInt8}
    (h : ¬ Continues (c.negotiate bytes).verdict) (more : List UInt8) :
    c.negotiate (bytes ++ more) = (c.negotiate bytes).leaving more := by
  have hstop : (c.negotiation.outcome bytes).verdict ≠ .pending := by
    intro hpending
    simp only [negotiate, followNegotiation, hpending] at h
    exact h rfl
  rw [negotiate, Negotiation.resumable.stop hstop]
  cases hverdict : (c.negotiation.outcome bytes).verdict with
  | pending => exact absurd hverdict hstop
  | done =>
    simp only [negotiate, followNegotiation, hverdict] at h
    simp only [negotiate, followNegotiation, Outcome.leaving, hverdict, readFrames_stop rfl h more]
    rfl
  | fault error =>
    simp only [negotiate, followNegotiation, Outcome.leaving, hverdict]
    rfl

theorem resumable : Resumable Continues outcome where
  resume {c bytes} h more := by
    cases hstatus : c.status with
    | idle | handshaking =>
      simp only [outcome, hstatus] at h ⊢
      exact negotiate_resume h more
    | established =>
      simp only [outcome, hstatus] at h ⊢
      obtain ⟨hsame, hresume⟩ := readFrames_resume h more
      rw [hresume]
      exact congrArg (Outcome.after · _) (outcome_of_established (hsame.trans hstatus) _).symm
    | closed | failed =>
      simp only [outcome, hstatus] at h
      cases h
  stop {c bytes} h more := by
    cases hstatus : c.status with
    | idle | handshaking =>
      simp only [outcome, hstatus] at h ⊢
      exact negotiate_stop h more
    | established =>
      simp only [outcome, hstatus] at h ⊢
      exact readFrames_stop (by rw [hstatus]; rfl) h more
    | closed | failed =>
      simp only [outcome, hstatus]
      rfl

private theorem status_readFrames (c : Core) (bytes : List UInt8) :
    (c.readFrames bytes).state.status = statusOf (c.readFrames bytes).verdict := by
  simp only [readFrames, followReader]
  cases (c.reader.outcome bytes).verdict <;> rfl

theorem status_outcome (c : Core) (bytes : List UInt8) :
    (c.outcome bytes).state.status = statusOf (c.outcome bytes).verdict := by
  cases hstatus : c.status with
  | idle | handshaking =>
    simp only [outcome, hstatus, negotiate, followNegotiation]
    cases (c.negotiation.outcome bytes).verdict with
    | pending => rfl
    | done => exact status_readFrames _ _
    | fault error => rfl
  | established =>
    simp only [outcome, hstatus]
    exact status_readFrames c bytes
  | closed | failed =>
    simp only [outcome, hstatus]
    rfl

/-- A core that does not go on does nothing with what arrives. -/
theorem outcome_of_stopped {c : Core} {bytes : List UInt8}
    (h : ¬ Continues (c.outcome bytes).verdict) (more : List UInt8) :
    (c.outcome bytes).state.outcome more =
      { state := (c.outcome bytes).state, unread := more
        verdict := .ok (c.outcome bytes).state.status } := by
  apply outcome_of_final
  rw [status_outcome]
  simpa [Continues] using h

/-- Apart from its result, a feed may always be made in two. -/
theorem outcome_append (c : Core) (bytes more : List UInt8) :
    let o := c.outcome bytes
    let later := o.state.outcome (o.unread ++ more)
    (c.outcome (bytes ++ more)).state = later.state ∧
      (c.outcome (bytes ++ more)).unread = later.unread ∧
      (c.outcome (bytes ++ more)).effect = o.effect ++ later.effect := by
  by_cases h : Continues (c.outcome bytes).verdict
  · rw [resumable.resume h]
    exact ⟨rfl, rfl, rfl⟩
  · dsimp only
    rw [resumable.stop h, outcome_of_stopped h]
    exact ⟨rfl, rfl, (Effect.append_empty _).symm⟩

end Core

end Session

end WebSocket
