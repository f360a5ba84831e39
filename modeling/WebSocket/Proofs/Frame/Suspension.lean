import WebSocket.Proofs.Frame.Registers

/-!
# What registers keep between calls

Between two calls the registers tell where in the stream a decoder stands. In the middle of a frame
they hold what is still needed of it (`suspended_in_frame`); between two frames, even after a fault,
they hold nothing that matters, and all goes on as from a fresh start (`nothing_left_over`).
-/

namespace WebSocket

/-- Behind whole frames, the stream breaks off in this one, the first two bytes of which are
there. -/
structure Inside (stream : List UInt8) (f : ClientFrame) : Prop where
  readable : f.Readable
  bytes : ∃ (frames : List ClientFrame) (n : Nat), (∀ g ∈ frames, g.Readable) ∧ 2 ≤ n ∧
    n < f.encode.length ∧ stream = frames.flatMap ClientFrame.encode ++ f.encode.take n

/-- With all the bytes dealt with, a reader stands where they break off. -/
theorem Inside.state_eq {σ : Type} {x : Reading σ} {r : FrameReader} {f : ClientFrame}
    (h : Inside x.stream f) (hsettled : x.Settled r) :
    ∃ n, n < f.encode.length ∧ r = (f.reached n).state := by
  obtain ⟨frames, n, hframes, htwo, hn, hbytes⟩ := h.bytes
  have hends := FrameReader.outcome_of_ends (.inside h.readable htwo hn)
  have houtcome := FrameReader.outcome_frames hframes (f.encode.take n)
  rw [← hbytes, hsettled, hends] at houtcome
  exact ⟨n, hn, congrArg Outcome.state houtcome⟩

/-- A reader that is neither between frames nor closed stands in a frame. -/
theorem Reading.Settled.exists_inside {σ : Type} {x : Reading σ} {r : FrameReader}
    (h : x.Settled r) (hheader : r ≠ .header) (hclosed : r ≠ .closed) :
    ∃ f, Inside x.stream f := by
  obtain ⟨frames, tail, ending, hdivides, _, rfl, _, _⟩ := h.exists_divides
  cases hdivides.ends with
  | short _ => exact absurd rfl hheader
  | @inside f n hf htwo hn =>
    exact ⟨f, hf, frames, n, hdivides.readable, htwo, hn, hdivides.bytes⟩
  | close _ _ _ => exact absurd rfl hclosed
  | unknown _ _ _ => exact absurd rfl hheader
  | unmasked _ _ _ _ => exact absurd rfl hheader

namespace Registers

/-- The registers in the middle of the payload of a frame. -/
structure Midway (s : Registers) (f : ClientFrame) : Prop where
  pos : 0 < s.remaining
  le : s.remaining ≤ f.payload.length
  kind : s.kind = f.opcode.purpose?
  kind_ne : s.kind ≠ none
  key : s.mask.key = f.key
  index : s.kind ≠ some .pong → s.mask.index.val = (f.payload.length - s.remaining) % 4
  echo : s.kind = some .ping →
    s.echo.toList = f.payload.take (f.payload.length - s.remaining)

/-- What the registers hold when these bytes have been taken. In the middle of a frame that goes for
every frame which the bytes may be the beginning of. -/
structure Suspended (s : Registers) (stream : List UInt8) : Prop where
  remaining : s.stage ≠ .maskKey → s.stage ≠ .payload → s.remaining = 0
  echo : ¬ (s.stage = .payload ∧ s.kind = some .ping) → s.echo = #[]
  inside : s.stage ≠ .header → s.stage ≠ .closed → ∃ f, Inside stream f
  announced : s.stage = .maskKey → ∀ f, Inside stream f → s.remaining = f.payload.length
  midway : s.stage = .payload → ∀ f, Inside stream f → s.Midway f

variable {id : UInt32} {s : Registers} {r : FrameReader}

private theorem Holds.at_reached {f : ClientFrame} {n : Nat}
    (h : Holds id s (f.reached n).state) (hclose : f.opcode ≠ .close)
    (hn : n < f.encode.length) :
    (s.stage = .maskKey → s.remaining = f.payload.length) ∧ (s.stage = .payload → s.Midway f) := by
  rw [f.length_encode] at hn
  unfold ClientFrame.reached at h
  dsimp only at h
  split at h
  · dsimp only at h
    split at h <;> cases h <;> exact ⟨nofun, nofun⟩
  · split at h
    · cases h
      exact ⟨fun _ => rfl, nofun⟩
    · -- Behind the key, so many bytes of the payload have been read.
      cases h
      refine ⟨nofun, fun _ => ?_⟩
      have hgot : f.payload.length - (f.payload.length - (n - (f.header.length + 4))) =
          n - (f.header.length + 4) := by omega
      refine ⟨?_, Nat.sub_le _ _, (ClientFrame.purpose?_eq hclose).symm, nofun, rfl, ?_, ?_⟩
      · show 0 < f.payload.length - (n - (f.header.length + 4))
        omega
      · intro hpong
        have hne : f.purpose ≠ .pong := fun h => hpong (congrArg some h)
        simp only [if_neg hne, hgot]
        rfl
      · intro hping
        simp only [if_pos (Option.some.inj hping), hgot]

theorem Holds.suspended {x : Reading Registers} (h : Holds id x.reader r) (hsettled : x.Settled r) :
    x.reader.Suspended x.stream := by
  generalize x.reader = s at h
  refine ⟨?_, ?_, ?_, ?_, ?_⟩
  · intro hkey hpayload
    cases h with
    | header _ _ | length16 _ _ | length64 _ _ | closed _ _ => rfl
    | maskKey _ _ _ => exact absurd rfl hkey
    | payload _ _ => exact absurd rfl hpayload
  · intro hping
    cases h with
    | header _ _ | length16 _ _ | length64 _ _ | maskKey _ _ _ | closed _ _ => rfl
    | payload p hecho => exact hecho fun hp => hping ⟨rfl, congrArg some hp⟩
  · intro hheader hclosed
    apply hsettled.exists_inside
    · rintro rfl
      cases h
      exact hheader rfl
    · rintro rfl
      cases h
      exact hclosed rfl
  · intro hstage f hf
    obtain ⟨n, hn, rfl⟩ := hf.state_eq hsettled
    exact (h.at_reached hf.readable.1 hn).1 hstage
  · intro hstage f hf
    obtain ⟨n, hn, rfl⟩ := hf.state_eq hsettled
    exact (h.at_reached hf.readable.1 hn).2 hstage

/-! ## From a fresh start -/

theorem settled_run (id : UInt32) (rounds : List Round) :
    (Reading.run decode { reader := { id } } rounds).Settled
      (Reading.run FrameReader.decoder { reader := .header } rounds).reader :=
  (like_run id rounds).settled (Reading.settled_run rounds (Reading.settled_nil {}))

/-- After any calls, the registers hold what is needed of the frame that is being read, and no more
than that of its length, its payload and the one before. -/
theorem suspended_in_frame (id : UInt32) (rounds : List Round) :
    let past := Reading.run decode { reader := { id } } rounds
    past.Like (Holds id) (Reading.run FrameReader.decoder { reader := .header } rounds) ∧
      past.reader.Suspended past.stream :=
  ⟨like_run id rounds, (like_run id rounds).reader.suspended (settled_run id rounds)⟩

/-- One of three bytes of a ping has been read. -/
theorem suspended_in_frame_ping :
    let past := Reading.run decode { reader := { id := 7 } }
      [{ arriving := [0x89, 0x83, 1] }, { arriving := [2, 3, 4, 0x60] }]
    let ping : ClientFrame :=
      { flags := 8, opcode := .ping, form := .short, key := #v[1, 2, 3, 4]
        payload := [0x61, 0x62, 0x63] }
    past.reader.stage = .payload ∧ Inside past.stream ping ∧ past.reader.Midway ping := by
  have hstage : (Reading.run decode { reader := { id := 7 } }
      [{ arriving := [0x89, 0x83, 1] }, { arriving := [2, 3, 4, 0x60] }]).reader.stage =
      .payload := by
    decide +kernel
  have hinside : Inside
      (Reading.run decode { reader := { id := 7 } }
        [{ arriving := [0x89, 0x83, 1] }, { arriving := [2, 3, 4, 0x60] }]).stream
      { flags := 8, opcode := .ping, form := .short, key := #v[1, 2, 3, 4]
        payload := [0x61, 0x62, 0x63] } :=
    { readable := ⟨by decide, by decide⟩
      bytes := ⟨[], 7, nofun, by decide, by decide, by decide +kernel⟩ }
  exact ⟨hstage, hinside, (suspended_in_frame 7 _).2.midway hstage _ hinside⟩

/-! ## Between two frames -/

/-- What is to be seen of a call: where it has led, what it has logged, and the work that it did. -/
structure Sight where
  stage : Stage
  remaining : Nat
  records : Array Record
  work : Work

def sight (call : Registers × Work) : Sight where
  stage := call.1.stage
  remaining := call.1.remaining
  records := call.2.trace.notices.map fun notice => { session := call.1.id, notice }
  work := call.2

/-- The same, of a reader in this session. -/
def sightOf (id : UInt32) (call : FrameReader × Work) : Sight where
  stage :=
    match call.1 with
    | .header => .header
    | .length16 _ => .length16
    | .length64 _ => .length64
    | .maskKey _ _ => .maskKey
    | .payload _ => .payload
    | .closed => .closed
  remaining := call.1.remaining
  records := call.2.trace.notices.map fun notice => { session := id, notice }
  work := call.2

theorem Holds.sight_eq (h : Holds id s r) (work : Work) : sight (s, work) = sightOf id (r, work) := by
  cases h <;> rfl

/-- Whatever the registers hold between two frames, the calls that follow are those of a reader
which has read nothing. -/
theorem Holds.trail_eq (h : Holds id s r) (hstage : s.stage = .header) (ch : Channel)
    (rounds : List Round) :
    (trail decode s ch rounds).map sight =
      (trail FrameReader.decoder .header ch rounds).map (sightOf id) := by
  have hheader : r = .header := by
    cases h <;> first | rfl | cases hstage
  subst hheader
  exact Agree.map_trail (agree id) Holds.sight_eq h ch rounds

theorem Holds.between_frames (h : Holds id s .header) :
    s.stage = .header ∧ s.remaining = 0 ∧ s.echo = #[] := by
  cases h
  exact ⟨rfl, rfl, rfl⟩

/-- Nothing is left over from a frame or from a header that was refused. Between two frames the
calls to come are those of fresh registers; and a fault has come of just two bytes behind whole
frames, has left no count and no part of a ping, and has delivered and sent nothing that is not of
those frames. -/
theorem nothing_left_over (id : UInt32) (before : List Round) :
    let past := Reading.run decode { reader := { id } } before
    past.Like (Holds id) (Reading.run FrameReader.decoder { reader := .header } before) ∧
      (past.reader.stage = .header →
        ∀ after : List Round,
          (trail decode past.reader past.channel after).map sight =
              (trail decode { id } past.channel after).map sight ∧
            (trail decode { id } past.channel after).map sight =
              (trail FrameReader.decoder .header past.channel after).map (sightOf id)) ∧
      ∀ error, past.verdict = .fault error →
        past.reader.stage = .header ∧ past.reader.remaining = 0 ∧ past.reader.echo = #[] ∧
          ∃ (frames : List ClientFrame) (first second : UInt8),
            (∀ f ∈ frames, f.Readable) ∧ FrameReader.Refused first second error ∧
              past.stream = frames.flatMap ClientFrame.encode ++ [first, second] ∧
              past.effect.data = frames.flatMap ClientFrame.data ∧
              past.effect.output = (frames.flatMap ClientFrame.replies).flatMap ServerFrame.bytes := by
  intro past
  have hlike := like_run id before
  refine ⟨hlike, ?_, ?_⟩
  · intro hstage after
    have hfresh := (holds_fresh id).trail_eq rfl past.channel after
    exact ⟨(hlike.reader.trail_eq hstage past.channel after).trans hfresh.symm, hfresh⟩
  · intro error hfault
    obtain ⟨frames, tail, ending, hdivides, hunread, hstate, hverdict, heffect⟩ :=
      (settled_run id before).exists_divides
    obtain ⟨hheader, hdata, houtput, first, second, hrefused, htail⟩ :=
      hdivides.ends.of_fault (hverdict.trans hfault)
    have hholds : Holds id past.reader .header := by
      rw [← hheader, hstate]
      exact hlike.reader
    rw [hunread] at htail
    obtain ⟨hstage, hremaining, hecho⟩ := hholds.between_frames
    refine ⟨hstage, hremaining, hecho, frames, first, second, hdivides.readable, hrefused, ?_, ?_, ?_⟩
    · rw [← htail]
      exact hdivides.bytes
    · show past.effect.data = _
      rw [heffect, Effect.data_append, hdata, List.append_nil]
      rfl
    · rw [heffect, Effect.output_append, houtput, List.append_nil]
      rfl

/-- A ping, and then a header of no known kind. -/
theorem nothing_left_over_refused :
    let past := Reading.run decode { reader := { id := 7 } }
      [{ arriving := [0x89, 0x81, 1, 2, 3, 4, 0x60] }, { arriving := [0x83, 0x80, 0x8A] }]
    past.verdict = .fault (.unknownOpcode 3) ∧ past.reader.kind = some .ping ∧
      past.reader.remaining = 0 ∧
      ∀ after : List Round,
        (trail decode past.reader past.channel after).map sight =
          (trail decode { id := 7 } past.channel after).map sight := by
  have hfault : (Reading.run decode { reader := { id := 7 } }
      [{ arriving := [0x89, 0x81, 1, 2, 3, 4, 0x60] },
        { arriving := [0x83, 0x80, 0x8A] }]).verdict = .fault (.unknownOpcode 3) := by
    decide +kernel
  obtain ⟨_, hgoes, hfaults⟩ := nothing_left_over 7
    [{ arriving := [0x89, 0x81, 1, 2, 3, 4, 0x60] }, { arriving := [0x83, 0x80, 0x8A] }]
  obtain ⟨hstage, hremaining, _⟩ := hfaults _ hfault
  refine ⟨hfault, by decide +kernel, hremaining, ?_⟩
  intro after
  exact (hgoes hstage after).1

end Registers

end WebSocket
