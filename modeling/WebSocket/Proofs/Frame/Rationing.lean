import WebSocket.Proofs.Frame.Settling

/-!
# Reading from a rationed channel

However a channel rations its bytes, a reader takes the frames in the same way: what it has done
when it has to wait is a part of what it does on the same bytes without limits. A window of eight
bytes lets every item of a header through, and then no part is left over. All that is in a decoder's
registers comes to the same as well (`decode_rationed`).
-/

namespace WebSocket

namespace Channel

/-- The channel admits to hold at most `window` bytes, and a read gives at most `maxRead`. -/
def rationed (ch : Channel) (window maxRead : Nat) : Channel :=
  { ch with window := some window, maxRead := some maxRead }

def unrationed (ch : Channel) : Channel :=
  { ch with window := none, maxRead := none }

/-- The limits never hold up a reader that has bytes to read. -/
structure Ample (ch : Channel) : Prop where
  window : ∀ most, ch.window = some most → 8 ≤ most
  maxRead : ch.maxRead ≠ some 0

theorem ample_unrationed (ch : Channel) : ch.unrationed.Ample where
  window := by
    intro most h
    cases h
  maxRead := by
    intro h
    cases h

theorem ample_rationed (ch : Channel) {window maxRead : Nat} (hw : 8 ≤ window) (hm : 0 < maxRead) :
    (ch.rationed window maxRead).Ample where
  window := by
    intro most h
    cases h
    exact hw
  maxRead := by
    intro h
    cases h
    exact Nat.lt_irrefl 0 hm

theorem Ample.of_sameLimits {a b : Channel} (h : a.Ample) (hsame : b.SameLimits a) : b.Ample where
  window := by
    rw [hsame.1]
    exact h.window
  maxRead := by
    rw [hsame.2]
    exact h.maxRead

/-- What does not come through ample limits is not there. -/
theorem Ample.length_lt {ch : Channel} (h : ch.Ample) {n : Nat} (hn : n ≤ 8)
    (hlt : ch.available < n) : ch.inbox.bytes.length < n := by
  rw [← ch.inbox.size_eq]
  cases hw : ch.window with
  | none => simpa [available, hw, limit] using hlt
  | some most =>
    have hmost := h.window most hw
    simp only [available, hw, limit] at hlt
    omega

end Channel

namespace FrameReader

private theorem Waits.outcome {r : FrameReader} {ch : Channel} (h : r.Waits ch) (hample : ch.Ample) :
    r.outcome ch.inbox.bytes = r.waiting ch.inbox.bytes := by
  have hstarved := h.2
  cases r with
  | header => exact outcome_header_of_lt (hample.length_lt (by decide) hstarved)
  | length16 purpose => exact outcome_length16_of_lt (hample.length_lt (by decide) hstarved) purpose
  | length64 purpose => exact outcome_length64_of_lt (hample.length_lt (by decide) hstarved) purpose
  | maskKey purpose length =>
    exact outcome_maskKey_of_lt (hample.length_lt (by decide) hstarved) purpose length
  | payload p =>
    obtain ⟨hnone, hremaining⟩ := hstarved
    have hlt : ch.inbox.bytes.length < 1 := hample.length_lt (by decide) (by omega)
    rw [List.length_eq_zero_iff.mp (Nat.lt_one_iff.mp hlt)]
    exact outcome_payload_nil (Nat.pos_iff_ne_zero.mp hremaining)
  | closed => cases hstarved

/-! ## Limited and unlimited runs -/

/-- A run that goes on from another, and what both have done. -/
def Progress.then (first second : Progress) : Progress :=
  { second with
    delivered := first.delivered ++ second.delivered
    trace := first.trace ++ second.trace }

/-- Two runs come to the same: the verdict, where the reader stands, the application data, all that
has been written, the bytes that are not read, and the notices. -/
structure Progress.Same (p q : Progress) : Prop where
  verdict : p.verdict = q.verdict
  reader : p.reader = q.reader
  data : p.delivered.toList.flatten = q.delivered.toList.flatten
  written : p.channel.outgoing = q.channel.outgoing
  unread : p.channel.inbox = q.channel.inbox
  notices : p.trace.notices = q.trace.notices

/-- The run comes to this outcome, on top of what had been sent before it. -/
private structure Progress.Gives (p : Progress) (sent : Array UInt8)
    (o : Outcome FrameReader Verdict) : Prop where
  reader : p.reader = o.state
  unread : p.channel.inbox.bytes = o.unread
  verdict : p.verdict = o.verdict
  data : p.delivered.toList.flatten = o.effect.data
  output : p.channel.outgoing = sent ++ o.effect.output
  notices : p.trace.notices.toList = o.effect.notices

private theorem Progress.Gives.same {p q : Progress} {sent : Array UInt8}
    {o : Outcome FrameReader Verdict} (hp : p.Gives sent o) (hq : q.Gives sent o) : p.Same q where
  verdict := hp.verdict.trans hq.verdict.symm
  reader := hp.reader.trans hq.reader.symm
  data := hp.data.trans hq.data.symm
  written := hp.output.trans hq.output.symm
  unread := Inbox.ext_bytes (hp.unread.trans hq.unread.symm)
  notices := Array.toList_inj.mp (hp.notices.trans hq.notices.symm)

private theorem outcome_resumed {r : FrameReader} {ch : Channel} {taken : List UInt8} {e : Effect}
    (huses : (r.decode ch).turn.Uses r ch taken e) (h : (r.decode ch).verdict = .pending) :
    r.outcome ch.inbox.bytes =
      ((r.decode ch).reader.outcome (r.decode ch).channel.inbox.bytes).after e := by
  have htaken := huses.last _ rfl
  have hpending : (r.outcome taken).verdict = .pending := by
    rw [htaken]
    exact h
  rw [huses.bytes, resumable.resume hpending, htaken]
  rfl

private theorem gives_decode {r : FrameReader} {ch : Channel}
    (h : (r.decode ch).verdict ≠ .pending ∨ ch.Ample) :
    (r.decode ch).Gives ch.outgoing (r.outcome ch.inbox.bytes) := by
  obtain ⟨taken, e, huses⟩ := r.exists_uses_decode ch
  have hwhole : r.outcome ch.inbox.bytes =
      { state := (r.decode ch).reader, unread := (r.decode ch).channel.inbox.bytes
        verdict := (r.decode ch).verdict, effect := e } := by
    by_cases hpending : (r.decode ch).verdict = .pending
    · have hample := h.resolve_left (not_not.mpr hpending)
      have hlimits := hample.of_sameLimits (r.sameLimits_decode ch)
      rw [outcome_resumed huses hpending, (waits_of_decode hample.maxRead hpending).outcome hlimits,
        hpending]
      simp [waiting, Outcome.after]
    · have htaken := huses.last _ rfl
      have hstopped : (r.outcome taken).verdict ≠ .pending := by
        rw [htaken]
        exact hpending
      rw [huses.bytes, resumable.stop hstopped, htaken]
      rfl
  rw [hwhole]
  exact ⟨rfl, rfl, rfl, huses.data, huses.output, huses.notices⟩

private theorem gives_then {r : FrameReader} {ch : Channel}
    (h : (r.decode ch).verdict = .pending) :
    let first := r.decode ch
    (first.then (first.reader.decode first.channel.unrationed)).Gives ch.outgoing
      (r.outcome ch.inbox.bytes) := by
  obtain ⟨taken, e, huses⟩ := r.exists_uses_decode ch
  have hlater := gives_decode (r := (r.decode ch).reader)
    (.inr (r.decode ch).channel.ample_unrationed)
  rw [outcome_resumed huses h]
  refine ⟨hlater.reader, hlater.unread, hlater.verdict, ?_, ?_, ?_⟩
  · have hdata : (r.decode ch).delivered.toList.flatten = e.data := huses.data
    simp only [Progress.then, Array.toList_append, List.flatten_append, hdata, hlater.data]
    rfl
  · have houtput : (r.decode ch).channel.unrationed.outgoing = ch.outgoing ++ e.output :=
      huses.output
    rw [Progress.then, hlater.output, houtput]
    apply Array.toList_inj.mp
    simp only [Outcome.after, Array.toList_appendList, Effect.output_append, List.append_assoc]
    rfl
  · have hnotices : (r.decode ch).trace.notices.toList = e.notices := huses.notices
    simp only [Progress.then, Trace.notices_append, Array.toList_append, hnotices, hlater.notices]
    rfl

/-- A limited run that stops has done what an unlimited one does; one that waits has done a part,
and an unlimited run from there does the rest; and behind a window of eight bytes or more a limited
run never does less. -/
theorem same_rationed (r : FrameReader) (ch : Channel) (window : Nat) {maxRead : Nat}
    (hm : 0 < maxRead) :
    let whole := r.decode ch.unrationed
    let limited := r.decode (ch.rationed window maxRead)
    (limited.verdict ≠ .pending → limited.Same whole) ∧
      (limited.verdict = .pending →
        (limited.then (limited.reader.decode limited.channel.unrationed)).Same whole) ∧
      (8 ≤ window → limited.Same whole) := by
  have hwhole := gives_decode (r := r) (.inr ch.ample_unrationed)
  refine ⟨?_, ?_, ?_⟩
  · intro hstopped
    exact (gives_decode (.inl hstopped)).same hwhole
  · intro hpending
    exact (gives_then hpending).same hwhole
  · intro hw
    exact (gives_decode (.inr (ch.ample_rationed hw hm))).same hwhole

end FrameReader

namespace Registers

/-- A call that goes on from another, and what both have done. -/
def together (first second : Registers × Work) : Registers × Work :=
  (second.1,
    { second.2 with
      delivered := first.2.delivered ++ second.2.delivered
      trace := first.2.trace ++ second.2.trace })

/-- Two calls come to the same: all that is in the registers, the verdict, the application data, all
that has been written, the bytes that are not read, and the notices. -/
structure Same (a b : Registers × Work) : Prop where
  registers : a.1 = b.1
  verdict : a.2.verdict = b.2.verdict
  data : a.2.delivered.toList.flatten = b.2.delivered.toList.flatten
  written : a.2.channel.outgoing = b.2.channel.outgoing
  unread : a.2.channel.inbox = b.2.channel.inbox
  notices : a.2.trace.notices = b.2.trace.notices

variable {id : UInt32} {s : Registers} {r : FrameReader}

/-- The work of a run. -/
private def work (p : FrameReader.Progress) : Work :=
  { channel := p.channel, verdict := p.verdict, delivered := p.delivered, trace := p.trace }

private theorem same_of_progress {a b : Registers × Work} {p q : FrameReader.Progress}
    (hregisters : a.1 = b.1) (ha : a.2 = work p) (hb : b.2 = work q) (h : p.Same q) : Same a b := by
  refine ⟨hregisters, ?_, ?_, ?_, ?_, ?_⟩ <;> rw [ha, hb]
  · exact h.verdict
  · exact h.data
  · exact h.written
  · exact h.unread
  · exact h.notices

private theorem Holds.registers_eq (h : Holds id s r) {a b : Channel}
    (hbytes : a.inbox.bytes = b.inbox.bytes)
    (hunread : (s.decode a).2.channel.inbox = (s.decode b).2.channel.inbox) :
    (s.decode a).1 = (s.decode b).1 := by
  obtain ⟨taken, htaken, hsettle, -⟩ := h.decode_settles a
  obtain ⟨taken', htaken', hsettle', -⟩ := h.decode_settles b
  -- Of the same bytes the same are left, so the same have been taken.
  rw [htaken, htaken', hunread] at hbytes
  rw [← hsettle, ← hsettle', List.append_cancel_right hbytes]

private theorem Holds.registers_eq_then (h : Holds id s r) {a b : Channel}
    (hbytes : a.inbox.bytes = b.inbox.bytes) (hpending : (s.decode a).2.verdict = .pending)
    (hunread : ((s.decode a).1.decode (s.decode a).2.channel.unrationed).2.channel.inbox =
      (s.decode b).2.channel.inbox) :
    ((s.decode a).1.decode (s.decode a).2.channel.unrationed).1 = (s.decode b).1 := by
  obtain ⟨first, hfirst, -, hmore⟩ := h.decode_settles a
  obtain ⟨second, hsecond, hsettle, -⟩ :=
    (holds_decode h a).1.decode_settles (s.decode a).2.channel.unrationed
  obtain ⟨taken, htaken, hsettle', -⟩ := h.decode_settles b
  have hleft : (s.decode a).2.channel.inbox.bytes = second ++ (s.decode b).2.channel.inbox.bytes := by
    rw [← hunread]
    exact hsecond
  rw [hfirst, hleft, htaken, ← List.append_assoc] at hbytes
  rw [← hsettle, ← hmore hpending, List.append_cancel_right hbytes, hsettle']

private theorem Holds.same_decode (h : Holds id s r) {a b : Channel}
    (hbytes : a.inbox.bytes = b.inbox.bytes) (hsame : (r.decode a).Same (r.decode b)) :
    Same (s.decode a) (s.decode b) := by
  have ha : (s.decode a).2 = work (r.decode a) := (holds_decode h a).2
  have hb : (s.decode b).2 = work (r.decode b) := (holds_decode h b).2
  have hunread : (s.decode a).2.channel.inbox = (s.decode b).2.channel.inbox := by
    rw [ha, hb]
    exact hsame.unread
  exact same_of_progress (h.registers_eq hbytes hunread) ha hb hsame

private theorem Holds.same_together (h : Holds id s r) {a b : Channel}
    (hbytes : a.inbox.bytes = b.inbox.bytes) (hpending : (r.decode a).verdict = .pending)
    (hsame : ((r.decode a).then ((r.decode a).reader.decode (r.decode a).channel.unrationed)).Same
      (r.decode b)) :
    Same (together (s.decode a) ((s.decode a).1.decode (s.decode a).2.channel.unrationed))
      (s.decode b) := by
  obtain ⟨hnext, ha⟩ : Holds id (s.decode a).1 (r.decode a).reader ∧
      (s.decode a).2 = work (r.decode a) := holds_decode h a
  have hb : (s.decode b).2 = work (r.decode b) := (holds_decode h b).2
  have hlater : ((s.decode a).1.decode (s.decode a).2.channel.unrationed).2 =
      work ((r.decode a).reader.decode (r.decode a).channel.unrationed) := by
    rw [ha]
    exact (holds_decode hnext _).2
  have htogether :
      (together (s.decode a) ((s.decode a).1.decode (s.decode a).2.channel.unrationed)).2 =
        work ((r.decode a).then
          ((r.decode a).reader.decode (r.decode a).channel.unrationed)) := by
    rw [together, hlater, ha]
    rfl
  have hunread : ((s.decode a).1.decode (s.decode a).2.channel.unrationed).2.channel.inbox =
      (s.decode b).2.channel.inbox := by
    rw [hlater, hb]
    exact hsame.unread
  have hpending' : (s.decode a).2.verdict = .pending := by
    rw [ha]
    exact hpending
  exact same_of_progress (h.registers_eq_then hbytes hpending' hunread) htogether hb hsame

/-- Reading does not depend on how the channel rations its bytes. In whatever state earlier calls
have left the registers, a limited call that stops has done what an unlimited one does; one that
waits has done a part, and an unlimited call from there does the rest; and behind a window of eight
bytes or more a limited call never does less. -/
theorem decode_rationed (id : UInt32) (before : List Round) (ch : Channel) (window : Nat)
    {maxRead : Nat} (hm : 0 < maxRead) :
    let s := (Reading.run decode { reader := { id } } before).reader
    let whole := s.decode ch.unrationed
    let limited := s.decode (ch.rationed window maxRead)
    (limited.2.verdict ≠ .pending → Same limited whole) ∧
      (limited.2.verdict = .pending →
        Same (together limited (limited.1.decode limited.2.channel.unrationed)) whole) ∧
      (8 ≤ window → Same limited whole) := by
  intro s whole limited
  have hholds : Holds id s (Reading.run FrameReader.decoder { reader := .header } before).reader :=
    (like_run id before).reader
  have hwork := (holds_decode hholds (ch.rationed window maxRead)).2
  have hverdict : limited.2.verdict = _ := congrArg Work.verdict hwork
  obtain ⟨hstops, hwaits, hample⟩ := FrameReader.same_rationed _ ch window hm
  refine ⟨?_, ?_, fun hw => hholds.same_decode rfl (hample hw)⟩
  · intro hstopped
    rw [hverdict] at hstopped
    exact hholds.same_decode rfl (hstops hstopped)
  · intro hpending
    rw [hverdict] at hpending
    exact hholds.same_together rfl hpending (hwaits hpending)

/-- Behind a text frame of one byte, a masked ping of which the window lets only the header through:
the key of the frame before is still there. -/
theorem decode_rationed_ping :
    let before : List Round := [{ arriving := [0x81, 0x81, 5, 6, 7, 8, 0x64] }]
    let ch := Channel.holding [0x89, 0x83, 1, 2, 3, 4, 0x61, 0x60, 0x63, 0x81]
    let s := (Reading.run decode { reader := { id := 7 } } before).reader
    let limited := s.decode (ch.rationed 3 1)
    0 < 1 ∧ limited.2.verdict = .pending ∧ limited.1.stage = .maskKey ∧ limited.1.remaining = 3 ∧
      limited.1.kind = some .ping ∧ limited.1.mask = { key := #v[5, 6, 7, 8], index := 1 } ∧
      Same (together limited (limited.1.decode limited.2.channel.unrationed))
        (s.decode ch.unrationed) := by
  have hverdict : ((Reading.run decode { reader := { id := 7 } }
      [{ arriving := [0x81, 0x81, 5, 6, 7, 8, 0x64] }]).reader.decode
        ((Channel.holding [0x89, 0x83, 1, 2, 3, 4, 0x61, 0x60, 0x63, 0x81]).rationed 3 1)).2.verdict =
      .pending := by decide +kernel
  refine ⟨by decide, hverdict, by decide +kernel, by decide +kernel, by decide +kernel,
    by decide +kernel, ?_⟩
  exact (decode_rationed 7 _ _ 3 (by decide)).2.1 hverdict

end Registers

end WebSocket
