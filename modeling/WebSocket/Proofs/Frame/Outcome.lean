import WebSocket.Frame.Reader
import WebSocket.Proofs.Channel.Unlimited
import WebSocket.Proofs.Outcome

/-!
# What reading comes to

The outcome of reading a byte string whole: where the reader stands, what it has left, and the
effect it had. Earlier output does not bear on it (`decode_holding`), and for each state there is
one equation that says how the outcome begins.
-/

namespace WebSocket

/-- The bytes of a payload that come next move it on and may bring application data. -/
def PartialPayload.absorb (p : PartialPayload) (piece : List UInt8) : PartialPayload :=
  { p with
    remaining := p.remaining - piece.length
    mask := if p.purpose = .pong then p.mask else p.mask.advance piece.length
    echo := if p.purpose = .ping then p.echo ++ p.mask.apply piece else p.echo }

def PartialPayload.yield (p : PartialPayload) (piece : List UInt8) : List UInt8 :=
  if p.purpose = .data then p.mask.apply piece else []

namespace PartialPayload

@[simp] theorem absorb_nil (p : PartialPayload) : p.absorb [] = p := by
  simp [absorb]

@[simp] theorem yield_nil (p : PartialPayload) : p.yield [] = [] := by
  simp [yield]

theorem absorb_append (p : PartialPayload) (a b : List UInt8) :
    p.absorb (a ++ b) = (p.absorb a).absorb b := by
  have hecho : p.echo ++ (p.mask.apply a ++ (p.mask.advance a.length).apply b) =
      p.echo ++ p.mask.apply a ++ (p.mask.advance a.length).apply b := by
    apply Array.toList_inj.mp
    simp
  cases hp : p.purpose <;>
    simp [absorb, hp, Mask.apply_append, Mask.advance_advance, hecho, Nat.sub_sub]

theorem yield_append (p : PartialPayload) (a b : List UInt8) :
    p.yield (a ++ b) = p.yield a ++ (p.absorb a).yield b := by
  cases hp : p.purpose <;> simp [yield, absorb, hp, Mask.apply_append]

end PartialPayload

namespace FrameReader

/-- Nothing can be taken. -/
def waiting (r : FrameReader) (bytes : List UInt8) : Outcome FrameReader Verdict :=
  { state := r, unread := bytes, verdict := .pending }

def outcome (r : FrameReader) (bytes : List UInt8) : Outcome FrameReader Verdict :=
  let progress := r.decode (.holding bytes)
  { state := progress.reader
    unread := progress.channel.inbox.bytes
    verdict := progress.verdict
    effect :=
      { data := progress.delivered.toList.flatten
        output := progress.channel.outgoing.toList
        notices := progress.trace.notices.toList } }

/-! ## Earlier output does not matter -/

def Turn.after (t : Turn) (sent : Array UInt8) : Turn :=
  { t with channel := t.channel.after sent }

private theorem readHeader_after (first second : UInt8) (ch : Channel) (sent : Array UInt8) :
    readHeader first second (ch.after sent) = (readHeader first second ch).after sent := by
  unfold readHeader
  split
  · rfl
  · split
    · simp [Turn.after, Channel.write_after]
    · split <;> rfl

private theorem finish_after (p : PartialPayload) (ch : Channel) (sent : Array UInt8) :
    finish p (ch.after sent) = (finish p ch).after sent := by
  unfold finish
  split
  · simp [Turn.after, Channel.write_after]
  · rfl
  · rfl

private theorem readPayload_after (p : PartialPayload) (ch : Channel) (sent : Array UInt8) :
    readPayload p (ch.after sent) = (readPayload p ch).after sent := by
  have havailable : (ch.after sent).available = ch.available := rfl
  have hread (n : Nat) : (ch.after sent).read n = ((ch.read n).1, (ch.read n).2.after sent) := rfl
  unfold readPayload
  rw [havailable, finish_after]
  dsimp only
  split
  · rfl
  · split
    · rfl
    · split
      · rfl
      · simp only [takePayload, hread]
        split <;> rfl

theorem step_after (r : FrameReader) (ch : Channel) (sent : Array UInt8) :
    r.step (ch.after sent) = (r.step ch).after sent := by
  cases r with
  | payload p => exact readPayload_after p ch sent
  | closed => rfl
  | header =>
    simp only [step, Channel.takeExact?_after]
    cases ch.takeExact? 2 with
    | none => rfl
    | some taken => exact readHeader_after _ _ _ _
  | length16 purpose =>
    simp only [step, Channel.takeExact?_after]
    cases ch.takeExact? 2 <;> rfl
  | length64 purpose =>
    simp only [step, Channel.takeExact?_after]
    cases ch.takeExact? 8 <;> rfl
  | maskKey purpose length =>
    simp only [step, Channel.takeExact?_after]
    cases ch.takeExact? 4 <;> rfl

theorem decode_after (r : FrameReader) (ch : Channel) (sent : Array UInt8) :
    r.decode (ch.after sent) =
      { r.decode ch with channel := (r.decode ch).channel.after sent } := by
  induction hw : r.weight ch using Nat.strongRecOn generalizing r ch with
  | ind w ih =>
    have hstep := r.step_after ch sent
    cases h : (r.step ch).verdict with
    | some verdict =>
      have h' : (r.step (ch.after sent)).verdict = some verdict := by rw [hstep]; exact h
      rw [decode_of_some h, decode_of_some h', hstep]
      rfl
    | none =>
      have h' : (r.step (ch.after sent)).verdict = none := by rw [hstep]; exact h
      have hlt := hw ▸ weight_step h
      rw [decode_of_none h, decode_of_none h', hstep]
      simp only [Turn.after, ih _ hlt _ _ rfl]

private theorem sameLimits_readHeader (first second : UInt8) (ch : Channel) :
    (readHeader first second ch).channel.SameLimits ch := by
  unfold readHeader
  split
  · exact .refl ch
  · split
    · exact .refl ch
    · split <;> exact .refl ch

private theorem sameLimits_readPayload (p : PartialPayload) (ch : Channel) :
    (readPayload p ch).channel.SameLimits ch := by
  unfold readPayload
  dsimp only
  split
  · unfold finish
    split <;> exact .refl ch
  · split
    · exact .refl ch
    · split
      · exact .refl ch
      · unfold takePayload
        dsimp only
        split <;> exact .refl ch

theorem sameLimits_step (r : FrameReader) (ch : Channel) :
    (r.step ch).channel.SameLimits ch := by
  cases r with
  | payload p => exact sameLimits_readPayload p ch
  | closed => exact .refl ch
  | header =>
    simp only [step]
    split
    · exact .refl ch
    · rename_i htaken
      exact (sameLimits_readHeader _ _ _).trans (Channel.sameLimits_of_takeExact? htaken)
  | length16 purpose | length64 purpose | maskKey purpose length =>
    simp only [step]
    split
    · exact .refl ch
    · rename_i htaken
      exact Channel.sameLimits_of_takeExact? htaken

theorem sameLimits_decode (r : FrameReader) (ch : Channel) :
    (r.decode ch).channel.SameLimits ch := by
  induction hw : r.weight ch using Nat.strongRecOn generalizing r ch with
  | ind w ih =>
    cases h : (r.step ch).verdict with
    | some verdict =>
      rw [decode_of_some h]
      exact r.sameLimits_step ch
    | none =>
      rw [decode_of_none h]
      exact (ih _ (hw ▸ weight_step h) _ _ rfl).trans (r.sameLimits_step ch)

theorem decode_holding (r : FrameReader) (bytes : List UInt8) (sent : Array UInt8) :
    r.decode (.holding bytes sent) =
      { r.decode (.holding bytes) with
        channel :=
          .holding (r.outcome bytes).unread (sent ++ (r.outcome bytes).effect.output) } := by
  have hafter := r.decode_after (.holding bytes) sent
  have hlimits := r.sameLimits_decode (.holding bytes)
  have hchannel : (r.decode (.holding bytes)).channel.after sent =
      .holding (r.outcome bytes).unread (sent ++ (r.outcome bytes).effect.output) := by
    rw [Channel.eq_holding (hlimits.1.trans rfl) (hlimits.2.trans rfl), Channel.after_holding]
    congr 1
    apply Array.toList_inj.mp
    simp [outcome]
  rw [Channel.after_holding, Array.append_empty, hchannel] at hafter
  exact hafter

/-! ## One equation for each state -/

private theorem outcome_of_some {r : FrameReader} {bytes : List UInt8} {t : Turn}
    {verdict : Verdict} (ht : r.step (.holding bytes) = t) (h : t.verdict = some verdict) :
    r.outcome bytes =
      { state := t.reader, unread := t.channel.inbox.bytes, verdict
        effect :=
          { data := t.delivered.toList.flatten, output := t.channel.outgoing.toList
            notices := t.trace.notices.toList } } := by
  subst ht
  simp only [outcome, decode_of_some h]

private theorem outcome_of_none {r : FrameReader} {bytes rest : List UInt8} {sent : Array UInt8}
    {t : Turn} (ht : r.step (.holding bytes) = t) (h : t.verdict = none)
    (hch : t.channel = .holding rest sent) :
    r.outcome bytes =
      (t.reader.outcome rest).after
        { data := t.delivered.toList.flatten, output := sent.toList
          notices := t.trace.notices.toList } := by
  subst ht
  simp only [outcome, decode_of_none h, hch, decode_holding _ rest sent]
  ext1
  · rfl
  · rfl
  · rfl
  · ext1 <;> simp [Outcome.after]

private theorem outcome_of_pending {r : FrameReader} {bytes : List UInt8}
    (h : r.step (.holding bytes) = r.suspend (.holding bytes)) :
    r.outcome bytes = r.waiting bytes :=
  outcome_of_some h rfl

theorem outcome_closed (bytes : List UInt8) :
    closed.outcome bytes = { state := closed, unread := bytes, verdict := .closed } :=
  outcome_of_some rfl rfl

theorem outcome_header_of_lt {bytes : List UInt8} (h : bytes.length < 2) :
    header.outcome bytes = header.waiting bytes := by
  apply outcome_of_pending
  rw [step, Channel.takeExact?_holding_of_lt h]

theorem step_header (first second : UInt8) (rest : List UInt8) (sent : Array UInt8 := #[]) :
    header.step (.holding (first :: second :: rest) sent) =
      readHeader first second (.holding rest sent) := by
  have h := Channel.takeExact?_holding_append #v[first, second] rest sent
  rw [step, show first :: second :: rest = #v[first, second].toList ++ rest from rfl, h]
  rfl

theorem outcome_header_unknown {first : UInt8} (h : Opcode.ofByte? first = none) (second : UInt8)
    (rest : List UInt8) :
    header.outcome (first :: second :: rest) =
      { state := header, unread := rest
        verdict := .fault (.unknownOpcode (first.toNat % 16)) } := by
  have hread := step_header first second rest
  rw [readHeader, h] at hread
  exact outcome_of_some hread rfl

theorem outcome_header_close {first : UInt8} {opcode : Opcode}
    (h : Opcode.ofByte? first = some opcode) (hclose : opcode.purpose? = none) (second : UInt8)
    (rest : List UInt8) :
    header.outcome (first :: second :: rest) =
      { state := closed, unread := rest, verdict := .closed
        effect :=
          { output := ServerFrame.close.encode
            notices := [.frameReceived opcode, .closeReceived] } } := by
  have hread := step_header first second rest
  simp only [readHeader, h, hclose] at hread
  rw [outcome_of_some hread rfl]
  simp

theorem outcome_header_unmasked {first second : UInt8} {opcode : Opcode} {purpose : Purpose}
    (h : Opcode.ofByte? first = some opcode) (hpurpose : opcode.purpose? = some purpose)
    (hmask : second.toNat < 128) (rest : List UInt8) :
    header.outcome (first :: second :: rest) =
      { state := header, unread := rest, verdict := .fault .unmasked
        effect := { notices := [.frameReceived opcode] } } := by
  have hread := step_header first second rest
  simp only [readHeader, h, hpurpose, hmask, if_true] at hread
  exact outcome_of_some hread rfl

theorem outcome_header_masked {first second : UInt8} {opcode : Opcode} {purpose : Purpose}
    (h : Opcode.ofByte? first = some opcode) (hpurpose : opcode.purpose? = some purpose)
    (hmask : ¬ second.toNat < 128) (rest : List UInt8) :
    header.outcome (first :: second :: rest) =
      ((afterHeader purpose (second.toNat % 128)).outcome rest).after
        { notices := [.frameReceived opcode] } := by
  have hread := step_header first second rest
  simp only [readHeader, h, hpurpose, hmask, if_false] at hread
  exact outcome_of_none hread rfl rfl

theorem outcome_length16_of_lt {bytes : List UInt8} (h : bytes.length < 2) (purpose : Purpose) :
    (length16 purpose).outcome bytes = (length16 purpose).waiting bytes := by
  apply outcome_of_pending
  rw [step, Channel.takeExact?_holding_of_lt h]

theorem outcome_length16 (purpose : Purpose) (digits : Vector UInt8 2) (rest : List UInt8) :
    (length16 purpose).outcome (digits.toList ++ rest) =
      (maskKey purpose (BigEndian.value digits.toList)).outcome rest := by
  have hstep : (length16 purpose).step (.holding (digits.toList ++ rest)) =
      { reader := maskKey purpose (BigEndian.value digits.toList), channel := .holding rest
        trace := { calls := #[.readExact 2] } } := by
    rw [step, Channel.takeExact?_holding_append]
  exact outcome_of_none hstep rfl rfl

theorem outcome_length64_of_lt {bytes : List UInt8} (h : bytes.length < 8) (purpose : Purpose) :
    (length64 purpose).outcome bytes = (length64 purpose).waiting bytes := by
  apply outcome_of_pending
  rw [step, Channel.takeExact?_holding_of_lt h]

theorem outcome_length64 (purpose : Purpose) (digits : Vector UInt8 8) (rest : List UInt8) :
    (length64 purpose).outcome (digits.toList ++ rest) =
      (maskKey purpose (BigEndian.value digits.toList)).outcome rest := by
  have hstep : (length64 purpose).step (.holding (digits.toList ++ rest)) =
      { reader := maskKey purpose (BigEndian.value digits.toList), channel := .holding rest
        trace := { calls := #[.readExact 8] } } := by
    rw [step, Channel.takeExact?_holding_append]
  exact outcome_of_none hstep rfl rfl

theorem outcome_maskKey_of_lt {bytes : List UInt8} (h : bytes.length < 4) (purpose : Purpose)
    (length : Nat) :
    (maskKey purpose length).outcome bytes = (maskKey purpose length).waiting bytes := by
  apply outcome_of_pending
  rw [step, Channel.takeExact?_holding_of_lt h]

theorem outcome_maskKey (purpose : Purpose) (length : Nat) (key : Vector UInt8 4)
    (rest : List UInt8) :
    (maskKey purpose length).outcome (key.toList ++ rest) =
      ((payload { purpose, remaining := length, mask := { key } }).outcome rest).after
        { notices := [.payloadAnnounced length] } := by
  have hstep : (maskKey purpose length).step (.holding (key.toList ++ rest)) =
      { reader := payload { purpose, remaining := length, mask := { key } }
        channel := .holding rest
        trace := { notices := #[.payloadAnnounced length], calls := #[.readExact 4] } } := by
    rw [step, Channel.takeExact?_holding_append]
  exact outcome_of_none hstep rfl rfl

/-! ## Payloads -/

/-- A ping that has come to its end is answered. -/
def conclusion (p : PartialPayload) : Effect :=
  match p.purpose with
  | .ping =>
    { output := (ServerFrame.pong p.echo.toList).encode, notices := [.pongSent p.echo.size] }
  | .data | .pong => {}

theorem outcome_payload_zero {p : PartialPayload} (h : p.remaining = 0) (bytes : List UInt8) :
    (payload p).outcome bytes = (header.outcome bytes).after (conclusion p) := by
  have hstep : (payload p).step (.holding bytes) = finish p (.holding bytes) := by
    simp only [step, readPayload, h, if_true]
  cases hp : p.purpose with
  | data | pong =>
    simp only [finish, hp] at hstep
    simpa [conclusion, hp] using outcome_of_none hstep rfl rfl
  | ping =>
    simp only [finish, hp] at hstep
    simpa [conclusion, hp] using outcome_of_none hstep rfl (Channel.write_holding _ _ _)

theorem outcome_payload_nil {p : PartialPayload} (h : p.remaining ≠ 0) :
    (payload p).outcome [] = (payload p).waiting [] := by
  apply outcome_of_pending
  simp [step, readPayload, h]

private theorem outcome_payload_step {p : PartialPayload} {bytes : List UInt8} {n : Nat}
    (hn : n = min p.remaining bytes.length) (hpos : n ≠ 0) :
    (payload p).outcome bytes =
      ((payload (p.absorb (bytes.take n))).outcome (bytes.drop n)).after
        { data := p.yield (bytes.take n) } := by
  have hrem : p.remaining ≠ 0 := by omega
  have hle : n ≤ bytes.length := by omega
  have hlen : (bytes.take n).length = n := List.length_take_of_le hle
  have hcount : min p.remaining (Channel.holding bytes).available = n := hn.symm
  have hstep : (payload p).step (.holding bytes) =
      if p.purpose = .pong then dropPayload p n (.holding bytes)
      else takePayload p n (.holding bytes) := by
    simp only [step, readPayload, hcount, hrem, hpos, if_false]
  by_cases hpong : p.purpose = .pong
  · simp only [hpong, if_true, dropPayload, Channel.skip_holding] at hstep
    have habsorb : p.absorb (bytes.take n) = { p with remaining := p.remaining - n } := by
      simp [PartialPayload.absorb, hpong, hlen]
    rw [outcome_of_none hstep rfl rfl, habsorb]
    simp [PartialPayload.yield, hpong]
  · simp only [hpong, if_false, takePayload, Channel.read_holding bytes #[] hle, hlen, hpos]
      at hstep
    have habsorb : p.absorb (bytes.take n) =
        { p with
          remaining := p.remaining - n
          mask := p.mask.advance n
          echo :=
            if p.purpose = .ping then p.echo ++ p.mask.apply (bytes.take n) else p.echo } := by
      simp only [PartialPayload.absorb, hpong, hlen, if_false]
    rw [outcome_of_none hstep rfl rfl, habsorb]
    by_cases hdata : p.purpose = .data <;> simp [PartialPayload.yield, hdata]

/-- A payload may be taken in any pieces. -/
theorem outcome_payload_append {p : PartialPayload} {piece : List UInt8}
    (h : piece.length ≤ p.remaining) (rest : List UInt8) :
    (payload p).outcome (piece ++ rest) =
      ((payload (p.absorb piece)).outcome rest).after { data := p.yield piece } := by
  cases piece with
  | nil => simp
  | cons b bs =>
    generalize hpiece : b :: bs = piece at h ⊢
    have hlen : piece.length ≠ 0 := by simp [← hpiece]
    -- The step takes `piece` and as much of `rest` as the payload still wants.
    let more := min (p.remaining - piece.length) rest.length
    have hn : piece.length + more = min p.remaining (piece ++ rest).length := by
      rw [List.length_append]
      omega
    have htake : (piece ++ rest).take (piece.length + more) = piece ++ rest.take more := by
      rw [List.take_append, List.take_of_length_le (Nat.le_add_right _ _), Nat.add_sub_cancel_left]
    have hdrop : (piece ++ rest).drop (piece.length + more) = rest.drop more := by
      rw [List.drop_append, List.drop_of_length_le (Nat.le_add_right _ _), Nat.add_sub_cancel_left,
        List.nil_append]
    rw [outcome_payload_step hn (by omega), htake, hdrop, p.absorb_append, p.yield_append]
    by_cases hmore : more = 0
    · simp [hmore]
    · have hrem : (p.absorb piece).remaining = p.remaining - piece.length := rfl
      rw [outcome_payload_step (p := p.absorb piece) (n := more) (by rw [hrem]) hmore,
        Outcome.after_after]
      rfl

end FrameReader

end WebSocket
