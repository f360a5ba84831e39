import WebSocket.Frame.Registers
import WebSocket.Proofs.Frame.Rounds

/-!
# Registers and readers agree

What registers hold beyond the state of a reader is what earlier frames have left there. It is never
looked at (`Holds`), so every call of the one does what the call of the other does (`agree`).
-/

namespace WebSocket.Registers

open FrameReader (Verdict)

/-- The registers hold the state of a reader. Their other fields are what earlier frames have left
there, but no count and no part of a ping is left over. -/
inductive Holds (id : UInt32) : Registers → FrameReader → Prop where
  | header (kind : Option Purpose) (mask : Mask) :
      Holds id { id, stage := .header, kind, mask } .header
  | length16 (purpose : Purpose) (mask : Mask) :
      Holds id { id, stage := .length16, kind := some purpose, mask } (.length16 purpose)
  | length64 (purpose : Purpose) (mask : Mask) :
      Holds id { id, stage := .length64, kind := some purpose, mask } (.length64 purpose)
  | maskKey (purpose : Purpose) (length : Nat) (mask : Mask) :
      Holds id { id, stage := .maskKey, remaining := length, kind := some purpose, mask }
        (.maskKey purpose length)
  | payload (p : PartialPayload) (hecho : p.purpose ≠ .ping → p.echo = #[]) :
      Holds id
        { id, stage := .payload, remaining := p.remaining, kind := some p.purpose, mask := p.mask
          echo := p.echo }
        (.payload p)
  | closed (kind : Option Purpose) (mask : Mask) :
      Holds id { id, stage := .closed, kind, mask } .closed

/-- Two turns do the same, and the registers go on holding the state of the reader. -/
structure Turn.Matches (id : UInt32) (t : Turn) (u : FrameReader.Turn) : Prop where
  holds : Holds id t.registers u.reader
  channel : t.channel = u.channel
  verdict : t.verdict = u.verdict
  delivered : t.delivered = u.delivered
  trace : t.trace = u.trace

variable {id : UInt32} {s : Registers} {r : FrameReader}

/-- The payload of a frame is not read without a purpose. -/
def Purposeful (s : Registers) : Prop :=
  s.stage = .payload → s.kind ≠ none

theorem Holds.purposeful (h : Holds id s r) : s.Purposeful := by
  intro hstage
  cases h with
  | payload p hecho => exact nofun
  | header _ _ | length16 _ _ | length64 _ _ | maskKey _ _ _ | closed _ _ => cases hstage

private theorem matches_suspend (h : Holds id s r) (ch : Channel) :
    (s.suspend ch).Matches id (r.suspend ch) :=
  ⟨h, rfl, rfl, rfl, rfl⟩

private theorem holds_expect (purpose : Purpose) (mask : Mask) (code : Nat) :
    Holds id (expect { id, kind := some purpose, mask } code)
      (FrameReader.afterHeader purpose code) := by
  unfold expect FrameReader.afterHeader
  cases LengthForm.ofCode code with
  | short => exact .maskKey purpose code mask
  | twoBytes => exact .length16 purpose mask
  | eightBytes => exact .length64 purpose mask

private theorem matches_readHeader (kind : Option Purpose) (mask : Mask) (first second : UInt8)
    (ch : Channel) :
    (readHeader { id, kind, mask } first second ch).Matches id
      (FrameReader.readHeader first second ch) := by
  unfold readHeader FrameReader.readHeader
  cases Opcode.ofByte? first with
  | none => exact ⟨.header kind mask, rfl, rfl, rfl, rfl⟩
  | some opcode =>
    dsimp only
    cases hpurpose : opcode.purpose? with
    | none =>
      rw [if_pos (Opcode.purpose?_eq_none_iff.mp hpurpose)]
      exact ⟨.closed kind mask, rfl, rfl, rfl, rfl⟩
    | some purpose =>
      have hclose : opcode ≠ .close := by
        rintro rfl
        cases hpurpose
      rw [if_neg hclose]
      dsimp only
      split
      · exact ⟨.header kind mask, rfl, rfl, rfl, rfl⟩
      · exact ⟨holds_expect purpose mask _, rfl, rfl, rfl, rfl⟩

/-- The registers while this payload is read. -/
private def holding (id : UInt32) (p : PartialPayload) : Registers :=
  { id, stage := .payload, remaining := p.remaining, kind := some p.purpose, mask := p.mask
    echo := p.echo }

variable {p : PartialPayload}

private theorem matches_finish (hecho : p.purpose ≠ .ping → p.echo = #[]) (hzero : p.remaining = 0)
    (ch : Channel) : ((holding id p).finish ch).Matches id (FrameReader.finish p ch) := by
  unfold finish FrameReader.finish holding
  rw [hzero]
  cases hp : p.purpose with
  | ping => exact ⟨.header _ p.mask, rfl, rfl, rfl, rfl⟩
  | data | pong =>
    rw [hecho (by simp [hp])]
    exact ⟨.header _ p.mask, rfl, rfl, rfl, rfl⟩

private theorem matches_takePayload (hecho : p.purpose ≠ .ping → p.echo = #[])
    (hpong : p.purpose ≠ .pong) (count : Nat) (ch : Channel) :
    ((holding id p).takePayload (p.purpose = .ping) count ch).Matches id
      (FrameReader.takePayload p count ch) := by
  unfold takePayload FrameReader.takePayload
  dsimp only
  by_cases hgiven : (ch.read count).1.length = 0
  · rw [if_pos hgiven, if_pos hgiven]
    exact ⟨.payload p hecho, rfl, rfl, rfl, rfl⟩
  rw [if_neg hgiven, if_neg hgiven]
  cases hp : p.purpose with
  | data =>
    rw [hp] at hecho
    refine ⟨?_, rfl, rfl, rfl, rfl⟩
    simp only [unmask, holding, hp]
    exact .payload { purpose := .data, remaining := _, mask := _, echo := p.echo } hecho
  | ping =>
    refine ⟨?_, rfl, rfl, rfl, rfl⟩
    simp only [unmask, holding, hp]
    exact .payload { purpose := .ping, remaining := _, mask := _, echo := _ } (absurd rfl)
  | pong => exact absurd hp hpong

private theorem matches_readPayload (hecho : p.purpose ≠ .ping → p.echo = #[]) (ch : Channel) :
    ((holding id p).readPayload ch).Matches id (FrameReader.readPayload p ch) := by
  unfold readPayload FrameReader.readPayload
  simp only [show (holding id p).remaining = p.remaining from rfl,
    show (holding id p).kind = some p.purpose from rfl]
  by_cases hzero : p.remaining = 0
  · rw [if_pos hzero, if_pos hzero]
    exact matches_finish hecho hzero ch
  rw [if_neg hzero, if_neg hzero]
  by_cases havailable : ch.available = 0
  · have hcount : min p.remaining ch.available = 0 := by omega
    rw [if_pos havailable, if_pos hcount]
    exact matches_suspend (.payload p hecho) ch
  have hcount : min p.remaining ch.available ≠ 0 := by omega
  rw [if_neg havailable, if_neg hcount]
  cases hp : p.purpose with
  | data | ping =>
    have hpong : p.purpose ≠ .pong := by simp [hp]
    simpa [hp] using matches_takePayload hecho hpong (min p.remaining ch.available) ch
  | pong =>
    rw [if_pos rfl]
    refine ⟨?_, rfl, rfl, rfl, rfl⟩
    simp only [holding, dropPayload, FrameReader.dropPayload, hp]
    rw [hp] at hecho
    exact .payload { purpose := .pong, remaining := _, mask := p.mask, echo := p.echo } hecho

/-- A step of the registers is the step of the reader whose state they hold. -/
theorem matches_step (h : Holds id s r) (ch : Channel) : (s.step ch).Matches id (r.step ch) := by
  cases h with
  | header kind mask =>
    simp only [step, FrameReader.step, Channel.takeExact?]
    by_cases havailable : ch.available < 2
    · rw [if_pos havailable, if_pos havailable]
      exact matches_suspend (.header kind mask) ch
    · rw [if_neg havailable, if_neg havailable]
      exact matches_readHeader kind mask _ _ _
  | length16 purpose mask =>
    simp only [step, FrameReader.step, Channel.takeExact?]
    by_cases havailable : ch.available < 2
    · rw [if_pos havailable, if_pos havailable]
      exact matches_suspend (.length16 purpose mask) ch
    · rw [if_neg havailable, if_neg havailable]
      exact ⟨.maskKey purpose _ mask, rfl, rfl, rfl, rfl⟩
  | length64 purpose mask =>
    simp only [step, FrameReader.step, Channel.takeExact?]
    by_cases havailable : ch.available < 8
    · rw [if_pos havailable, if_pos havailable]
      exact matches_suspend (.length64 purpose mask) ch
    · rw [if_neg havailable, if_neg havailable]
      exact ⟨.maskKey purpose _ mask, rfl, rfl, rfl, rfl⟩
  | maskKey purpose length mask =>
    simp only [step, FrameReader.step, Channel.takeExact?]
    by_cases havailable : ch.available < 4
    · rw [if_pos havailable, if_pos havailable]
      exact matches_suspend (.maskKey purpose length mask) ch
    · rw [if_neg havailable, if_neg havailable]
      exact ⟨.payload { purpose, remaining := length, mask := { key := (ch.readExact 4).1 } }
        (fun _ => rfl), rfl, rfl, rfl, rfl⟩
  | payload p hecho => exact matches_readPayload hecho ch
  | closed kind mask => exact ⟨.closed kind mask, rfl, rfl, rfl, rfl⟩

/-- So is a call: it does the same work. -/
theorem holds_decode (h : Holds id s r) (ch : Channel) :
    Holds id (s.decode ch).1 (r.decode ch).reader ∧ (s.decode ch).2 = (r.decoder ch).2 := by
  -- Along the steps of the reader: what is left in the other registers decides nothing.
  induction hw : r.weight ch using Nat.strongRecOn generalizing s r ch with
  | ind w ih =>
    have hstep := matches_step h ch
    cases hverdict : (r.step ch).verdict with
    | some verdict =>
      rw [decode_of_some (hstep.verdict.trans hverdict), FrameReader.decoder,
        FrameReader.decode_of_some hverdict, hstep.channel, hstep.delivered, hstep.trace]
      exact ⟨hstep.holds, rfl⟩
    | none =>
      obtain ⟨hholds, hwork⟩ := ih _ (hw ▸ FrameReader.weight_step hverdict) hstep.holds _ rfl
      rw [decode_of_none (hstep.verdict.trans hverdict), FrameReader.decoder,
        FrameReader.decode_of_none hverdict, hstep.channel, hstep.delivered, hstep.trace]
      dsimp only
      rw [hwork]
      exact ⟨hholds, rfl⟩

theorem agree (id : UInt32) : Agree (Holds id) decode FrameReader.decoder :=
  holds_decode

theorem holds_fresh (id : UInt32) : Holds id { id } .header :=
  .header _ _

/-- The registers come to what the reader comes to. -/
theorem like_run (id : UInt32) (rounds : List Round) :
    (Reading.run decode { reader := { id } } rounds).Like (Holds id)
      (Reading.run FrameReader.decoder { reader := .header } rounds) :=
  Agree.run (agree id) rounds ⟨holds_fresh id, rfl, rfl, rfl, rfl⟩

end WebSocket.Registers
