import WebSocket.Proofs.Frame.Registers

/-!
# What registers come to

All that registers hold after a call, what is left in them of earlier frames included, depends on
where they began and on the bytes that were taken: not on what the channel has been written, on how
it rations its bytes, or on the number of the session (`decode_settles`, `decode_under`).
-/

namespace WebSocket.Registers

open FrameReader (Verdict)

/-! ## Under another number -/

def Turn.under (t : Turn) (id : UInt32) (sent : Array UInt8) : Turn :=
  { t with registers := t.registers.setId id, channel := t.channel.after sent }

private theorem readHeader_under (s : Registers) (first second : UInt8) (ch : Channel)
    (id : UInt32) (sent : Array UInt8) :
    (s.setId id).readHeader first second (ch.after sent) =
      (s.readHeader first second ch).under id sent := by
  unfold readHeader
  split
  · rfl
  · split
    · simp only [Turn.under, Channel.write_after]
      rfl
    · split
      · rfl
      · unfold expect
        dsimp only
        cases LengthForm.ofCode (second.toNat % 128) <;> rfl

private theorem finish_under (s : Registers) (ch : Channel) (id : UInt32) (sent : Array UInt8) :
    (s.setId id).finish (ch.after sent) = (s.finish ch).under id sent := by
  have hkind : (s.setId id).kind = s.kind := rfl
  unfold finish
  rw [hkind]
  split
  · simp only [Turn.under, Channel.write_after]
    rfl
  · rfl

private theorem takePayload_under (s : Registers) (keeps : Bool) (count : Nat) (ch : Channel)
    (id : UInt32) (sent : Array UInt8) :
    (s.setId id).takePayload keeps count (ch.after sent) =
      (s.takePayload keeps count ch).under id sent := by
  have hread : (ch.after sent).read count = ((ch.read count).1, (ch.read count).2.after sent) := rfl
  unfold takePayload
  rw [hread]
  dsimp only
  split
  · rfl
  · split <;> rfl

private theorem readPayload_under (s : Registers) (ch : Channel) (id : UInt32)
    (sent : Array UInt8) :
    (s.setId id).readPayload (ch.after sent) = (s.readPayload ch).under id sent := by
  have havailable : (ch.after sent).available = ch.available := rfl
  have hkind : (s.setId id).kind = s.kind := rfl
  have hremaining : (s.setId id).remaining = s.remaining := rfl
  unfold readPayload
  rw [havailable, hkind, hremaining, finish_under]
  dsimp only
  split
  · rfl
  · split
    · rfl
    · cases s.kind with
      | none => rfl
      | some purpose =>
        cases purpose with
        | data | ping => exact takePayload_under _ _ _ _ _ _
        | pong => rfl

theorem step_under (s : Registers) (ch : Channel) (id : UInt32) (sent : Array UInt8) :
    (s.setId id).step (ch.after sent) = (s.step ch).under id sent := by
  have havailable : (ch.after sent).available = ch.available := rfl
  have hread (n : Nat) :
      (ch.after sent).readExact n = ((ch.readExact n).1, (ch.readExact n).2.after sent) := rfl
  have hstage : (s.setId id).stage = s.stage := rfl
  unfold step
  rw [hstage]
  cases s.stage with
  | header =>
    dsimp only
    rw [havailable, hread]
    split
    · rfl
    · exact readHeader_under _ _ _ _ _ _
  | length16 | length64 | maskKey =>
    dsimp only
    rw [havailable, hread]
    split <;> rfl
  | payload => exact readPayload_under _ _ _ _
  | closed => rfl

/-- A call depends neither on the number of the session nor on what has been sent before. -/
theorem decode_under (s : Registers) (ch : Channel) (id : UInt32) (sent : Array UInt8) :
    (s.setId id).decode (ch.after sent) =
      ((s.decode ch).1.setId id,
        { (s.decode ch).2 with channel := (s.decode ch).2.channel.after sent }) := by
  induction hw : s.weight ch using Nat.strongRecOn generalizing s ch with
  | ind w ih =>
    have hstep := s.step_under ch id sent
    cases h : (s.step ch).verdict with
    | some verdict =>
      have h' : ((s.setId id).step (ch.after sent)).verdict = some verdict := by rw [hstep]; exact h
      rw [decode_of_some h, decode_of_some h', hstep]
      rfl
    | none =>
      have h' : ((s.setId id).step (ch.after sent)).verdict = none := by rw [hstep]; exact h
      have hlt := hw ▸ weight_step h
      rw [decode_of_none h, decode_of_none h', hstep]
      simp only [Turn.under, ih _ hlt _ _ rfl]

theorem id_decode (s : Registers) (ch : Channel) : (s.decode ch).1.id = s.id := by
  have hself : ch.after #[] = ch := by simp [Channel.after]
  have hdecode := s.decode_under ch s.id #[]
  rw [hself] at hdecode
  exact congrArg (·.1.id) hdecode

/-! ## From the bytes alone -/

/-- The registers when they have been given these bytes, without limits. -/
def settle (s : Registers) (bytes : List UInt8) : Registers :=
  (s.decode (.holding bytes)).1

theorem decode_holding (s : Registers) (bytes : List UInt8) (sent : Array UInt8) :
    (s.decode (.holding bytes sent)).1 = s.settle bytes := by
  have hdecode := s.decode_under (.holding bytes) s.id sent
  rw [Channel.after_holding, Array.append_empty] at hdecode
  have hid : (s.settle bytes).setId s.id = s.settle bytes := by
    rw [← s.id_decode (.holding bytes)]
    rfl
  exact (congrArg Prod.fst hdecode).trans hid

theorem settle_setId (s : Registers) (id : UInt32) (bytes : List UInt8) :
    (s.setId id).settle bytes = (s.settle bytes).setId id := by
  have hdecode := s.decode_under (.holding bytes) id #[]
  rw [Channel.after_holding, Array.append_empty] at hdecode
  exact congrArg Prod.fst hdecode

theorem settle_of_some {s : Registers} {bytes : List UInt8} {verdict : Verdict}
    (h : (s.step (.holding bytes)).verdict = some verdict) :
    s.settle bytes = (s.step (.holding bytes)).registers := by
  rw [settle, decode_of_some h]

theorem settle_of_suspend {s : Registers} {bytes : List UInt8}
    (h : s.step (.holding bytes) = s.suspend (.holding bytes)) : s.settle bytes = s := by
  have hverdict : (s.step (.holding bytes)).verdict = some .pending := by rw [h]; rfl
  rw [settle_of_some hverdict, h]
  rfl

theorem settle_of_none {s : Registers} {bytes rest : List UInt8} {sent : Array UInt8}
    (h : (s.step (.holding bytes)).verdict = none)
    (hchannel : (s.step (.holding bytes)).channel = .holding rest sent) :
    s.settle bytes = (s.step (.holding bytes)).registers.settle rest := by
  rw [settle, decode_of_none h, hchannel]
  exact decode_holding _ _ _

/-! ### One step -/

/-- A turn has taken these bytes. If there is another step to do, the bytes behind them come to what
they come to from there; otherwise the registers are what they come to on these bytes alone. -/
structure Settles (s : Registers) (ch : Channel) (t : Turn) (piece : List UInt8) : Prop where
  bytes : ch.inbox.bytes = piece ++ t.channel.inbox.bytes
  goes : t.verdict = none → ∀ more, s.settle (piece ++ more) = t.registers.settle more
  stops : t.verdict ≠ none → s.settle piece = t.registers
  waits : t.verdict = some .pending → piece = [] ∧ t.registers = s

private theorem settles_suspend {s : Registers} (h : s.settle [] = s) (ch : Channel) :
    Settles s ch (s.suspend ch) [] where
  bytes := rfl
  goes := nofun
  stops := fun _ => h
  waits := fun _ => ⟨rfl, rfl⟩

/-- What is done with an item of `n` bytes has nothing to do with the channel. -/
private structure Apart {n : Nat} (next : Vector UInt8 n → Channel → Turn) : Prop where
  registers : ∀ item a b, (next item a).registers = (next item b).registers
  verdict : ∀ item a b, (next item a).verdict = (next item b).verdict
  pending : ∀ item ch, (next item ch).verdict ≠ some .pending
  inbox : ∀ item ch, (next item ch).channel.inbox = ch.inbox
  channel : ∀ item ch, (next item ch).verdict = none → (next item ch).channel = ch

private theorem exists_settles_item {s : Registers} {n : Nat}
    {next : Vector UInt8 n → Channel → Turn} (hn : 0 < n) (hnext : Apart next)
    (hstep : ∀ ch, s.step ch =
      if ch.available < n then s.suspend ch else next (ch.readExact n).1 (ch.readExact n).2)
    (ch : Channel) : ∃ piece, Settles s ch (s.step ch) piece := by
  -- The limits of the channel only decide whether the item is taken.
  have hempty : s.step (.holding []) = s.suspend (.holding []) := by
    rw [hstep]
    exact if_pos hn
  have hitem (item : Vector UInt8 n) (more : List UInt8) :
      s.step (.holding (item.toList ++ more)) = next item (.holding more) := by
    have hlength : ¬ (Channel.holding (item.toList ++ more)).available < n := by simp
    rw [hstep, if_neg hlength, Channel.readExact_holding_append]
  rw [hstep]
  split
  · exact ⟨[], settles_suspend (settle_of_suspend hempty) ch⟩
  · rename_i havailable
    have hle := Nat.le_trans (Nat.le_of_not_lt havailable) ch.available_le
    generalize hread : ch.readExact n = taken
    obtain ⟨item, rest⟩ := taken
    refine ⟨item.toList, ?_, ?_, ?_, ?_⟩
    · have hbytes := Channel.bytes_readExact hle
      rw [hread] at hbytes
      rw [hnext.inbox]
      exact hbytes.symm
    · intro hnone more
      have hnone' : (s.step (.holding (item.toList ++ more))).verdict = none := by
        rw [hitem, hnext.verdict item _ rest]
        exact hnone
      have hchannel : (s.step (.holding (item.toList ++ more))).channel = .holding more := by
        rw [hitem] at hnone' ⊢
        exact hnext.channel _ _ hnone'
      rw [settle_of_none hnone' hchannel, hitem, hnext.registers item _ rest]
    · intro hsome
      obtain ⟨verdict, hverdict⟩ := Option.ne_none_iff_exists'.mp hsome
      have hitem' := hitem item []
      rw [List.append_nil] at hitem'
      have hverdict' : (s.step (.holding item.toList)).verdict = some verdict := by
        rw [hitem', hnext.verdict item _ rest]
        exact hverdict
      rw [settle_of_some hverdict', hitem', hnext.registers item _ rest]
    · intro hpending
      exact absurd hpending (hnext.pending _ _)

private theorem apart_readHeader (s : Registers) :
    Apart fun (header : Vector UInt8 2) =>
      s.readHeader (header.get ⟨0, Nat.zero_lt_two⟩) (header.get ⟨1, Nat.one_lt_two⟩) := by
  refine ⟨?_, ?_, ?_, ?_, ?_⟩ <;> intro header
  all_goals
    generalize header.get ⟨0, Nat.zero_lt_two⟩ = first
    generalize header.get ⟨1, Nat.one_lt_two⟩ = second
    unfold readHeader
    cases Opcode.ofByte? first with
    | none => simp
    | some opcode =>
      dsimp only
      by_cases hclose : opcode = .close
      · simp [hclose, Channel.write]
      · by_cases hmask : second.toNat < 128 <;> simp [hclose, hmask]

private theorem apart_readLength (s : Registers) (n : Nat) : Apart (s.readLength (n := n)) where
  registers := fun _ _ _ => rfl
  verdict := fun _ _ _ => rfl
  pending := fun _ _ => nofun
  inbox := fun _ _ => rfl
  channel := fun _ _ _ => rfl

private theorem apart_readMaskKey (s : Registers) : Apart s.readMaskKey where
  registers := fun _ _ _ => rfl
  verdict := fun _ _ _ => rfl
  pending := fun _ _ => nofun
  inbox := fun _ _ => rfl
  channel := fun _ _ _ => rfl

/-! ### Payloads -/

/-- The registers after these bytes of a payload. -/
def absorb (s : Registers) (piece : List UInt8) : Registers :=
  match s.kind with
  | some .data => s.unmask piece.length
  | some .ping => { s.unmask piece.length with echo := s.echo ++ s.mask.apply piece }
  | some .pong => { s with remaining := s.remaining - piece.length }
  | none => s

private theorem remaining_absorb {s : Registers} (hkind : s.kind ≠ none) (piece : List UInt8) :
    (s.absorb piece).remaining = s.remaining - piece.length := by
  unfold absorb
  split
  · rfl
  · rfl
  · rfl
  · contradiction

private theorem kind_absorb (s : Registers) (piece : List UInt8) :
    (s.absorb piece).kind = s.kind := by
  unfold absorb
  split <;> rfl

private theorem stage_absorb (s : Registers) (piece : List UInt8) :
    (s.absorb piece).stage = s.stage := by
  unfold absorb
  split <;> rfl

theorem absorb_absorb (s : Registers) (a b : List UInt8) :
    (s.absorb a).absorb b = s.absorb (a ++ b) := by
  cases hkind : s.kind with
  | none => simp only [absorb, hkind]
  | some purpose =>
    cases purpose with
    | data => simp [absorb, unmask, hkind, Mask.advance_advance, Nat.sub_sub]
    | pong => simp [absorb, hkind, Nat.sub_sub]
    | ping =>
      have hecho : s.echo ++ s.mask.apply a ++ (s.mask.advance a.length).apply b =
          s.echo ++ s.mask.apply (a ++ b) := by
        apply Array.toList_inj.mp
        simp [Mask.apply_append]
      simp [absorb, unmask, hkind, Mask.advance_advance, Nat.sub_sub, hecho]

private theorem takePayload_of_given {s : Registers} {count : Nat} {ch : Channel}
    (h : (ch.read count).1 ≠ []) (keeps : Bool) :
    (s.takePayload keeps count ch).verdict = none ∧
      (s.takePayload keeps count ch).channel = (ch.read count).2 ∧
      (s.takePayload keeps count ch).registers =
        if keeps then
          { s.unmask (ch.read count).1.length with echo := s.echo ++ s.mask.apply (ch.read count).1 }
        else s.unmask (ch.read count).1.length := by
  have hlength : (ch.read count).1.length ≠ 0 := fun hzero => h (List.length_eq_zero_iff.mp hzero)
  unfold takePayload
  dsimp only
  rw [if_neg hlength]
  split <;> exact ⟨rfl, rfl, rfl⟩

private theorem exists_absorbs {s : Registers} {ch : Channel} (hkind : s.kind ≠ none)
    (hremaining : s.remaining ≠ 0) (havailable : ch.available ≠ 0) :
    ∃ piece, ch.inbox.bytes = piece ++ (s.readPayload ch).channel.inbox.bytes ∧
      piece.length ≤ s.remaining ∧
      ((s.readPayload ch).verdict = some .pending ∧ piece = [] ∧ (s.readPayload ch).registers = s ∨
        (s.readPayload ch).verdict = none ∧ piece ≠ [] ∧
          (s.readPayload ch).registers = s.absorb piece) := by
  have hle := ch.available_le
  obtain ⟨count, hcount⟩ : ∃ count, min s.remaining ch.available = count := ⟨_, rfl⟩
  have hread := ch.read_append count
  have hgiven : (ch.read count).1.length ≤ s.remaining := by
    have hasked := ch.readCount_le count
    rw [ch.length_read]
    omega
  unfold readPayload
  dsimp only
  rw [if_neg hremaining, if_neg havailable, hcount]
  cases hkind' : s.kind with
  | none => exact absurd hkind' hkind
  | some purpose =>
    cases purpose with
    | pong =>
      refine ⟨ch.inbox.bytes.take count, (List.take_append_drop _ _).symm, ?_, .inr ⟨rfl, ?_, ?_⟩⟩
      · rw [List.length_take]
        omega
      · intro hnil
        have hlength := congrArg List.length hnil
        rw [List.length_take, ← ch.inbox.size_eq, List.length_nil] at hlength
        omega
      · have hlength : (ch.inbox.bytes.take count).length = count := by
          rw [List.length_take, ← ch.inbox.size_eq]
          omega
        simp only [absorb, hkind', dropPayload, hlength]
    | data | ping =>
      by_cases hnil : (ch.read count).1 = []
      · rw [hnil, List.nil_append] at hread
        refine ⟨[], ?_, Nat.zero_le _, .inl ?_⟩
        · simp [takePayload, hnil, suspend, hread]
        · simp [takePayload, hnil, suspend]
      · obtain ⟨hverdict, hchannel, hregisters⟩ := takePayload_of_given (s := s) hnil _
        refine ⟨(ch.read count).1, ?_, hgiven, .inr ⟨hverdict, hnil, ?_⟩⟩
        · rw [hchannel, hread]
        · rw [hregisters]
          simp [absorb, hkind']

private theorem settle_payload {s : Registers} {bytes : List UInt8} (hstage : s.stage = .payload)
    (hkind : s.kind ≠ none) (hremaining : s.remaining ≠ 0) (hbytes : bytes ≠ []) :
    s.settle bytes = (s.absorb (bytes.take s.remaining)).settle (bytes.drop s.remaining) := by
  have hlength : bytes.length ≠ 0 := fun hzero => hbytes (List.length_eq_zero_iff.mp hzero)
  have hstep : s.step (.holding bytes) = s.readPayload (.holding bytes) := by
    simp only [step, hstage]
  obtain ⟨count, hcount⟩ : ∃ count, min s.remaining bytes.length = count := ⟨_, rfl⟩
  have htake : bytes.take s.remaining = bytes.take count := by
    rw [← hcount, ← List.take_eq_take_min]
  have hdrop : bytes.drop s.remaining = bytes.drop count := by
    rw [← hcount, ← List.drop_eq_drop_min]
  have hpiece : bytes.take count ≠ [] := by
    intro hnil
    have hzero := congrArg List.length hnil
    rw [List.length_take, List.length_nil] at hzero
    omega
  have hread := Channel.read_holding bytes #[] (show count ≤ bytes.length by omega)
  suffices hgoes : (s.step (.holding bytes)).verdict = none ∧
      (s.step (.holding bytes)).channel = .holding (bytes.drop count) ∧
      (s.step (.holding bytes)).registers = s.absorb (bytes.take count) by
    rw [settle_of_none hgoes.1 hgoes.2.1, hgoes.2.2, htake, hdrop]
  rw [hstep]
  unfold readPayload
  dsimp only
  rw [if_neg hremaining, Channel.available_holding, if_neg hlength, hcount]
  cases hkind' : s.kind with
  | none => exact absurd hkind' hkind
  | some purpose =>
    cases purpose with
    | pong =>
      have hlength : (bytes.take count).length = count := by
        rw [List.length_take]
        omega
      simp only [dropPayload, Channel.skip_holding, absorb, hkind', hlength, and_self]
    | data | ping =>
      have hgiven : ((Channel.holding bytes).read count).1 ≠ [] := by rwa [hread]
      obtain ⟨hverdict, hchannel, hregisters⟩ := takePayload_of_given (s := s) hgiven _
      rw [hread] at hchannel hregisters
      refine ⟨hverdict, hchannel, ?_⟩
      rw [hregisters]
      simp [absorb, hkind']

private theorem settle_absorb {s : Registers} {piece : List UInt8} (hstage : s.stage = .payload)
    (hkind : s.kind ≠ none) (hpiece : piece ≠ []) (hle : piece.length ≤ s.remaining)
    (more : List UInt8) : s.settle (piece ++ more) = (s.absorb piece).settle more := by
  have hpos : piece.length ≠ 0 := fun hzero => hpiece (List.length_eq_zero_iff.mp hzero)
  have hremaining : s.remaining ≠ 0 := by omega
  have hleft := remaining_absorb hkind piece
  -- On all the bytes the payload is taken as far as it goes, of which the piece is the front.
  rw [settle_payload hstage hkind hremaining (by simp [hpiece]), List.take_append, List.drop_append,
    List.take_of_length_le hle, List.drop_of_length_le hle, List.nil_append, ← hleft,
    ← absorb_absorb]
  by_cases hend : (s.absorb piece).remaining = 0 ∨ more = []
  · -- There is nothing more of this payload to take.
    rcases hend with hend | hend
    · rw [hend, List.take_zero, List.drop_zero, absorb_absorb, List.append_nil]
    · rw [hend, List.take_nil, List.drop_nil, absorb_absorb, List.append_nil]
  · have hend := not_or.mp hend
    rw [← settle_payload ((stage_absorb s piece).trans hstage) (by rwa [kind_absorb]) hend.1 hend.2]

private theorem settles_finish {s : Registers} (hstage : s.stage = .payload)
    (hremaining : s.remaining = 0) (ch : Channel) : Settles s ch (s.finish ch) [] := by
  have hstep (ch : Channel) : s.step ch = s.finish ch := by
    simp only [step, hstage, readPayload, hremaining, if_true]
  have hverdict (ch : Channel) : (s.finish ch).verdict = none := by
    unfold finish
    split <;> rfl
  have hinbox : (s.finish ch).channel.inbox = ch.inbox := by
    unfold finish
    split <;> rfl
  have hmore (more : List UInt8) : ∃ sent, (s.finish (.holding more)).channel = .holding more sent ∧
      (s.finish (.holding more)).registers = (s.finish ch).registers := by
    unfold finish
    split
    · exact ⟨_, Channel.write_holding _ _ _, rfl⟩
    · exact ⟨_, rfl, rfl⟩
  refine ⟨by rw [hinbox]; rfl, ?_, ?_, ?_⟩
  · intro _ more
    obtain ⟨sent, hchannel, hregisters⟩ := hmore more
    have hnone := hverdict (.holding more)
    rw [← hstep] at hchannel hnone
    rw [List.nil_append, settle_of_none hnone hchannel, hstep, hregisters]
  · exact fun hsome => absurd (hverdict ch) hsome
  · intro hpending
    rw [hverdict ch] at hpending
    cases hpending

private theorem exists_settles_payload {s : Registers} (hstage : s.stage = .payload)
    (hkind : s.kind ≠ none) (ch : Channel) : ∃ piece, Settles s ch (s.readPayload ch) piece := by
  by_cases hremaining : s.remaining = 0
  · refine ⟨[], ?_⟩
    simp only [readPayload, hremaining, if_true]
    exact settles_finish hstage hremaining ch
  have hempty : s.settle [] = s := by
    apply settle_of_suspend
    simp [step, hstage, readPayload, hremaining]
  by_cases havailable : ch.available = 0
  · refine ⟨[], ?_⟩
    simp only [readPayload, hremaining, havailable, if_true, if_false]
    exact settles_suspend hempty ch
  obtain ⟨piece, hbytes, hle, hwaits | hgoes⟩ := exists_absorbs hkind hremaining havailable
  · obtain ⟨hverdict, rfl, hregisters⟩ := hwaits
    refine ⟨[], hbytes, ?_, ?_, fun _ => ⟨rfl, hregisters⟩⟩
    · intro hnone
      rw [hverdict] at hnone
      cases hnone
    · intro _
      rw [hempty, hregisters]
  · obtain ⟨hverdict, hpiece, hregisters⟩ := hgoes
    refine ⟨piece, hbytes, ?_, fun hsome => absurd hverdict hsome, ?_⟩
    · intro _ more
      rw [hregisters]
      exact settle_absorb hstage hkind hpiece hle more
    · intro hpending
      rw [hverdict] at hpending
      cases hpending

/-! ### A call -/

private theorem exists_settles_step {s : Registers} (h : s.Purposeful) (ch : Channel) :
    ∃ piece, Settles s ch (s.step ch) piece := by
  cases hstage : s.stage with
  | header =>
    exact exists_settles_item (by decide) (apart_readHeader s) (fun ch => by simp only [step, hstage])
      ch
  | length16 =>
    exact exists_settles_item (by decide) (apart_readLength s 2)
      (fun ch => by simp only [step, hstage]) ch
  | length64 =>
    exact exists_settles_item (by decide) (apart_readLength s 8)
      (fun ch => by simp only [step, hstage]) ch
  | maskKey =>
    exact exists_settles_item (by decide) (apart_readMaskKey s)
      (fun ch => by simp only [step, hstage]) ch
  | payload =>
    obtain ⟨piece, hsettles⟩ := exists_settles_payload hstage (h hstage) ch
    have hstep : s.step ch = s.readPayload ch := by simp only [step, hstage]
    rw [← hstep] at hsettles
    exact ⟨piece, hsettles⟩
  | closed =>
    have hstep (ch : Channel) :
        s.step ch = { registers := s, channel := ch, verdict := some .closed } := by
      simp only [step, hstage]
    refine ⟨[], ?_⟩
    rw [hstep]
    refine ⟨rfl, ?_, ?_, ?_⟩
    · intro hnone
      cases hnone
    · intro _
      have hverdict : (s.step (.holding [])).verdict = some .closed := by rw [hstep]
      rw [settle_of_some hverdict, hstep]
    · intro hpending
      cases hpending

/-- After a call the registers are what they come to on the bytes that were taken. If it waits, more
bytes come to what they come to from there. -/
theorem Holds.decode_settles {id : UInt32} {s : Registers} {r : FrameReader} (h : Holds id s r)
    (ch : Channel) :
    ∃ taken, ch.inbox.bytes = taken ++ (s.decode ch).2.channel.inbox.bytes ∧
      s.settle taken = (s.decode ch).1 ∧
      ((s.decode ch).2.verdict = .pending →
        ∀ more, s.settle (taken ++ more) = (s.decode ch).1.settle more) := by
  -- By steps: one that leads on leaves the bytes behind its own to the rest of the call, and one that
  -- waits has taken none.
  induction hw : s.weight ch using Nat.strongRecOn generalizing s r ch with
  | ind w ih =>
    obtain ⟨piece, hsettles⟩ := exists_settles_step h.purposeful ch
    cases hverdict : (s.step ch).verdict with
    | some verdict =>
      rw [decode_of_some hverdict]
      refine ⟨piece, hsettles.bytes, hsettles.stops (by simp [hverdict]), ?_⟩
      rintro rfl more
      obtain ⟨rfl, hregisters⟩ := hsettles.waits hverdict
      rw [hregisters, List.nil_append]
    | none =>
      obtain ⟨taken, hbytes, hsettle, hmore⟩ :=
        ih _ (hw ▸ weight_step hverdict) (matches_step h ch).holds _ rfl
      rw [decode_of_none hverdict]
      have hgoes := hsettles.goes hverdict
      refine ⟨piece ++ taken, ?_, ?_, ?_⟩
      · rw [hsettles.bytes, hbytes, List.append_assoc]
      · rw [hgoes, hsettle]
      · intro hpending more
        rw [List.append_assoc, hgoes]
        exact hmore hpending more

end WebSocket.Registers
