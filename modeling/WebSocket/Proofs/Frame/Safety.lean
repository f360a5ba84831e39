import WebSocket.Proofs.BigEndian
import WebSocket.Proofs.Frame.Registers
import WebSocket.Proofs.Positions

/-!
# Decoding within bounds

The checked form of decoding has no result where a read asks for more than is available or for
nothing, where a count falls below zero or does not fit its word, where a key byte is looked for
beyond the key, or where the payload of a close frame is read. It goes the way of the decoder
otherwise, and is shown to have the decoder's result in every state to which a decoder comes
(`Kept.decodeChecked_eq`), while all that ever arrived is less than a word can count.
-/

namespace WebSocket

/-! ## Checked forms -/

namespace Channel

/-- Fills a buffer of `n` bytes, which have to be there. -/
def readExactChecked (ch : Channel) (n : Nat) : Option (Vector UInt8 n × Channel) :=
  if n ≤ ch.available then some (ch.readExact n) else none

/-- Asks for some of the bytes that are there and wanted. -/
def readChecked (ch : Channel) (n wanted : Nat) : Option (List UInt8 × Channel) :=
  if 1 ≤ n ∧ n ≤ min ch.available wanted then some (ch.read n) else none

/-- Drops some of the bytes that are there and wanted, just as many as it is told. -/
def skipChecked (ch : Channel) (n wanted : Nat) : Option Channel :=
  if 1 ≤ n ∧ n ≤ min ch.available wanted ∧ (ch.skip n).inbox.size + n = ch.inbox.size then
    some (ch.skip n)
  else none

end Channel

namespace Registers

/-- The lengths of frames have words of their own. -/
def readLengthChecked {n : Nat} (s : Registers) (digits : Vector UInt8 n) (ch : Channel) :
    Option Turn := do
  let remaining ← fit? UInt64.size (BigEndian.value digits.toList)
  some
    { registers := { s with remaining, stage := .maskKey }, channel := ch
      trace := { calls := #[.readExact n] } }

/-- The bytes without their mask, and the registers after them. -/
def unmaskChecked (s : Registers) (masked : List UInt8) : Option (List UInt8 × Registers) := do
  let (plain, index) ← Mask.applyChecked s.mask.key s.mask.index masked
  let remaining ← sub? s.remaining masked.length
  if h : index < 4 then
    some (plain, { s with remaining, mask := { key := s.mask.key, index := ⟨index, h⟩ } })
  else none

def takePayloadChecked (s : Registers) (keeps : Bool) (count : Nat) (ch : Channel) :
    Option Turn := do
  let (masked, rest) ← ch.readChecked count s.remaining
  let (plain, next) ← s.unmaskChecked masked
  let trace : Trace := { calls := #[.read count masked.length] }
  if keeps then
    some { registers := { next with echo := s.echo ++ plain }, channel := rest, trace }
  else some { registers := next, channel := rest, delivered := #[plain], trace }

def dropPayloadChecked (s : Registers) (count : Nat) (ch : Channel) : Option Turn := do
  let rest ← ch.skipChecked count s.remaining
  let remaining ← sub? s.remaining count
  some
    { registers := { s with remaining }, channel := rest, trace := { calls := #[.skip count] } }

/-- What is available is compared with what remains in the word of the lengths, and the lesser of
the two taken back to a word with so many values. -/
def readPayloadChecked (values : Nat) (s : Registers) (ch : Channel) : Option Turn :=
  if s.remaining = 0 then some (s.finish ch)
  else if ch.available = 0 then some (s.suspend ch)
  else do
    let available ← fit? UInt64.size ch.available
    let count ← fit? values (min s.remaining available)
    match s.kind with
    | some .data => s.takePayloadChecked false count ch
    | some .ping => s.takePayloadChecked true count ch
    | some .pong => s.dropPayloadChecked count ch
    | none => none

def stepChecked (values : Nat) (s : Registers) (ch : Channel) : Option Turn :=
  match s.stage with
  | .header =>
    if ch.available < 2 then some (s.suspend ch)
    else do
      let (header, rest) ← ch.readExactChecked 2
      some (s.readHeader (header.get ⟨0, Nat.zero_lt_two⟩) (header.get ⟨1, Nat.one_lt_two⟩) rest)
  | .length16 =>
    if ch.available < 2 then some (s.suspend ch)
    else do
      let (digits, rest) ← ch.readExactChecked 2
      s.readLengthChecked digits rest
  | .length64 =>
    if ch.available < 8 then some (s.suspend ch)
    else do
      let (digits, rest) ← ch.readExactChecked 8
      s.readLengthChecked digits rest
  | .maskKey =>
    if ch.available < 4 then some (s.suspend ch)
    else do
      let (key, rest) ← ch.readExactChecked 4
      some (s.readMaskKey key rest)
  | .payload => s.readPayloadChecked values ch
  | .closed => some { registers := s, channel := ch, verdict := some .closed }

/-- A step that leaves as much to do as before would be made for ever. -/
def decodeChecked (values : Nat) (s : Registers) (ch : Channel) : Option (Registers × Work) :=
  match s.stepChecked values ch with
  | none => none
  | some turn =>
    match turn.verdict with
    | some verdict =>
      some (turn.registers,
        { channel := turn.channel, verdict, delivered := turn.delivered, trace := turn.trace })
    | none =>
      if turn.registers.weight turn.channel < s.weight ch then
        (decodeChecked values turn.registers turn.channel).map fun (last, later) =>
          (last,
            { later with
              delivered := turn.delivered ++ later.delivered, trace := turn.trace ++ later.trace })
      else none
termination_by s.weight ch

/-! ## One step -/

section

variable {values : Nat} {s : Registers} {ch : Channel}

private theorem readExactChecked_eq {n : Nat} (h : ¬ ch.available < n) :
    ch.readExactChecked n = some (ch.readExact n) :=
  if_pos (Nat.le_of_not_lt h)

private theorem value_lt_size {n : Nat} (digits : Vector UInt8 n) (h : 256 ^ n ≤ UInt64.size) :
    BigEndian.value digits.toList < UInt64.size := by
  have hvalue := BigEndian.value_lt digits.toList
  rw [Vector.length_toList] at hvalue
  exact Nat.lt_of_lt_of_le hvalue h

private theorem readLengthChecked_eq {n : Nat} (s : Registers) (digits : Vector UInt8 n)
    (h : 256 ^ n ≤ UInt64.size) (ch : Channel) :
    s.readLengthChecked digits ch = some (s.readLength digits ch) := by
  rw [readLengthChecked, fit?_of_lt (value_lt_size digits h)]
  rfl

private theorem unmaskChecked_eq {masked : List UInt8} (h : masked.length ≤ s.remaining) :
    s.unmaskChecked masked = some (s.mask.apply masked, s.unmask masked.length) := by
  have hindex := (s.mask.advance masked.length).index.isLt
  rw [unmaskChecked, Mask.applyChecked_eq, Option.bind_eq_bind, Option.bind_some]
  dsimp only
  rw [sub?_of_le h, Option.bind_eq_bind, Option.bind_some, dif_pos hindex]
  rfl

private theorem takePayloadChecked_eq {count : Nat} (hm : ch.maxRead ≠ some 0) (hpos : 1 ≤ count)
    (hle : count ≤ min ch.available s.remaining) (keeps : Bool) :
    s.takePayloadChecked keeps count ch = some (s.takePayload keeps count ch) := by
  have havailable := ch.available_le
  have hlength := ch.length_read count
  have hasked := ch.readCount_le count
  have hgiven : (ch.read count).1.length ≠ 0 := by
    rw [hlength]
    exact Channel.readCount_ne_zero hm (by omega) (by omega)
  have hfits : (ch.read count).1.length ≤ s.remaining := by omega
  have hread : ch.readChecked count s.remaining = some (ch.read count) := if_pos ⟨hpos, hle⟩
  rw [takePayloadChecked, hread, Option.bind_eq_bind, Option.bind_some]
  dsimp only
  rw [unmaskChecked_eq hfits, Option.bind_eq_bind, Option.bind_some, takePayload]
  dsimp only
  rw [if_neg hgiven]
  cases keeps <;> rfl

private theorem dropPayloadChecked_eq {count : Nat} (hpos : 1 ≤ count)
    (hle : count ≤ min ch.available s.remaining) :
    s.dropPayloadChecked count ch = some (s.dropPayload count ch) := by
  have havailable := ch.available_le
  have hdrops : (ch.skip count).inbox.size + count = ch.inbox.size :=
    Nat.sub_add_cancel (show count ≤ ch.inbox.size by omega)
  have hskip : ch.skipChecked count s.remaining = some (ch.skip count) := if_pos ⟨hpos, hle, hdrops⟩
  rw [dropPayloadChecked, hskip, Option.bind_eq_bind, Option.bind_some,
    sub?_of_le (show count ≤ s.remaining by omega)]
  rfl

private theorem readPayloadChecked_eq (hvalues : values ≤ UInt64.size) (hkind : s.kind ≠ none)
    (hm : ch.maxRead ≠ some 0) (havailable : ch.available < values) :
    s.readPayloadChecked values ch = some (s.readPayload ch) := by
  unfold readPayloadChecked readPayload
  dsimp only
  split
  · rfl
  · split
    · rfl
    · have hpos : 1 ≤ min s.remaining ch.available := by omega
      have hle : min s.remaining ch.available ≤ min ch.available s.remaining := by omega
      have hnarrow : min s.remaining ch.available < values := by omega
      rw [fit?_of_lt (Nat.lt_of_lt_of_le havailable hvalues), Option.bind_eq_bind, Option.bind_some,
        fit?_of_lt hnarrow, Option.bind_some]
      cases hkind' : s.kind with
      | none => exact absurd hkind' hkind
      | some purpose =>
        cases purpose with
        | data | ping => exact takePayloadChecked_eq hm hpos hle _
        | pong => exact dropPayloadChecked_eq hpos hle

/-- A step stays within bounds, if what is available can be counted and what a frame is for is known
before its payload is read. -/
theorem stepChecked_eq (hvalues : values ≤ UInt64.size) (hpurposeful : s.Purposeful)
    (hm : ch.maxRead ≠ some 0) (havailable : ch.available < values) :
    s.stepChecked values ch = some (s.step ch) := by
  unfold stepChecked step
  cases hstage : s.stage with
  | header | maskKey =>
    dsimp only
    split
    · rfl
    · rename_i hthere
      rw [readExactChecked_eq hthere]
      rfl
  | length16 | length64 =>
    dsimp only
    split
    · rfl
    · rename_i hthere
      rw [readExactChecked_eq hthere]
      exact readLengthChecked_eq s _ (by decide) _
  | payload => exact readPayloadChecked_eq hvalues (hpurposeful hstage) hm havailable
  | closed => rfl

end

/-! ## Runs of steps -/

private theorem conserved_takePayload (s : Registers) (keeps : Bool) (count : Nat) (ch : Channel) :
    (s.takePayload keeps count ch).channel.inbox.size +
        (s.takePayload keeps count ch).delivered.toList.flatten.length +
        (s.takePayload keeps count ch).registers.echo.size ≤ ch.inbox.size + s.echo.size := by
  have hlength := ch.length_read count
  have hgiven : ch.readCount count ≤ ch.inbox.size := Nat.min_le_right _ _
  have hinbox : (ch.read count).2.inbox.size = ch.inbox.size - ch.readCount count := rfl
  have hplain := s.mask.length_apply (ch.read count).1
  have hecho : (s.echo ++ s.mask.apply (ch.read count).1).size =
      s.echo.size + (s.mask.apply (ch.read count).1).length := by
    rw [← Array.length_toList, Array.toList_appendList, List.length_append, Array.length_toList]
  unfold takePayload
  dsimp only
  split
  · simp only [suspend, List.flatten_nil, List.length_nil, hinbox]
    omega
  · split
    · simp only [List.flatten_nil, List.length_nil, hinbox, hecho, hplain, hlength]
      omega
    · simp only [List.flatten_singleton, unmask, hinbox, hplain, hlength]
      omega

private theorem conserved_readPayload (s : Registers) (ch : Channel) :
    (s.readPayload ch).channel.inbox.size + (s.readPayload ch).delivered.toList.flatten.length +
        (s.readPayload ch).registers.echo.size ≤ ch.inbox.size + s.echo.size := by
  unfold readPayload
  dsimp only
  split
  · unfold finish
    split
    · exact Nat.add_le_add_left (Nat.zero_le _) _
    · exact Nat.le_refl _
  · split
    · exact Nat.le_refl _
    · split
      · exact s.conserved_takePayload _ _ ch
      · exact s.conserved_takePayload _ _ ch
      · exact Nat.add_le_add_right (Nat.sub_le _ _) _
      · exact Nat.le_refl _

private theorem spares_readHeader (s : Registers) (first second : UInt8) (ch : Channel) :
    (s.readHeader first second ch).channel.inbox = ch.inbox ∧
      (s.readHeader first second ch).delivered = #[] ∧
      (s.readHeader first second ch).registers.echo = s.echo := by
  unfold readHeader
  split
  · exact ⟨rfl, rfl, rfl⟩
  · split
    · exact ⟨rfl, rfl, rfl⟩
    · split
      · exact ⟨rfl, rfl, rfl⟩
      · unfold expect
        dsimp only
        split <;> exact ⟨rfl, rfl, rfl⟩

private theorem conserved_step (s : Registers) (ch : Channel) :
    (s.step ch).channel.inbox.size + (s.step ch).delivered.toList.flatten.length +
        (s.step ch).registers.echo.size ≤ ch.inbox.size + s.echo.size := by
  have hitem (n : Nat) : (ch.readExact n).2.inbox.size ≤ ch.inbox.size := Nat.sub_le _ _
  unfold step
  cases s.stage with
  | header =>
    dsimp only
    split
    · exact Nat.le_refl _
    · obtain ⟨hinbox, hdelivered, hecho⟩ :=
        s.spares_readHeader ((ch.readExact 2).1.get ⟨0, Nat.zero_lt_two⟩)
          ((ch.readExact 2).1.get ⟨1, Nat.one_lt_two⟩) (ch.readExact 2).2
      rw [hinbox, hdelivered, hecho]
      exact Nat.add_le_add_right (hitem 2) _
  | length16 | length64 | maskKey =>
    dsimp only
    split
    · exact Nat.le_refl _
    · exact Nat.add_le_add_right (hitem _) _
  | payload => exact conserved_readPayload s ch
  | closed => exact Nat.le_refl _

/-- What a decoder, its channel and the data that it has brought owe to one another when so many
bytes have arrived. -/
structure Kept (arrived : Nat) (s : Registers) (ch : Channel) (q : ByteQueue) : Prop where
  holds : ∃ id r, Holds id s r
  maxRead : ch.maxRead ≠ some 0
  received : q.Valid
  conserved : ch.inbox.size + q.size + s.echo.size ≤ arrived

variable {arrived values : Nat} {s : Registers} {ch : Channel} {q : ByteQueue}

theorem Kept.step (h : Kept arrived s ch q) :
    Kept arrived (s.step ch).registers (s.step ch).channel (q.appendAll (s.step ch).delivered) := by
  obtain ⟨id, r, hholds⟩ := h.holds
  have hstep := matches_step hholds ch
  have hbefore := h.conserved
  have hconserved := s.conserved_step ch
  refine ⟨⟨id, _, hstep.holds⟩, ?_, h.received.appendAll _, ?_⟩
  · rw [hstep.channel, (r.sameLimits_step ch).2]
    exact h.maxRead
  · rw [h.received.size_appendAll]
    omega

theorem Kept.stepChecked_eq (h : Kept arrived s ch q) (harrived : arrived < values)
    (hvalues : values ≤ UInt64.size) : s.stepChecked values ch = some (s.step ch) := by
  obtain ⟨id, r, hholds⟩ := h.holds
  have hconserved := h.conserved
  have hle := ch.available_le
  exact Registers.stepChecked_eq hvalues hholds.purposeful h.maxRead (by omega)

/-- What a call leaves is in order. -/
theorem Kept.kept_decode (h : Kept arrived s ch q) :
    Kept arrived (s.decode ch).1 (s.decode ch).2.channel
      (q.appendAll (s.decode ch).2.delivered) := by
  induction hw : s.weight ch using Nat.strongRecOn generalizing s ch q with
  | ind w ih =>
    cases hverdict : (s.step ch).verdict with
    | some verdict =>
      rw [decode_of_some hverdict]
      exact h.step
    | none =>
      have hlater := ih _ (hw ▸ weight_step hverdict) h.step rfl
      rw [decode_of_none hverdict]
      dsimp only
      rw [ByteQueue.appendAll_append]
      exact hlater

/-- A call stays within bounds. -/
theorem Kept.decodeChecked_eq (h : Kept arrived s ch q) (harrived : arrived < values)
    (hvalues : values ≤ UInt64.size) : s.decodeChecked values ch = some (s.decode ch) := by
  -- A step within bounds leaves all in order for the next one (`Kept.step`).
  induction hw : s.weight ch using Nat.strongRecOn generalizing s ch q with
  | ind w ih =>
    rw [decodeChecked, h.stepChecked_eq harrived hvalues]
    dsimp only
    cases hverdict : (s.step ch).verdict with
    | some verdict => rw [decode_of_some hverdict]
    | none =>
      have hlt := weight_step hverdict
      dsimp only
      rw [if_pos hlt, ih _ (hw ▸ hlt) h.step rfl, decode_of_none hverdict]
      rfl

/-- So does the count of what it delivers. -/
theorem Kept.appendAllChecked_eq (h : Kept arrived s ch q) (harrived : arrived < values) :
    q.appendAllChecked values (s.decode ch).2.delivered.toList =
      some (q.appendAll (s.decode ch).2.delivered) := by
  have hconserved := h.kept_decode.conserved
  rw [h.received.size_appendAll] at hconserved
  rw [ByteQueue.appendAllChecked_eq (by omega), ByteQueue.appendAll, Array.foldl_toList]

end Registers

end WebSocket
