import WebSocket.Frame.Reader

/-!
# Reading into registers

The states of a reader hold what they need and no more. A decoder keeps one record instead, whose
fields outlive the frame for which they were set and are overwritten as the next one needs them.
Before each read it looks whether enough is there; the read itself takes that for granted.
-/

namespace WebSocket

/-- The part of a frame that is read next. -/
inductive Stage where
  | header
  | length16
  | length64
  | maskKey
  | payload
  /-- Nothing: a close frame has been answered. -/
  | closed
deriving DecidableEq, Repr

structure Registers where
  /-- The number of the session. -/
  id : UInt32 := 0
  stage : Stage := .header
  /-- How many payload bytes of the current frame are still to come. -/
  remaining : Nat := 0
  /-- What its payload is for; nothing, if it is that of a close frame. -/
  kind : Option Purpose := some .data
  mask : Mask := { key := #v[0, 0, 0, 0] }
  /-- What a ping has brought so far. -/
  echo : Array UInt8 := #[]
deriving DecidableEq, Repr

/-- What one call of a decoder is seen to do. -/
structure Work where
  channel : Channel
  verdict : FrameReader.Verdict
  delivered : Array (List UInt8)
  trace : Trace

namespace Registers

open FrameReader (Verdict)

def setId (s : Registers) (id : UInt32) : Registers :=
  { s with id }

/-- The records of what a decoder with these registers notes. -/
def record (s : Registers) (notices : Array Notice) : Array Record :=
  notices.map fun notice => { session := s.id, notice }

/-- What one step comes to; without a verdict there is another step to do. -/
structure Turn where
  registers : Registers
  channel : Channel
  verdict : Option Verdict := none
  delivered : Array (List UInt8) := #[]
  trace : Trace := {}

/-- Waits for more bytes. -/
def suspend (s : Registers) (ch : Channel) : Turn :=
  { registers := s, channel := ch, verdict := some .pending }

/-- Behind a header with this length code; a length that is still to be read is not touched yet. -/
def expect (s : Registers) (code : Nat) : Registers :=
  match LengthForm.ofCode code with
  | .short => { s with remaining := code, stage := .maskKey }
  | .twoBytes => { s with stage := .length16 }
  | .eightBytes => { s with stage := .length64 }

/-- A header that is refused changes nothing. -/
def readHeader (s : Registers) (first second : UInt8) (ch : Channel) : Turn :=
  let taken : Call := .readExact 2
  match Opcode.ofByte? first with
  | none =>
    { registers := s, channel := ch
      verdict := some (.fault (.unknownOpcode (first.toNat % 16)))
      trace := { calls := #[taken] } }
  | some opcode =>
    if opcode = .close then
      { registers := { s with stage := .closed }, channel := ch.write ServerFrame.close.encode
        verdict := some .closed
        trace :=
          { notices := #[.frameReceived opcode, .closeReceived]
            calls := #[taken] ++ ServerFrame.close.calls ++ #[.flush] } }
    else
      let trace : Trace := { notices := #[.frameReceived opcode], calls := #[taken] }
      if second.toNat < 128 then
        { registers := s, channel := ch, verdict := some (.fault .unmasked), trace }
      else
        { registers := { s with kind := opcode.purpose? }.expect (second.toNat % 128)
          channel := ch, trace }

def readLength {n : Nat} (s : Registers) (digits : Vector UInt8 n) (ch : Channel) : Turn :=
  { registers := { s with remaining := BigEndian.value digits.toList, stage := .maskKey }
    channel := ch, trace := { calls := #[.readExact n] } }

def readMaskKey (s : Registers) (key : Vector UInt8 4) (ch : Channel) : Turn :=
  { registers := { s with mask := { key }, stage := .payload }, channel := ch
    trace := { notices := #[.payloadAnnounced s.remaining], calls := #[.readExact 4] } }

/-- Only the buffer of a ping is cleared; what is left of the payload has come down to nothing. -/
def finish (s : Registers) (ch : Channel) : Turn :=
  if s.kind = some .ping then
    let pong := ServerFrame.pong s.echo.toList
    { registers := { s with echo := #[], stage := .header }, channel := ch.write pong.encode
      trace := { notices := #[.pongSent s.echo.size], calls := pong.calls } }
  else { registers := { s with stage := .header }, channel := ch }

/-- The registers after so many more bytes have been unmasked. -/
def unmask (s : Registers) (given : Nat) : Registers :=
  { s with remaining := s.remaining - given, mask := s.mask.advance given }

/-- Asks for `count` bytes of a payload; those of a ping are kept, others are delivered. -/
def takePayload (s : Registers) (keeps : Bool) (count : Nat) (ch : Channel) : Turn :=
  let (masked, rest) := ch.read count
  let given := masked.length
  let trace : Trace := { calls := #[.read count given] }
  let plain := s.mask.apply masked
  -- As in `FrameReader.takePayload`: with `maxRead` other than 0 something is given.
  if given = 0 then { s.suspend rest with trace }
  else if keeps then
    { registers := { s.unmask given with echo := s.echo ++ plain }, channel := rest, trace }
  else { registers := s.unmask given, channel := rest, delivered := #[plain], trace }

def dropPayload (s : Registers) (count : Nat) (ch : Channel) : Turn :=
  { registers := { s with remaining := s.remaining - count }, channel := ch.skip count
    trace := { calls := #[.skip count] } }

def readPayload (s : Registers) (ch : Channel) : Turn :=
  let count := min s.remaining ch.available
  if s.remaining = 0 then s.finish ch
  else if ch.available = 0 then s.suspend ch
  else
    match s.kind with
    | some .data => s.takePayload false count ch
    | some .ping => s.takePayload true count ch
    | some .pong => s.dropPayload count ch
    | none => { registers := { s with stage := .closed }, channel := ch, verdict := some .closed }

def step (s : Registers) (ch : Channel) : Turn :=
  match s.stage with
  | .header =>
    if ch.available < 2 then s.suspend ch
    else
      let (header, rest) := ch.readExact 2
      s.readHeader (header.get ⟨0, Nat.zero_lt_two⟩) (header.get ⟨1, Nat.one_lt_two⟩) rest
  | .length16 =>
    if ch.available < 2 then s.suspend ch
    else
      let (digits, rest) := ch.readExact 2
      s.readLength digits rest
  | .length64 =>
    if ch.available < 8 then s.suspend ch
    else
      let (digits, rest) := ch.readExact 8
      s.readLength digits rest
  | .maskKey =>
    if ch.available < 4 then s.suspend ch
    else
      let (key, rest) := ch.readExact 4
      s.readMaskKey key rest
  | .payload => s.readPayload ch
  | .closed => { registers := s, channel := ch, verdict := some .closed }

/-- Falls with every step that has no verdict. -/
def weight (s : Registers) (ch : Channel) : Nat :=
  2 * ch.inbox.size + if s.stage = .payload then 1 else 0

private theorem weight_le (s : Registers) (ch : Channel) : s.weight ch ≤ 2 * ch.inbox.size + 1 := by
  unfold weight
  split <;> omega

private theorem weight_drop (s : Registers) {ch : Channel} {n : Nat} (hn : n ≠ 0)
    (hle : n ≤ ch.inbox.size) :
    s.weight { ch with inbox := ch.inbox.drop n } < 2 * ch.inbox.size := by
  have hweight := s.weight_le { ch with inbox := ch.inbox.drop n }
  simp only [Inbox.drop] at hweight ⊢
  omega

private theorem weight_readExact (s : Registers) {n : Nat} {ch : Channel} (hn : n ≠ 0)
    (h : ¬ ch.available < n) : s.weight (ch.readExact n).2 < 2 * ch.inbox.size :=
  s.weight_drop hn (Nat.le_trans (Nat.le_of_not_lt h) ch.available_le)

private theorem channel_readHeader {s : Registers} {first second : UInt8} {ch : Channel}
    (h : (s.readHeader first second ch).verdict = none) :
    (s.readHeader first second ch).channel = ch := by
  revert h
  unfold readHeader
  split
  · simp
  · split
    · simp
    · split <;> simp

private theorem weight_finish (s : Registers) (ch : Channel) :
    (s.finish ch).registers.weight (s.finish ch).channel = 2 * ch.inbox.size := by
  unfold finish
  split <;> rfl

private theorem weight_takePayload {s : Registers} {keeps : Bool} {count : Nat} {ch : Channel}
    (h : (s.takePayload keeps count ch).verdict = none) :
    (s.takePayload keeps count ch).registers.weight (s.takePayload keeps count ch).channel <
      2 * ch.inbox.size := by
  have hlength := ch.length_read count
  have hle : ch.readCount count ≤ ch.inbox.size := Nat.min_le_right _ _
  by_cases hgiven : (ch.read count).1.length = 0
  · simp [takePayload, hgiven, suspend] at h
  · simp only [takePayload, hgiven, if_false]
    split <;> exact weight_drop _ (hlength ▸ hgiven) hle

private theorem weight_readPayload {s : Registers} {ch : Channel}
    (h : (s.readPayload ch).verdict = none) :
    (s.readPayload ch).registers.weight (s.readPayload ch).channel < 2 * ch.inbox.size + 1 := by
  have hle := ch.available_le
  by_cases hzero : s.remaining = 0
  · simp only [readPayload, hzero, if_true, weight_finish]
    exact Nat.lt_succ_self _
  by_cases havailable : ch.available = 0
  · simp [readPayload, hzero, havailable, suspend] at h
  apply Nat.lt_succ_of_lt
  simp only [readPayload, hzero, havailable, if_false] at h ⊢
  split at h
  · exact weight_takePayload h
  · exact weight_takePayload h
  · exact weight_drop _ (by omega) (by omega)
  · cases h

theorem weight_step {s : Registers} {ch : Channel} (h : (s.step ch).verdict = none) :
    (s.step ch).registers.weight (s.step ch).channel < s.weight ch := by
  have hge : 2 * ch.inbox.size ≤ s.weight ch := Nat.le_add_right _ _
  revert h
  unfold step
  cases hstage : s.stage with
  | header =>
    dsimp only
    split
    · exact nofun
    · rename_i havailable
      intro h
      rw [channel_readHeader h]
      exact Nat.lt_of_lt_of_le (weight_readExact _ (by decide) havailable) hge
  | length16 | length64 | maskKey =>
    dsimp only
    split
    · exact nofun
    · rename_i havailable
      intro _
      exact Nat.lt_of_lt_of_le (weight_readExact _ (by decide) havailable) hge
  | payload =>
    intro h
    have hweight : s.weight ch = 2 * ch.inbox.size + 1 := by simp [weight, hstage]
    rw [hweight]
    exact weight_readPayload h
  | closed => exact nofun

def run (s : Registers) (ch : Channel) (delivered : Array (List UInt8)) (trace : Trace) :
    Registers × Work :=
  let turn := s.step ch
  let delivered := delivered ++ turn.delivered
  let trace := trace ++ turn.trace
  match _h : turn.verdict with
  | some verdict => (turn.registers, { channel := turn.channel, verdict, delivered, trace })
  | none => run turn.registers turn.channel delivered trace
termination_by s.weight ch
decreasing_by exact weight_step _h

/-- Takes what can be taken. -/
def decode (s : Registers) (ch : Channel) : Registers × Work :=
  s.run ch #[] {}

private theorem run_of_some {s : Registers} {ch : Channel} {verdict : Verdict}
    (h : (s.step ch).verdict = some verdict) (delivered : Array (List UInt8)) (trace : Trace) :
    s.run ch delivered trace =
      ((s.step ch).registers,
        { channel := (s.step ch).channel, verdict, delivered := delivered ++ (s.step ch).delivered
          trace := trace ++ (s.step ch).trace }) := by
  rw [run]
  split
  · rename_i heq
    rw [h] at heq
    cases heq
    rfl
  · rename_i heq
    rw [h] at heq
    cases heq

private theorem run_of_none {s : Registers} {ch : Channel} (h : (s.step ch).verdict = none)
    (delivered : Array (List UInt8)) (trace : Trace) :
    s.run ch delivered trace =
      (s.step ch).registers.run (s.step ch).channel (delivered ++ (s.step ch).delivered)
        (trace ++ (s.step ch).trace) := by
  rw [run]
  split
  · rename_i heq
    rw [h] at heq
    cases heq
  · rfl

/-- A run on top of earlier work adds to it what a run of its own does. -/
theorem run_eq_append (s : Registers) (ch : Channel) (delivered : Array (List UInt8))
    (trace : Trace) :
    s.run ch delivered trace =
      ((s.decode ch).1,
        { (s.decode ch).2 with
          delivered := delivered ++ (s.decode ch).2.delivered
          trace := trace ++ (s.decode ch).2.trace }) := by
  induction hw : s.weight ch using Nat.strongRecOn generalizing s ch delivered trace with
  | ind w ih =>
    cases h : (s.step ch).verdict with
    | some verdict => simp [decode, run_of_some h]
    | none =>
      have hlt := hw ▸ weight_step h
      rw [decode, run_of_none h, run_of_none h, ih _ hlt _ _ _ _ rfl,
        ih _ hlt _ _ (#[] ++ _) ({} ++ _) rfl]
      simp [Array.append_assoc, Trace.append_assoc]

theorem decode_of_some {s : Registers} {ch : Channel} {verdict : Verdict}
    (h : (s.step ch).verdict = some verdict) :
    s.decode ch =
      ((s.step ch).registers,
        { channel := (s.step ch).channel, verdict, delivered := (s.step ch).delivered
          trace := (s.step ch).trace }) := by
  simp [decode, run_of_some h]

theorem decode_of_none {s : Registers} {ch : Channel} (h : (s.step ch).verdict = none) :
    s.decode ch =
      let later := (s.step ch).registers.decode (s.step ch).channel
      (later.1,
        { later.2 with
          delivered := (s.step ch).delivered ++ later.2.delivered
          trace := (s.step ch).trace ++ later.2.trace }) := by
  rw [decode, run_of_none h, run_eq_append]
  simp

end Registers

end WebSocket
