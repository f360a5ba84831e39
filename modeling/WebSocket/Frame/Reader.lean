import WebSocket.BigEndian
import WebSocket.Channel
import WebSocket.Frame.Server
import WebSocket.Mask

/-!
# Reading client frames

A reader takes frames off a channel, however their bytes arrive. Its state says what it waits for;
`step` takes the next item that is there, and `decode` steps until it has to wait, has answered a
close frame, or meets a frame that breaks the rules. Data is delivered as it comes, a ping is kept
until its end and then answered, a pong is dropped.
-/

namespace WebSocket

/-- A payload that is being read. -/
structure PartialPayload where
  purpose : Purpose
  /-- How many bytes are still to come. -/
  remaining : Nat
  mask : Mask
  /-- What a ping has brought so far. -/
  echo : Array UInt8 := #[]
deriving DecidableEq, Repr

/-- What is to be read next. -/
inductive FrameReader where
  | header
  | length16 (purpose : Purpose)
  | length64 (purpose : Purpose)
  | maskKey (purpose : Purpose) (length : Nat)
  | payload (p : PartialPayload)
  /-- Nothing: a close frame has been answered. -/
  | closed
deriving DecidableEq, Repr

namespace FrameReader

/-- How many payload bytes of the current frame are still to come, as far as its length is known. -/
def remaining : FrameReader → Nat
  | maskKey _ length => length
  | payload p => p.remaining
  | header | length16 _ | length64 _ | closed => 0

inductive Verdict where
  /-- More bytes are needed. -/
  | pending
  | closed
  | fault (error : FrameError)
deriving DecidableEq, Repr

/-- What one step comes to; without a verdict there is another step to do. -/
structure Turn where
  reader : FrameReader
  channel : Channel
  verdict : Option Verdict := none
  /-- Application data. -/
  delivered : Array (List UInt8) := #[]
  trace : Trace := {}

/-- Waits for more bytes. -/
def suspend (r : FrameReader) (ch : Channel) : Turn :=
  { reader := r, channel := ch, verdict := some .pending }

/-- What follows a header with this length code. -/
def afterHeader (purpose : Purpose) (code : Nat) : FrameReader :=
  match LengthForm.ofCode code with
  | .short => maskKey purpose code
  | .twoBytes => length16 purpose
  | .eightBytes => length64 purpose

/-- A close frame is answered at once, whatever its second byte; any other frame must be masked. -/
def readHeader (first second : UInt8) (ch : Channel) : Turn :=
  let taken : Call := .readExact 2
  match Opcode.ofByte? first with
  | none =>
    { reader := header, channel := ch
      verdict := some (.fault (.unknownOpcode (first.toNat % 16)))
      trace := { calls := #[taken] } }
  | some opcode =>
    match opcode.purpose? with
    | none =>
      { reader := closed, channel := ch.write ServerFrame.close.encode
        verdict := some .closed
        trace :=
          { notices := #[.frameReceived opcode, .closeReceived]
            calls := #[taken] ++ ServerFrame.close.calls ++ #[.flush] } }
    | some purpose =>
      let trace : Trace := { notices := #[.frameReceived opcode], calls := #[taken] }
      if second.toNat < 128 then
        { reader := header, channel := ch, verdict := some (.fault .unmasked), trace }
      else { reader := afterHeader purpose (second.toNat % 128), channel := ch, trace }

/-- A ping that has come to its end is answered with its own payload. -/
def finish (p : PartialPayload) (ch : Channel) : Turn :=
  match p.purpose with
  | .ping =>
    let pong := ServerFrame.pong p.echo.toList
    { reader := header, channel := ch.write pong.encode
      trace := { notices := #[.pongSent p.echo.size], calls := pong.calls } }
  | .data | .pong => { reader := header, channel := ch }

/-- Asks for `count` bytes of a payload and unmasks what it is given. -/
def takePayload (p : PartialPayload) (count : Nat) (ch : Channel) : Turn :=
  let (masked, rest) := ch.read count
  let given := masked.length
  let trace : Trace := { calls := #[.read count given] }
  -- Nothing is given only if `maxRead` is 0 (`Channel.readCount_ne_zero`). To ask again would then go
  -- on for ever; here the reader waits.
  if given = 0 then { suspend (payload p) rest with trace }
  else
    let plain := p.mask.apply masked
    { reader := payload
        { p with
          remaining := p.remaining - given
          mask := p.mask.advance given
          echo := if p.purpose = .ping then p.echo ++ plain else p.echo }
      channel := rest
      delivered := if p.purpose = .data then #[plain] else #[]
      trace }

def dropPayload (p : PartialPayload) (count : Nat) (ch : Channel) : Turn :=
  { reader := payload { p with remaining := p.remaining - count }, channel := ch.skip count
    trace := { calls := #[.skip count] } }

def readPayload (p : PartialPayload) (ch : Channel) : Turn :=
  let count := min p.remaining ch.available
  if p.remaining = 0 then finish p ch
  else if count = 0 then suspend (payload p) ch
  else if p.purpose = .pong then dropPayload p count ch
  else takePayload p count ch

def step : FrameReader → Channel → Turn
  | header, ch =>
    match ch.takeExact? 2 with
    | none => suspend header ch
    | some (bytes, rest) => readHeader bytes[0] bytes[1] rest
  | length16 purpose, ch =>
    match ch.takeExact? 2 with
    | none => suspend (length16 purpose) ch
    | some (bytes, rest) =>
      { reader := maskKey purpose (BigEndian.value bytes.toList), channel := rest
        trace := { calls := #[.readExact 2] } }
  | length64 purpose, ch =>
    match ch.takeExact? 8 with
    | none => suspend (length64 purpose) ch
    | some (bytes, rest) =>
      { reader := maskKey purpose (BigEndian.value bytes.toList), channel := rest
        trace := { calls := #[.readExact 8] } }
  | maskKey purpose length, ch =>
    match ch.takeExact? 4 with
    | none => suspend (maskKey purpose length) ch
    | some (key, rest) =>
      { reader := payload { purpose, remaining := length, mask := { key } }, channel := rest
        trace := { notices := #[.payloadAnnounced length], calls := #[.readExact 4] } }
  | payload p, ch => readPayload p ch
  | closed, ch => { reader := closed, channel := ch, verdict := some .closed }

/-- Falls with every step that has no verdict: bytes are taken or a payload comes to its end. -/
def weight (r : FrameReader) (ch : Channel) : Nat :=
  match r with
  | payload _ => 2 * ch.inbox.size + 1
  | _ => 2 * ch.inbox.size

private theorem weight_afterHeader (purpose : Purpose) (code : Nat) (ch : Channel) :
    (afterHeader purpose code).weight ch = 2 * ch.inbox.size := by
  unfold afterHeader
  split <;> rfl

private theorem weight_readHeader {first second : UInt8} {ch : Channel}
    (h : (readHeader first second ch).verdict = none) :
    (readHeader first second ch).reader.weight (readHeader first second ch).channel =
      2 * ch.inbox.size := by
  revert h
  unfold readHeader
  split
  · simp
  · split
    · simp
    · split
      · simp
      · simp [weight_afterHeader]

private theorem weight_finish (p : PartialPayload) (ch : Channel) :
    (finish p ch).reader.weight (finish p ch).channel = 2 * ch.inbox.size := by
  unfold finish
  split <;> rfl

private theorem weight_takePayload {p : PartialPayload} {count : Nat} {ch : Channel}
    (h : (takePayload p count ch).verdict = none) :
    (takePayload p count ch).reader.weight (takePayload p count ch).channel <
      2 * ch.inbox.size + 1 := by
  have hlength := ch.length_read count
  have hle : ch.readCount count ≤ ch.inbox.size := Nat.min_le_right _ _
  by_cases hgiven : (ch.read count).1.length = 0
  · simp [takePayload, hgiven, suspend] at h
  · simp only [takePayload, hgiven, if_false, weight]
    simp only [Channel.read, Inbox.drop]
    omega

private theorem weight_readPayload {p : PartialPayload} {ch : Channel}
    (h : (readPayload p ch).verdict = none) :
    (readPayload p ch).reader.weight (readPayload p ch).channel < 2 * ch.inbox.size + 1 := by
  have havailable := ch.available_le
  by_cases hzero : p.remaining = 0
  · simp only [readPayload, hzero, if_true, weight_finish]
    exact Nat.lt_succ_self _
  by_cases hcount : min p.remaining ch.available = 0
  · simp [readPayload, hzero, hcount, suspend] at h
  by_cases hpong : p.purpose = .pong
  · simp only [readPayload, hzero, hcount, hpong, if_true, if_false, dropPayload, weight,
      Channel.skip, Inbox.drop]
    omega
  · simp only [readPayload, hzero, hcount, hpong, if_false] at h ⊢
    exact weight_takePayload h

theorem weight_step {r : FrameReader} {ch : Channel} (h : (r.step ch).verdict = none) :
    (r.step ch).reader.weight (r.step ch).channel < r.weight ch := by
  cases r with
  | header =>
    simp only [step] at h ⊢
    split at h
    · simp [suspend] at h
    · rename_i bytes rest htaken
      have := Channel.size_of_takeExact? htaken
      rw [weight_readHeader h]
      simp only [weight]
      omega
  | length16 purpose =>
    simp only [step] at h ⊢
    split at h
    · simp [suspend] at h
    · rename_i bytes rest htaken
      have := Channel.size_of_takeExact? htaken
      simp only [weight]
      omega
  | length64 purpose =>
    simp only [step] at h ⊢
    split at h
    · simp [suspend] at h
    · rename_i bytes rest htaken
      have := Channel.size_of_takeExact? htaken
      simp only [weight]
      omega
  | maskKey purpose length =>
    simp only [step] at h ⊢
    split at h
    · simp [suspend] at h
    · rename_i key rest htaken
      have := Channel.size_of_takeExact? htaken
      simp only [weight]
      omega
  | payload p => exact weight_readPayload h
  | closed => simp [step] at h

/-- The outcome of a run of steps. -/
structure Progress where
  reader : FrameReader
  channel : Channel
  verdict : Verdict
  delivered : Array (List UInt8)
  trace : Trace

def run (r : FrameReader) (ch : Channel) (delivered : Array (List UInt8)) (trace : Trace) :
    Progress :=
  let turn := r.step ch
  let delivered := delivered ++ turn.delivered
  let trace := trace ++ turn.trace
  match _h : turn.verdict with
  | some verdict => { reader := turn.reader, channel := turn.channel, verdict, delivered, trace }
  | none => run turn.reader turn.channel delivered trace
termination_by r.weight ch
decreasing_by exact weight_step _h

def decode (r : FrameReader) (ch : Channel) : Progress :=
  r.run ch #[] {}

private theorem run_of_some {r : FrameReader} {ch : Channel} {verdict : Verdict}
    (h : (r.step ch).verdict = some verdict) (delivered : Array (List UInt8)) (trace : Trace) :
    r.run ch delivered trace =
      { reader := (r.step ch).reader, channel := (r.step ch).channel, verdict
        delivered := delivered ++ (r.step ch).delivered, trace := trace ++ (r.step ch).trace } := by
  rw [run]
  split
  · rename_i heq
    rw [h] at heq
    cases heq
    rfl
  · rename_i heq
    rw [h] at heq
    cases heq

private theorem run_of_none {r : FrameReader} {ch : Channel} (h : (r.step ch).verdict = none)
    (delivered : Array (List UInt8)) (trace : Trace) :
    r.run ch delivered trace =
      (r.step ch).reader.run (r.step ch).channel (delivered ++ (r.step ch).delivered)
        (trace ++ (r.step ch).trace) := by
  rw [run]
  split
  · rename_i heq
    rw [h] at heq
    cases heq
  · rfl

/-- A run on top of earlier work adds to it what a run of its own does. -/
theorem run_eq_append (r : FrameReader) (ch : Channel) (delivered : Array (List UInt8))
    (trace : Trace) :
    r.run ch delivered trace =
      { r.decode ch with
        delivered := delivered ++ (r.decode ch).delivered
        trace := trace ++ (r.decode ch).trace } := by
  induction hw : r.weight ch using Nat.strongRecOn generalizing r ch delivered trace with
  | ind w ih =>
    cases h : (r.step ch).verdict with
    | some verdict => simp [decode, run_of_some h]
    | none =>
      have hlt := hw ▸ weight_step h
      rw [decode, run_of_none h, run_of_none h, ih _ hlt _ _ _ _ rfl,
        ih _ hlt _ _ (#[] ++ _) ({} ++ _) rfl]
      simp [Array.append_assoc, Trace.append_assoc]

theorem decode_of_some {r : FrameReader} {ch : Channel} {verdict : Verdict}
    (h : (r.step ch).verdict = some verdict) :
    r.decode ch =
      { reader := (r.step ch).reader, channel := (r.step ch).channel, verdict
        delivered := (r.step ch).delivered, trace := (r.step ch).trace } := by
  simp [decode, run_of_some h]

theorem decode_of_none {r : FrameReader} {ch : Channel} (h : (r.step ch).verdict = none) :
    r.decode ch =
      let rest := (r.step ch).reader.decode (r.step ch).channel
      { rest with
        delivered := (r.step ch).delivered ++ rest.delivered
        trace := (r.step ch).trace ++ rest.trace } := by
  rw [decode, run_of_none h, run_eq_append]
  simp

end FrameReader

end WebSocket
