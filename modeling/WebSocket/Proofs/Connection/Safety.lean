import Mathlib.Algebra.GroupWithZero.Nat
import WebSocket.Proofs.Connection.Run
import WebSocket.Proofs.Frame.Safety
import WebSocket.Proofs.Handshake.Outcome

/-!
# Connections and decoders stay within bounds

Whatever is done with a connection, or with a decoder by itself, and in whatever order: as long as
less has arrived than a word can count, the checked form of every call has the result of the call,
on a channel that rations as it likes but gives a byte when it is asked for some.
-/

namespace WebSocket

namespace ByteQueue

/-- Whatever is read, in either way, is read within bounds. -/
structure ReadSafe (q : ByteQueue) : Prop where
  read : ∀ n, q.readChecked n = some (q.read n)
  readInto : ∀ buffer, q.readIntoChecked buffer = some (q.readInto buffer)

theorem Valid.readSafe {q : ByteQueue} (h : q.Valid) : q.ReadSafe :=
  ⟨h.readChecked_eq, h.readIntoChecked_eq⟩

theorem size_read_le (q : ByteQueue) (n : Nat) : (q.read n).2.size ≤ q.size :=
  Nat.sub_le _ _

end ByteQueue

namespace Registers.Kept

variable {arrived : Nat} {s : Registers} {ch ch' : Channel} {q : ByteQueue}

theorem fresh : Kept 0 {} {} {} where
  holds := ⟨0, _, holds_fresh 0⟩
  maxRead := nofun
  received := ByteQueue.valid_empty
  conserved := Nat.le_refl 0

theorem arrive (h : Kept arrived s ch q) (bytes : List UInt8) :
    Kept (arrived + bytes.length) s (ch.receive bytes) q where
  holds := h.holds
  maxRead := h.maxRead
  received := h.received
  conserved := by
    have hconserved := h.conserved
    simp only [Channel.receive, Inbox.append]
    omega

/-- The channel may have lost bytes, sent some and ration otherwise. -/
theorem move (h : Kept arrived s ch q) (hsize : ch'.inbox.size ≤ ch.inbox.size)
    (hm : ch'.maxRead ≠ some 0) : Kept arrived s ch' q where
  holds := h.holds
  maxRead := hm
  received := h.received
  conserved := Nat.le_trans (Nat.add_le_add_right (Nat.add_le_add_right hsize _) _) h.conserved

theorem read (h : Kept arrived s ch q) (n : Nat) : Kept arrived s ch (q.read n).2 where
  holds := h.holds
  maxRead := h.maxRead
  received := h.received.read_snd n
  conserved := by
    have hsize := q.size_read_le n
    have hconserved := h.conserved
    omega

theorem setId (h : Kept arrived s ch q) (new : UInt32) : Kept arrived (s.setId new) ch q where
  holds := by
    obtain ⟨id, r, hholds⟩ := h.holds
    exact ⟨new, r, hholds.setId new⟩
  maxRead := h.maxRead
  received := h.received
  conserved := h.conserved

end Registers.Kept

/-! ## A decoder by itself -/

/-- A decoder with its channel and the data that it has brought. -/
structure Decoding where
  decoder : Registers := {}
  channel : Channel := {}
  received : ByteQueue := {}

namespace Decoding

/-- What can be done with a decoder. It may be asked to go on whatever it came to before. -/
inductive Operation where
  | arrive (bytes : List UInt8)
  | ration (window maxRead : Option Nat) (h : maxRead ≠ some 0)
  | decode
  | read (n : Nat)
  | readInto (buffer : List UInt8)
  | collect

def Operation.arriving : Operation → Nat
  | arrive bytes => bytes.length
  | ration _ _ _ | decode | read _ | readInto _ | collect => 0

/-- One call of the decoder. -/
def decode (d : Decoding) : Decoding :=
  let (decoder, work) := d.decoder.decode d.channel
  { decoder, channel := work.channel, received := d.received.appendAll work.delivered }

def decodeChecked (values : Nat) (d : Decoding) : Option Decoding := do
  let (decoder, work) ← d.decoder.decodeChecked values d.channel
  let received ← d.received.appendAllChecked values work.delivered.toList
  some { decoder, channel := work.channel, received }

def step (d : Decoding) : Operation → Decoding
  | .arrive bytes => { d with channel := d.channel.receive bytes }
  | .ration window maxRead _ => { d with channel := { d.channel with window, maxRead } }
  | .decode => d.decode
  | .read n => { d with received := (d.received.read n).2 }
  | .readInto buffer => { d with received := (d.received.readInto buffer).2.2 }
  | .collect => { d with channel := d.channel.collect.2 }

def run (d : Decoding) (ops : List Operation) : Decoding :=
  ops.foldl step d

def Kept (arrived : Nat) (d : Decoding) : Prop :=
  d.decoder.Kept arrived d.channel d.received

variable {arrived values : Nat} {d : Decoding}

theorem Kept.step (h : Kept arrived d) (op : Operation) :
    Kept (arrived + op.arriving) (d.step op) := by
  cases op with
  | arrive bytes => exact Registers.Kept.arrive h bytes
  | ration window maxRead hm => exact Registers.Kept.move h (Nat.le_refl _) hm
  | decode => exact Registers.Kept.kept_decode h
  | read n => exact Registers.Kept.read h n
  | readInto buffer => exact Registers.Kept.read h buffer.length
  | collect => exact Registers.Kept.move h (Nat.le_refl _) h.maxRead

theorem Kept.run (h : Kept arrived d) (ops : List Operation) :
    Kept (arrived + (ops.map Operation.arriving).sum) (d.run ops) := by
  induction ops generalizing arrived d with
  | nil => exact h
  | cons op ops ih =>
    have hlater := ih (h.step op)
    rw [Nat.add_assoc] at hlater
    exact hlater

theorem Kept.decodeChecked_eq (h : Kept arrived d) (harrived : arrived < values)
    (hvalues : values ≤ UInt64.size) : d.decodeChecked values = some d.decode := by
  rw [Decoding.decodeChecked, Registers.Kept.decodeChecked_eq h harrived hvalues,
    Option.bind_eq_bind, Option.bind_some]
  dsimp only
  rw [Registers.Kept.appendAllChecked_eq h harrived]
  rfl

end Decoding

/-! ## Negotiations -/

namespace Negotiation

/-- The parts of every line are found by their positions. -/
def advanceChecked (n : Negotiation) (ch : Channel) : Option Progress :=
  match _h : ch.takeLine? with
  | none =>
    some
      { negotiation := n, channel := ch, verdict := .pending
        trace := { calls := #[.readLine none] } }
  | some (line, rest) =>
    match RequestLine.ofBytesChecked line with
    | none => none
    | some request =>
      let taken : Call := .readLine (some line.length)
      match n.step request with
      | .next n notices =>
        (advanceChecked n rest).map fun later =>
          { later with trace := { notices, calls := #[taken] } ++ later.trace }
      | .accept accept =>
        let response := Response.bytes accept
        some
          { negotiation := n, channel := rest.write response, verdict := .done
            trace := { notices := #[.responseSent], calls := #[taken, .write response, .flush] } }
      | .refuse error =>
        some
          { negotiation := n, channel := rest, verdict := .fault error
            trace := { calls := #[taken] } }
termination_by ch.inbox.size
decreasing_by exact Channel.size_lt_of_takeLine? _h

theorem advanceChecked_eq (n : Negotiation) (ch : Channel) :
    n.advanceChecked ch = some (n.advance ch) := by
  induction hsize : ch.inbox.size using Nat.strongRecOn generalizing n ch with
  | ind size ih =>
    rw [advanceChecked]
    split
    · rename_i hline
      rw [advance_of_none hline]
    · rename_i line rest hline
      have hlt := hsize ▸ Channel.size_lt_of_takeLine? hline
      rw [advance_of_some hline, RequestLine.ofBytesChecked_eq]
      dsimp only
      cases n.step (.ofBytes line) with
      | next later notices =>
        dsimp only
        rw [ih _ hlt later rest rfl]
        rfl
      | accept accept => rfl
      | refuse error => rfl

/-- A negotiation takes lines, and leaves the limits of the channel as they are. -/
theorem spares_advance (n : Negotiation) (ch : Channel) :
    (n.advance ch).channel.inbox.size ≤ ch.inbox.size ∧ (n.advance ch).channel.SameLimits ch := by
  induction hsize : ch.inbox.size using Nat.strongRecOn generalizing n ch with
  | ind size ih =>
    cases hline : ch.takeLine? with
    | none =>
      rw [advance_of_none hline]
      exact ⟨Nat.le_of_eq hsize, .refl ch⟩
    | some taken =>
      obtain ⟨line, rest⟩ := taken
      have hlt := hsize ▸ Channel.size_lt_of_takeLine? hline
      have hlimits : rest.SameLimits ch := by
        obtain ⟨found, -, heq⟩ := Option.map_eq_some_iff.mp hline
        cases heq
        exact .refl ch
      rw [advance_of_some hline]
      cases n.step (.ofBytes line) with
      | next later notices =>
        obtain ⟨hinbox, hlater⟩ := ih _ hlt later rest rfl
        exact ⟨Nat.le_trans hinbox (Nat.le_of_lt hlt), hlater.trans hlimits⟩
      | accept accept => exact ⟨Nat.le_of_lt hlt, hlimits⟩
      | refuse error => exact ⟨Nat.le_of_lt hlt, hlimits⟩

end Negotiation

/-! ## Connections -/

namespace Connection

def readFramesChecked (values : Nat) (c : Connection) (ch : Channel) (records : Array Record)
    (calls : Array Call) : Option Progress := do
  let (decoder, work) ← c.decoder.decodeChecked values ch
  let received ← c.received.appendAllChecked values work.delivered.toList
  some (c.conclude decoder work received records calls)

def negotiateChecked (values : Nat) (c : Connection) (ch : Channel) : Option Progress := do
  let progress ← c.negotiation.advanceChecked ch
  let c := { c with status := .handshaking, negotiation := progress.negotiation }
  let records := c.record progress.trace.notices
  let calls := progress.trace.calls
  match progress.verdict with
  | .pending =>
    some
      { connection := c, channel := progress.channel, result := .ok .handshaking, records, calls }
  | .done =>
    readFramesChecked values { c with status := .established } progress.channel
      (records ++ c.record #[.handshakeComplete]) calls
  | .fault error => some (c.fail (.handshake error) progress.channel records calls)

def feedChecked (values : Nat) (c : Connection) (ch : Channel) : Option Progress :=
  match c.status with
  | .idle | .handshaking => c.negotiateChecked values ch
  | .established => c.readFramesChecked values ch #[] #[]
  | .closed | .failed => some { connection := c, channel := ch, result := .ok c.status }

/-- The connection is in order on this channel. -/
def Kept (arrived : Nat) (c : Connection) (ch : Channel) : Prop :=
  c.decoder.Kept arrived ch c.received

variable {arrived values : Nat} {c : Connection} {ch : Channel}

private theorem kept_readFrames (h : c.Kept arrived ch) (records : Array Record)
    (calls : Array Call) :
    let p := c.readFrames ch records calls
    p.connection.Kept arrived p.channel := by
  have hdecode := Registers.Kept.kept_decode h
  unfold readFrames conclude
  dsimp only
  cases (c.decoder.decode ch).2.verdict <;> exact hdecode

private theorem readFramesChecked_eq (h : c.Kept arrived ch) (harrived : arrived < values)
    (hvalues : values ≤ UInt64.size) (records : Array Record) (calls : Array Call) :
    c.readFramesChecked values ch records calls = some (c.readFrames ch records calls) := by
  rw [readFramesChecked, Registers.Kept.decodeChecked_eq h harrived hvalues, Option.bind_eq_bind,
    Option.bind_some]
  dsimp only
  rw [Registers.Kept.appendAllChecked_eq h harrived]
  rfl

private theorem Kept.negotiated (h : c.Kept arrived ch) (status : Status) :
    Connection.Kept arrived
      { c with status, negotiation := (c.negotiation.advance ch).negotiation }
      (c.negotiation.advance ch).channel := by
  obtain ⟨hsize, hlimits⟩ := c.negotiation.spares_advance ch
  exact Registers.Kept.move h hsize (hlimits.2 ▸ Registers.Kept.maxRead h)

theorem Kept.feed (h : c.Kept arrived ch) :
    let p := c.feed ch
    p.connection.Kept arrived p.channel := by
  unfold Connection.feed
  cases c.status with
  | idle | handshaking =>
    unfold negotiate
    dsimp only
    cases (c.negotiation.advance ch).verdict with
    | pending => exact h.negotiated .handshaking
    | done => exact kept_readFrames (h.negotiated .established) _ _
    | fault error => exact h.negotiated .failed
  | established => exact kept_readFrames h _ _
  | closed | failed => exact h

theorem Kept.feedChecked_eq (h : c.Kept arrived ch) (harrived : arrived < values)
    (hvalues : values ≤ UInt64.size) : c.feedChecked values ch = some (c.feed ch) := by
  unfold feedChecked Connection.feed
  cases c.status with
  | idle | handshaking =>
    unfold negotiateChecked negotiate
    rw [Negotiation.advanceChecked_eq, Option.bind_eq_bind, Option.bind_some]
    dsimp only
    cases (c.negotiation.advance ch).verdict with
    | pending => rfl
    | done => exact readFramesChecked_eq (h.negotiated .established) harrived hvalues _ _
    | fault error => rfl
  | established => exact readFramesChecked_eq h harrived hvalues _ _
  | closed | failed => rfl

/-- What can be done with a conversation, on a channel that rations as it likes. -/
inductive Move where
  | use (op : Session.Operation)
  | ration (window maxRead : Option Nat) (h : maxRead ≠ some 0)

def Move.arriving : Move → Nat
  | use (.arrive bytes) => bytes.length
  | use .feed | use (.write _ _) | use (.read _) | use (.readInto _) | use .collect
  | use (.rename _) | ration _ _ _ => 0

namespace Conversation

def move (c : Conversation) : Move → Conversation
  | .use op => c.step op
  | .ration window maxRead _ => { c with channel := { c.channel with window, maxRead } }

def moveAll (c : Conversation) (moves : List Move) : Conversation :=
  moves.foldl move c

def Kept (arrived : Nat) (c : Conversation) : Prop :=
  c.connection.Kept arrived c.channel

variable {arrived : Nat} {c : Conversation}

theorem Kept.move (h : Kept arrived c) (m : Move) : Kept (arrived + m.arriving) (c.move m) := by
  have hmaxRead : c.channel.maxRead ≠ some 0 := Registers.Kept.maxRead h
  cases m with
  | ration window maxRead hm => exact Registers.Kept.move h (Nat.le_refl _) hm
  | use op =>
    cases op with
    | arrive bytes => exact Registers.Kept.arrive h bytes
    | feed => exact Connection.Kept.feed h
    | write payload hlen =>
      have hchannel : (c.connection.write c.channel payload).channel.inbox = c.channel.inbox ∧
          (c.connection.write c.channel payload).channel.maxRead = c.channel.maxRead := by
        unfold Connection.write
        split <;> exact ⟨rfl, rfl⟩
      exact Registers.Kept.move h (Nat.le_of_eq (congrArg Inbox.size hchannel.1))
        (hchannel.2 ▸ hmaxRead)
    | read n => exact Registers.Kept.read h n
    | readInto buffer => exact Registers.Kept.read h buffer.length
    | collect => exact Registers.Kept.move h (Nat.le_refl _) hmaxRead
    | rename id => exact Registers.Kept.setId h id

theorem Kept.moveAll (h : Kept arrived c) (moves : List Move) :
    Kept (arrived + (moves.map Move.arriving).sum) (c.moveAll moves) := by
  induction moves generalizing arrived c with
  | nil => exact h
  | cons m moves ih =>
    have hlater := ih (h.move m)
    rw [Nat.add_assoc] at hlater
    exact hlater

end Conversation

/-- As long as less has arrived than a word can count, everything stays within bounds: in every run
of a connection, each feed and each read of its data; in every run of a decoder by itself, also one
that goes on behind a fault, each call and each read of its data; and every call of a
negotiation. -/
theorem stays_within_bounds {values : Nat} (hvalues : values ≤ UInt64.size) :
    (∀ moves : List Move, (moves.map Move.arriving).sum < values →
      let c := ({} : Conversation).moveAll moves
      c.connection.feedChecked values c.channel = some (c.connection.feed c.channel) ∧
        c.connection.received.ReadSafe) ∧
    (∀ ops : List Decoding.Operation, (ops.map Decoding.Operation.arriving).sum < values →
      let d := ({} : Decoding).run ops
      d.decodeChecked values = some d.decode ∧ d.received.ReadSafe) ∧
    (∀ (n : Negotiation) (ch : Channel), n.advanceChecked ch = some (n.advance ch)) ∧
    (∀ line, RequestLine.ofBytesChecked line = some (.ofBytes line)) ∧
    ∀ (m : Mask) (payload : List UInt8), Mask.applyChecked m.key m.index payload =
      some (m.apply payload, ((m.advance payload.length).index : Nat)) := by
  refine ⟨?_, ?_, Negotiation.advanceChecked_eq, RequestLine.ofBytesChecked_eq,
    Mask.applyChecked_eq⟩
  · intro moves hmoves c
    have hfresh : Conversation.Kept 0 {} := Registers.Kept.fresh
    have hkept := hfresh.moveAll moves
    rw [Nat.zero_add] at hkept
    exact ⟨Kept.feedChecked_eq hkept hmoves hvalues, (Registers.Kept.received hkept).readSafe⟩
  · intro ops hops d
    have hfresh : Decoding.Kept 0 {} := Registers.Kept.fresh
    have hkept := hfresh.run ops
    rw [Nat.zero_add] at hkept
    exact ⟨hkept.decodeChecked_eq hops hvalues, (Registers.Kept.received hkept).readSafe⟩

/-- A connection that is told of as many bytes as a length can say, one of which is there, and a
decoder that goes on behind a frame that was not masked, byte by byte. -/
theorem stays_within_bounds_faulty :
    let request := Ascii.bytes "Sec-WebSocket-Key: dGhlIHNhbXBsZSBub25jZQ==\r\n\r\n"
    let endless : List UInt8 := [0x82, 0xFF, 255, 255, 255, 255, 255, 255, 255, 255, 1, 2, 3, 4, 5]
    let moves : List Move :=
      [.ration (some 9) (some 1) (by decide), .use (.arrive request), .use .feed,
        .use (.arrive endless)]
    let ops : List Decoding.Operation :=
      [.ration (some 4) (some 1) (by decide),
        .arrive [0x82, 0x00, 0x82, 0x82, 1, 2, 3, 4, 5, 6], .decode]
    let c := ({} : Conversation).moveAll moves
    let d := ({} : Decoding).run ops
    UInt64.size ≤ UInt64.size ∧ (moves.map Move.arriving).sum < UInt64.size ∧
      (ops.map Decoding.Operation.arriving).sum < UInt64.size ∧
      c.connection.feedChecked UInt64.size c.channel = some (c.connection.feed c.channel) ∧
      (c.connection.feed c.channel).connection.decoder.remaining = UInt64.size - 2 ∧
      d.decodeChecked UInt64.size = some d.decode ∧ d.decode.received.toList = [4, 4] := by
  intro request endless moves ops c d
  have hmoves : (moves.map Move.arriving).sum < UInt64.size := by decide +kernel
  have hops : (ops.map Decoding.Operation.arriving).sum < UInt64.size := by decide +kernel
  obtain ⟨hconnection, hdecoder, -⟩ := stays_within_bounds (Nat.le_refl UInt64.size)
  exact ⟨Nat.le_refl _, hmoves, hops, (hconnection moves hmoves).1, by decide +kernel,
    (hdecoder ops hops).1, by decide +kernel⟩

end Connection

end WebSocket
