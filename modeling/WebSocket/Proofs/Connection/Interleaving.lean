import WebSocket.Proofs.Connection.Run
import WebSocket.Proofs.Frame.Settling
import WebSocket.Proofs.Frame.Wire

/-!
# What the application does in between

A connection is fed what arrives, and in between the application reads, writes, collects the output
and sets the number of the connection. What the feeds come to does not depend on that: a feed goes
as it would on a connection that has nothing but what bears on it (`feed_bare`), two conversations
that are alike in that stay alike (`Alike.step`), and nothing but an arrival or a feed touches it
(`alike_step`). So a run receives what the run of its arrivals and feeds alone receives.
-/

namespace WebSocket

namespace Session.Operation

/-- The operations by which bytes come in. -/
def comesIn : Operation → Bool
  | arrive _ | feed => true
  | write _ _ | read _ | readInto _ | collect | rename _ => false

def isWrite : Operation → Bool
  | write _ _ => true
  | arrive _ | feed | read _ | readInto _ | collect | rename _ => false

/-- The number that was set last, after an operation. -/
def idAfter (id : UInt32) : Operation → UInt32
  | rename new => new
  | arrive _ | feed | write _ _ | read _ | readInto _ | collect => id

end Session.Operation

namespace Connection

open Session (Operation Result)

/-! ## What a feed depends on -/

/-- The part of a connection that what arrives depends on. -/
def bare (c : Connection) : Connection where
  status := c.status
  negotiation := c.negotiation
  decoder := c.decoder.setId 0

private theorem bare_eq {c d : Connection} (hstatus : c.status = d.status)
    (hnegotiation : c.negotiation = d.negotiation)
    (hdecoder : c.decoder.setId 0 = d.decoder.setId 0) : c.bare = d.bare := by
  unfold bare
  rw [hstatus, hnegotiation, hdecoder]

/-- Progress of a connection, on whose channel `sent` had been written before, as that of a bare one
tells it. -/
structure Follows (c : Connection) (sent : Array UInt8) (b p : Progress) : Prop where
  bare : p.connection.bare = b.connection.bare
  id : p.connection.id = c.id
  valid : p.connection.received.Valid
  received : p.connection.received.toList = c.received.toList ++ b.connection.received.toList
  channel : p.channel = .holding b.channel.inbox.bytes (sent ++ b.channel.outgoing)
  result : p.result = b.result
  records : p.records.toList = b.records.toList.map fun r => { session := c.id, notice := r.notice }

private theorem decoder_readFrames (c : Connection) (ch : Channel) (records : Array Record)
    (calls : Array Call) :
    (c.readFrames ch records calls).connection.decoder = (c.decoder.decode ch).1 := by
  unfold readFrames conclude
  dsimp only
  cases (c.decoder.decode ch).2.verdict <;> rfl

private theorem decoder_negotiate_bare (c : Connection) (bytes : List UInt8) (sent : Array UInt8) :
    (c.bare.negotiate (.holding bytes)).connection.decoder =
      (c.negotiate (.holding bytes sent)).connection.decoder.setId 0 := by
  have hnegotiation : c.bare.negotiation = c.negotiation := rfl
  unfold negotiate
  rw [hnegotiation, Negotiation.advance_holding _ _ sent, Negotiation.advance_holding _ _ #[]]
  dsimp only
  cases (c.negotiation.outcome bytes).verdict with
  | pending | fault error => rfl
  | done =>
    dsimp only
    rw [decoder_readFrames, decoder_readFrames, Registers.decode_holding, Registers.decode_holding]
    exact Registers.settle_setId _ _ _

private theorem decoder_feed_bare (c : Connection) (bytes : List UInt8) (sent : Array UInt8) :
    (c.bare.feed (.holding bytes)).connection.decoder =
      (c.feed (.holding bytes sent)).connection.decoder.setId 0 := by
  have hbare : c.bare.status = c.status := rfl
  cases hstatus : c.status with
  | idle =>
    rw [feed_of_opening (.inl (hbare.trans hstatus)), feed_of_opening (.inl hstatus)]
    exact decoder_negotiate_bare c bytes sent
  | handshaking =>
    rw [feed_of_opening (.inr (hbare.trans hstatus)), feed_of_opening (.inr hstatus)]
    exact decoder_negotiate_bare c bytes sent
  | established =>
    rw [feed_of_established (hbare.trans hstatus), feed_of_established hstatus, decoder_readFrames,
      decoder_readFrames, Registers.decode_holding, Registers.decode_holding]
    exact Registers.settle_setId _ _ _
  | closed | failed =>
    simp only [feed, hbare, hstatus]
    rfl

theorem Carries.bare {c : Connection} {s : Session} (h : c.Carries s) :
    c.bare.Carries { status := s.status, negotiation := s.negotiation, reader := s.reader } :=
  ⟨rfl, h.status, h.negotiation, h.decoder.setId 0, rfl⟩

/-- A feed on a channel without limits goes as that of the bare connection. -/
theorem Carries.feed_bare {c : Connection} {s : Session} (h : c.Carries s)
    (hvalid : c.received.Valid) (bytes : List UInt8) (sent : Array UInt8) :
    Follows c sent (c.bare.feed (.holding bytes)) (c.feed (.holding bytes sent)) := by
  have hp := h.feed (.holding bytes sent)
  have hb := h.bare.feed (.holding bytes)
  have hs := Session.feed_holding (h.received ▸ hvalid) bytes sent
  have ht := Session.feed_holding
    (s := { status := s.status, negotiation := s.negotiation, reader := s.reader })
    ByteQueue.valid_empty bytes #[]
  have hcore := hs.core.trans ht.core.symm
  refine ⟨?_, ?_, ?_, ?_, ?_, ?_, ?_⟩
  · apply bare_eq
    · rw [hp.carries.status, hb.carries.status]
      exact congrArg Session.Core.status hcore
    · rw [hp.carries.negotiation, hb.carries.negotiation]
      exact congrArg Session.Core.negotiation hcore
    · rw [decoder_feed_bare c bytes sent]
      rfl
  · rw [hp.carries.id, hs.id, h.id]
  · rw [hp.carries.received]
    exact hs.valid
  · rw [hp.carries.received, hb.carries.received, hs.received, ht.received, h.received]
    rfl
  · have houtput (output : List UInt8) :
        sent ++ ((#[] : Array UInt8) ++ output) = sent ++ output := by
      apply Array.toList_inj.mp
      simp
    rw [hp.channel, hb.channel, hs.channel, ht.channel, Channel.bytes_holding,
      Channel.outgoing_holding, houtput]
    rfl
  · rw [hp.result, hb.result, hs.result, ht.result]
    rfl
  · rw [hp.records, hb.records, hs.records, ht.records, h.id, List.map_map]
    rfl

/-- One operation in a conversation. -/
structure Turn where
  before : Conversation
  op : Operation

/-- What a feed comes to, whatever the number of the connection. -/
structure Reception where
  result : Result
  status : Status
  negotiation : Negotiation
  /-- All that is in its registers, but for the number. -/
  decoder : Registers
  unread : List UInt8
  /-- What it adds to the data for the application. -/
  data : List UInt8
  sent : List UInt8
  notices : List Notice
deriving DecidableEq

namespace Turn

def after (t : Turn) : Conversation :=
  t.before.step t.op

def sent (t : Turn) : List UInt8 :=
  t.after.written.drop t.before.written.length

/-- The data that the application gets. -/
def given (t : Turn) : List UInt8 :=
  match t.op with
  | .read n => (t.before.connection.read n).1
  | .readInto buffer =>
    let (count, filled, _) := t.before.connection.readInto buffer
    filled.take count
  | .arrive _ | .feed | .write _ _ | .collect | .rename _ => []

def records (t : Turn) : List Record :=
  match t.op with
  | .feed => (t.before.connection.feed t.before.channel).records.toList
  | .write payload _ => (t.before.connection.write t.before.channel payload).records.toList
  | .arrive _ | .read _ | .readInto _ | .collect | .rename _ => []

def reception? (t : Turn) : Option Reception :=
  match t.op with
  | .feed =>
    some
      { result := (t.before.connection.feed t.before.channel).result
        status := t.after.connection.status
        negotiation := t.after.connection.negotiation
        decoder := t.after.connection.decoder.setId 0
        unread := t.after.channel.inbox.bytes
        data := t.after.connection.received.toList.drop t.before.connection.received.toList.length
        sent := t.sent
        notices := t.records.map Record.notice }
  | .arrive _ | .write _ _ | .read _ | .readInto _ | .collect | .rename _ => none

end Turn

namespace Conversation

def turns (c : Conversation) : List Operation → List Turn
  | [] => []
  | op :: ops => { before := c, op } :: (c.step op).turns ops

/-- What the feeds of a run come to. -/
def receptions (c : Conversation) (ops : List Operation) : List Reception :=
  (c.turns ops).filterMap Turn.reception?

/-- The data that came in by the end of a run, whether the application has read it or not. -/
def dataStream (c : Conversation) (ops : List Operation) : List UInt8 :=
  (c.turns ops).flatMap Turn.given ++ (c.run ops).connection.received.toList

/-- All that a run sends, without the frames that the application writes. -/
def replyStream (c : Conversation) (ops : List Operation) : List UInt8 :=
  ((c.turns ops).filter fun t => !t.op.isWrite).flatMap Turn.sent

/-! ## A feed without limits -/

/-- The connection is in order, and its channel has no limits. -/
structure Regular (c : Conversation) : Prop where
  session : ∃ s, c.connection.Carries s
  valid : c.connection.received.Valid
  channel : c.channel = .holding c.channel.inbox.bytes c.channel.outgoing

/-- What a feed would do now, to the bare connection. -/
def outlook (c : Conversation) : Progress :=
  c.connection.bare.feed (.holding c.channel.inbox.bytes)

theorem regular_fresh : Regular {} where
  session := ⟨_, Connection.carries_fresh⟩
  valid := ByteQueue.valid_empty
  channel := rfl

theorem Regular.follows {c : Conversation} (h : c.Regular) :
    Follows c.connection c.channel.outgoing c.outlook (c.connection.feed c.channel) := by
  obtain ⟨s, hcarries⟩ := h.session
  have hfeed := hcarries.feed_bare h.valid c.channel.inbox.bytes c.channel.outgoing
  rw [← h.channel] at hfeed
  exact hfeed

theorem Regular.step {c : Conversation} (h : c.Regular) (op : Operation) : (c.step op).Regular := by
  obtain ⟨s, hcarries⟩ := h.session
  cases op with
  | arrive bytes =>
    refine ⟨h.session, h.valid, ?_⟩
    rw [Conversation.step, h.channel, Channel.receive_holding]
    rfl
  | feed =>
    refine ⟨⟨_, (hcarries.feed c.channel).carries⟩, h.follows.valid, ?_⟩
    simp only [Conversation.step, h.follows.channel, Channel.bytes_holding, Channel.outgoing_holding]
  | write payload hlen =>
    refine ⟨h.session, h.valid, ?_⟩
    simp only [Conversation.step, Connection.write]
    split
    · rw [h.channel]
      rfl
    · exact h.channel
  | read n => exact ⟨⟨_, (hcarries.read n).2⟩, h.valid.read_snd n, h.channel⟩
  | readInto buffer =>
    exact ⟨⟨_, (hcarries.readInto buffer).2.2⟩, h.valid.read_snd buffer.length, h.channel⟩
  | collect =>
    refine ⟨h.session, h.valid, ?_⟩
    simp only [Conversation.step, Channel.collect]
    rw [h.channel]
    rfl
  | rename id => exact ⟨⟨_, hcarries.setId id⟩, h.valid, h.channel⟩

/-! ## One turn -/

/-- Every turn adds to what was sent before. -/
theorem Regular.written_step {c : Conversation} (h : c.Regular) (op : Operation) :
    (c.step op).written = c.written ++ ({ before := c, op } : Turn).sent := by
  suffices hadds : c.written <+: (c.step op).written from (List.prefix_iff_eq_append.mp hadds).symm
  cases op with
  | arrive bytes | read n | readInto buffer | rename id => exact List.prefix_rfl
  | feed =>
    refine ⟨c.outlook.channel.outgoing.toList, ?_⟩
    simp [Conversation.step, written, h.follows.channel]
  | write payload hlen =>
    simp only [Conversation.step, Connection.write]
    split
    · refine ⟨(ServerFrame.binary payload).encode, ?_⟩
      simp [written]
    · exact List.prefix_rfl
  | collect => simp [Conversation.step, written, Channel.collect]

theorem Regular.reception?_feed {c : Conversation} (h : c.Regular) :
    ({ before := c, op := .feed } : Turn).reception? =
      some
        { result := c.outlook.result
          status := c.outlook.connection.bare.status
          negotiation := c.outlook.connection.bare.negotiation
          decoder := c.outlook.connection.bare.decoder
          unread := c.outlook.channel.inbox.bytes
          data := c.outlook.connection.received.toList
          sent := c.outlook.channel.outgoing.toList
          notices := c.outlook.records.toList.map Record.notice } := by
  have hfollows := h.follows
  have hsent : ({ before := c, op := .feed } : Turn).sent = c.outlook.channel.outgoing.toList := by
    simp [Turn.sent, Turn.after, Conversation.step, written, hfollows.channel]
  have hdata : (c.connection.feed c.channel).connection.received.toList.drop
      c.connection.received.toList.length = c.outlook.connection.received.toList := by
    rw [hfollows.received, List.drop_left]
  have hnotices : (c.connection.feed c.channel).records.toList.map Record.notice =
      c.outlook.records.toList.map Record.notice := by
    rw [hfollows.records, List.map_map]
    rfl
  simp only [Turn.reception?, Turn.after, Turn.records, Conversation.step, hsent, hdata, hnotices,
    hfollows.result, hfollows.channel, Channel.bytes_holding, ← hfollows.bare]
  rfl

/-- A turn moves data from the connection to the application, and a feed brings more of it. -/
theorem Regular.given_step {c : Conversation} (h : c.Regular) (op : Operation) :
    let t : Turn := { before := c, op }
    t.given ++ (c.step op).connection.received.toList =
      c.connection.received.toList ++ t.reception?.toList.flatMap Reception.data := by
  dsimp only
  cases op with
  | feed =>
    rw [h.reception?_feed]
    simpa [Turn.given, Conversation.step] using h.follows.received
  | read n =>
    simp only [Turn.given, Turn.reception?, Conversation.step, Connection.read, h.valid.read_fst,
      h.valid.toList_read_snd]
    simp
  | readInto buffer =>
    simp only [Turn.given, Turn.reception?, Conversation.step, Connection.readInto,
      ByteQueue.readInto, List.take_left', h.valid.read_fst, h.valid.toList_read_snd]
    simp
  | arrive bytes | write payload hlen | collect | rename id =>
    exact (List.append_nil _).symm

/-- Only feeds and writes send. -/
theorem sent_of_not_isWrite {t : Turn} (h : t.op.isWrite = false) :
    t.sent = t.reception?.toList.flatMap Reception.sent := by
  obtain ⟨c, op⟩ := t
  cases op with
  | feed => simp [Turn.reception?]
  | write payload hlen => cases h
  | arrive bytes | read n | readInto buffer | rename id => exact List.drop_length
  | collect => simp [Turn.sent, Turn.after, Turn.reception?, step, written, Channel.collect]

/-- A write sends its frame if frames are exchanged, and nothing otherwise. -/
theorem sent_of_write {t : Turn} {payload : List UInt8} {hlen : payload.length < 2 ^ 64}
    (h : t.op = .write payload hlen) :
    t.sent =
      if t.before.connection.status = .established then (ServerFrame.binary payload).bytes
      else [] := by
  obtain ⟨c, op⟩ := t
  cases h
  simp only [Turn.sent, Turn.after, step, Connection.write, ServerFrame.bytes_eq_encode]
  split <;> simp [written]

theorem Regular.session_of_mem_records {c : Conversation} (h : c.Regular) (op : Operation) :
    ∀ r ∈ ({ before := c, op } : Turn).records, r.session = c.connection.id := by
  intro r hr
  cases op with
  | feed =>
    simp only [Turn.records, h.follows.records, List.mem_map] at hr
    obtain ⟨noted, -, rfl⟩ := hr
    rfl
  | write payload hlen =>
    have hlogged (notice : Notice) (hmem : r ∈ (c.connection.record #[notice]).toList) :
        r.session = c.connection.id := by
      rw [Connection.record, Array.toList_map] at hmem
      obtain ⟨noted, -, rfl⟩ := List.mem_map.mp hmem
      rfl
    simp only [Turn.records, Connection.write] at hr
    split at hr
    · exact hlogged _ hr
    · exact hlogged _ hr
  | arrive bytes | read n | readInto buffer | collect | rename id => cases hr

theorem Regular.id_step {c : Conversation} (h : c.Regular) (op : Operation) :
    (c.step op).connection.id = op.idAfter c.connection.id := by
  cases op with
  | feed => exact h.follows.id
  | arrive bytes | write payload hlen | read n | readInto buffer | collect | rename id => rfl

/-! ## Two conversations -/

/-- The conversations have the same to go on. -/
structure Alike (c d : Conversation) : Prop where
  bare : c.connection.bare = d.connection.bare
  unread : c.channel.inbox.bytes = d.channel.inbox.bytes

theorem Alike.outlook {c d : Conversation} (h : c.Alike d) : c.outlook = d.outlook := by
  rw [Conversation.outlook, h.bare, h.unread]
  rfl

/-- Only what comes in moves on what a feed depends on. -/
theorem alike_step (c : Conversation) {op : Operation} (h : op.comesIn = false) :
    (c.step op).Alike c := by
  cases op with
  | arrive bytes | feed => cases h
  | write payload hlen =>
    refine ⟨rfl, ?_⟩
    simp only [step, Connection.write]
    split <;> rfl
  | read n | readInto buffer | collect | rename id => exact ⟨rfl, rfl⟩

theorem Alike.step {c d : Conversation} (h : c.Alike d) (hc : c.Regular) (hd : d.Regular)
    {op : Operation} (hop : op.comesIn = true) : (c.step op).Alike (d.step op) := by
  cases op with
  | arrive bytes =>
    refine ⟨h.bare, ?_⟩
    simp only [Conversation.step, Channel.bytes_receive, h.unread]
  | feed =>
    constructor
    · simp only [Conversation.step]
      rw [hc.follows.bare, hd.follows.bare, h.outlook]
    · simp only [Conversation.step, hc.follows.channel, hd.follows.channel,
        Channel.bytes_holding, h.outlook]
  | write payload hlen | read n | readInto buffer | collect | rename id => cases hop

theorem Alike.reception? {c d : Conversation} (h : c.Alike d) (hc : c.Regular) (hd : d.Regular)
    (op : Operation) :
    ({ before := c, op } : Turn).reception? = ({ before := d, op } : Turn).reception? := by
  cases op with
  | feed => rw [hc.reception?_feed, hd.reception?_feed, h.outlook]
  | arrive bytes | write payload hlen | read n | readInto buffer | collect | rename id => rfl

theorem reception?_of_not_comesIn (c : Conversation) {op : Operation} (h : op.comesIn = false) :
    ({ before := c, op } : Turn).reception? = none := by
  cases op with
  | arrive bytes | feed => cases h
  | write payload hlen | read n | readInto buffer | collect | rename id => rfl

theorem receptions_cons (c : Conversation) (op : Operation) (ops : List Operation) :
    c.receptions (op :: ops) =
      ({ before := c, op } : Turn).reception?.toList ++ (c.step op).receptions ops := by
  simp only [receptions, turns, List.filterMap_cons]
  cases ({ before := c, op } : Turn).reception? <;> rfl

/-- The operations that bring nothing in may be left out. -/
theorem Alike.receptions_filter {c d : Conversation} (h : c.Alike d) (hc : c.Regular)
    (hd : d.Regular) (ops : List Operation) :
    c.receptions ops = d.receptions (ops.filter Operation.comesIn) := by
  induction ops generalizing c d with
  | nil => rfl
  | cons op ops ih =>
    cases hop : op.comesIn with
    | true =>
      rw [List.filter_cons_of_pos hop, receptions_cons, receptions_cons, h.reception? hc hd op,
        ih (h.step hc hd hop) (hc.step op) (hd.step op)]
    | false =>
      have hsame : (c.step op).Alike d :=
        ⟨(alike_step c hop).bare.trans h.bare, (alike_step c hop).unread.trans h.unread⟩
      rw [List.filter_cons_of_neg (by simp [hop]), receptions_cons,
        reception?_of_not_comesIn c hop, ih hsame (hc.step op) hd]
      rfl

/-! ## What a run receives, and what it sends -/

/-- The data is that of the receptions. -/
theorem Regular.dataStream_eq {c : Conversation} (h : c.Regular) (ops : List Operation) :
    c.dataStream ops =
      c.connection.received.toList ++ (c.receptions ops).flatMap Reception.data := by
  induction ops generalizing c with
  | nil => simp [dataStream, turns, receptions, run]
  | cons op ops ih =>
    have hrest := ih (h.step op)
    have hstep := h.given_step op
    dsimp only at hstep
    rw [dataStream] at hrest ⊢
    rw [turns, List.flatMap_cons, run_cons, List.append_assoc, hrest, ← List.append_assoc, hstep,
      receptions_cons, List.flatMap_append, List.append_assoc]

/-- What is sent apart from the frames of the application are the replies of the receptions. -/
theorem replyStream_eq (c : Conversation) (ops : List Operation) :
    c.replyStream ops = (c.receptions ops).flatMap Reception.sent := by
  induction ops generalizing c with
  | nil => rfl
  | cons op ops ih =>
    have hrest := ih (c.step op)
    rw [replyStream] at hrest ⊢
    rw [turns, receptions_cons, List.flatMap_append, ← hrest]
    cases hop : op.isWrite with
    | true =>
      rw [List.filter_cons_of_neg (by simp [hop])]
      cases op with
      | write payload hlen => rfl
      | arrive bytes | feed | read n | readInto buffer | collect | rename id => cases hop
    | false =>
      rw [List.filter_cons_of_pos (by simp [hop]), List.flatMap_cons,
        sent_of_not_isWrite (t := { before := c, op }) hop]

theorem Regular.written_run {c : Conversation} (h : c.Regular) (ops : List Operation) :
    (c.run ops).written = c.written ++ (c.turns ops).flatMap Turn.sent := by
  induction ops generalizing c with
  | nil => exact (List.append_nil _).symm
  | cons op ops ih =>
    rw [run_cons, ih (h.step op), h.written_step op, turns, List.flatMap_cons, List.append_assoc]

theorem Regular.run {c : Conversation} (h : c.Regular) (ops : List Operation) :
    (c.run ops).Regular := by
  induction ops generalizing c with
  | nil => exact h
  | cons op ops ih => exact ih (h.step op)

theorem Regular.id_run {c : Conversation} (h : c.Regular) (ops : List Operation) :
    (c.run ops).connection.id = ops.foldl Operation.idAfter c.connection.id := by
  induction ops generalizing c with
  | nil => rfl
  | cons op ops ih => rw [run_cons, ih (h.step op), h.id_step op, List.foldl_cons]

/-- Two conversations to which the same comes in, in the same parts, receive the same, whatever the
application does in between: each feed has the same result, leaves the connection and its decoder in
the same place, brings the same data and the same replies and gives the same notices; and so the
whole stream of data is the same, and all that is sent apart from the frames of the application. In
either of them what is sent is sent turn by turn, a write sends its own frame or nothing, and the
records of every turn, those of the decoder too, carry the number that was set last. -/
theorem receptions_independent {ops ops' : List Operation}
    (h : ops.filter Operation.comesIn = ops'.filter Operation.comesIn) :
    let c : Conversation := {}
    c.receptions ops = c.receptions ops' ∧ c.dataStream ops = c.dataStream ops' ∧
      c.replyStream ops = c.replyStream ops' ∧
      ∀ run ∈ [ops, ops'],
        (c.run run).written = (c.turns run).flatMap Turn.sent ∧
          (∀ t ∈ c.turns run, ∀ payload hlen, t.op = .write payload hlen →
            t.sent =
              if t.before.connection.status = .established then (ServerFrame.binary payload).bytes
              else []) ∧
          ∀ earlier op later, run = earlier ++ op :: later →
            ∀ r ∈ ({ before := c.run earlier, op } : Turn).records,
              r.session = earlier.foldl Operation.idAfter 0 := by
  intro c
  have hfresh : c.Regular := regular_fresh
  have halike : c.Alike c := ⟨rfl, rfl⟩
  have hreceptions : c.receptions ops = c.receptions ops' := by
    rw [halike.receptions_filter hfresh hfresh ops, h,
      ← halike.receptions_filter hfresh hfresh ops']
  refine ⟨hreceptions, ?_, ?_, ?_⟩
  · rw [hfresh.dataStream_eq, hreceptions, ← hfresh.dataStream_eq]
  · rw [replyStream_eq, hreceptions, ← replyStream_eq]
  · intro run _
    refine ⟨hfresh.written_run run, ?_, ?_⟩
    · intro t _ payload hlen hop
      exact sent_of_write hop
    · intro earlier op later _ r hr
      rw [(hfresh.run earlier).session_of_mem_records op r hr, hfresh.id_run earlier]

/-- A text frame of two bytes arrives in two parts, between which the application is busy. -/
theorem receptions_independent_busy :
    let request := Ascii.bytes "Sec-WebSocket-Key: dGhlIHNhbXBsZSBub25jZQ==\r\n\r\n"
    let first : List UInt8 := [0x81, 0x82, 1, 2, 3, 4, 0x49]
    let quiet : List Operation :=
      [.arrive request, .feed, .arrive first, .feed, .arrive [0x6B], .feed]
    let busy : List Operation :=
      [.write [1] (by decide), .arrive request, .rename 7, .feed, .write [2] (by decide),
        .arrive first, .feed, .read 1, .rename 8, .collect, .arrive [0x6B], .readInto [0, 0], .feed]
    let c : Conversation := {}
    busy.filter Operation.comesIn = quiet.filter Operation.comesIn ∧
      c.receptions busy = c.receptions quiet ∧ c.dataStream busy = Ascii.bytes "Hi" ∧
      c.dataStream quiet = Ascii.bytes "Hi" ∧
      ({ before := c.run (busy.take 6), op := .feed } : Turn).records =
        [{ session := 7, notice := .frameReceived .text },
          { session := 7, notice := .payloadAnnounced 2 }] := by
  intro request first quiet busy c
  have hfilter : busy.filter Operation.comesIn = quiet.filter Operation.comesIn := rfl
  obtain ⟨hreceptions, hdata, -, -⟩ := receptions_independent hfilter
  have hquiet : c.dataStream quiet = Ascii.bytes "Hi" := by decide +kernel
  exact ⟨hfilter, hreceptions, hdata.trans hquiet, hquiet, by decide +kernel⟩

end Conversation

end Connection

end WebSocket
