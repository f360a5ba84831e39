import WebSocket.Proofs.Endpoint.Run

/-!
# Faults of the write side

What a peer does with output bears on nothing that comes in. `intake` forgets it, and every turn of
a run looks the same from there (`view_intake`), so that two runs over the same input cannot be told
apart by it. Of its output, each turn has a prefix accepted, and what is not accepted is never
offered again.
-/

namespace WebSocket

namespace Peer

/-- The side of a peer that gives. -/
def source (p : Peer) : Peer where
  reads := p.reads

theorem read_source (p : Peer) (size : Nat) :
    p.source.read size = ((p.read size).1, (p.read size).2.source) := by
  cases hreads : p.reads with
  | nil => simp [read, source, hreads]
  | cons event reads =>
    cases event with
    | fault fault => simp [read, source, hreads]
    | data bytes =>
      simp only [read, source, hreads]
      cases bytes.drop size <;> rfl

end Peer

def PeerCall.isRead : PeerCall → Bool
  | .read _ => true
  | .write _ | .flush => false

namespace Endpoint

/-- The endpoint as it would be with a peer that gives the same, and of which nothing else is
kept. -/
def intake (e : Endpoint) : Endpoint :=
  { e with peer := e.peer.source }

/-- The operations that give application data. -/
def Operation.readsData : Operation → Bool
  | .read _ | .readInto _ | .sessionRead _ => true
  | .receive | .send _ _ | .setBufferSize _ | .rename _ => false

/-- One operation in a run. -/
structure Turn where
  before : Endpoint
  op : Operation

namespace Turn

def exchange (t : Turn) : Exchange Answer :=
  t.before.perform t.op

def after (t : Turn) : Endpoint :=
  t.exchange.endpoint

/-- What the session has to send after its part of the turn. -/
def batch (t : Turn) : List UInt8 :=
  (t.before.alone.run (t.before.plain t.op)).channel.outgoing.toList

/-- What the peer accepts in the turn. -/
def taken (t : Turn) : List UInt8 :=
  t.after.peer.accepted.toList.drop t.before.peer.accepted.size

/-- What the writes of the turn meet. -/
def met (t : Turn) : List WriteEvent :=
  t.before.peer.writes.take (t.before.peer.writes.length - t.after.peer.writes.length)

/-- What can be seen of a turn from the side on which bytes come in. -/
structure View where
  session : Session
  channel : Channel
  batch : List UInt8
  readCalls : List PeerCall
  /-- What a read of the application gives it. -/
  data : Option (Except EndpointError Answer)

def view (t : Turn) : View where
  session := t.after.session
  channel := t.after.channel
  batch := t.batch
  readCalls := t.exchange.calls.toList.filter PeerCall.isRead
  data := if t.op.readsData then some t.exchange.result else none

/-- The peer accepts in the turn a prefix of its batch, which holds nothing of an earlier one, and
all of it unless a write fails. -/
structure Settled (t : Turn) : Prop where
  fresh : t.before.channel.outgoing = #[]
  accepted : t.after.peer.accepted.toList = t.before.peer.accepted.toList ++ t.taken
  taken_prefix : t.taken <+: t.batch
  complete : (∀ event ∈ t.met, event.Succeeds) → t.taken = t.batch

end Turn

def turns (e : Endpoint) : List Operation → List Turn
  | [] => []
  | op :: ops => { before := e, op } :: (e.perform op).endpoint.turns ops

/-! ## The view from the side of the input -/

private theorem plain_intake (e : Endpoint) (op : Operation) : e.intake.plain op = e.plain op := by
  cases op with
  | receive => simp only [plain, intake, Peer.read_source]
  | send payload h | read n | readInto buffer | sessionRead n | setBufferSize size | rename id =>
    rfl

private theorem peerAfterRead_intake (e : Endpoint) (op : Operation) :
    e.intake.peerAfterRead op = (e.peerAfterRead op).source := by
  have hasks : e.intake.asks op = e.asks op := by cases op <;> rfl
  rw [peerAfterRead, peerAfterRead, hasks]
  cases e.asks op with
  | true => exact congrArg Prod.snd (Peer.read_source e.peer e.bufferSize)
  | false => rfl

private theorem prepare_intake (e : Endpoint) (op : Operation) :
    e.intake.prepare op = (e.prepare op).intake := by
  have halone : e.intake.alone = e.alone := rfl
  simp only [prepare, plain_intake, peerAfterRead_intake, halone]
  cases op <;> rfl

private theorem intake_deliver (e : Endpoint) :
    e.deliver.endpoint.intake =
      { e.intake with channel := { e.channel with outgoing := #[] } } := by
  obtain ⟨peer, hendpoint, taken, met, hsends⟩ := e.exists_deliver
  rw [hendpoint]
  simp only [intake, Peer.source, hsends.reads]

theorem intake_perform {e : Endpoint} (h : e.channel.outgoing = #[]) (op : Operation) :
    (e.perform op).endpoint.intake = (e.intake.perform op).endpoint.intake := by
  have h' : e.intake.channel.outgoing = #[] := h
  rw [(perform_eq h op).endpoint, (perform_eq h' op).endpoint, intake_deliver, intake_deliver,
    prepare_intake]
  rfl

private theorem readCalls_perform {e : Endpoint} (h : e.channel.outgoing = #[]) (op : Operation) :
    (e.perform op).calls.toList.filter PeerCall.isRead = (e.readCalls op).toList := by
  obtain ⟨peer, -, taken, met, hsends⟩ := (e.prepare op).exists_deliver
  have hread : (e.readCalls op).toList.filter PeerCall.isRead = (e.readCalls op).toList := by
    rw [readCalls]
    cases e.asks op <;> rfl
  have hdeliver : (e.prepare op).deliver.calls.toList.filter PeerCall.isRead = [] := by
    apply List.filter_eq_nil_iff.mpr
    intro call hcall
    cases call with
    | read size => exact absurd hcall (hsends.no_reads size)
    | write bytes | flush => exact Bool.false_ne_true
  rw [(perform_eq h op).calls, Array.toList_append, List.filter_append, hread, hdeliver,
    List.append_nil]

theorem view_intake {e : Endpoint} (h : e.channel.outgoing = #[]) (op : Operation) :
    ({ before := e, op } : Turn).view = ({ before := e.intake, op } : Turn).view := by
  have h' : e.intake.channel.outgoing = #[] := h
  have hafter := intake_perform h op
  have hsession : (e.perform op).endpoint.session = (e.intake.perform op).endpoint.session := by
    have hintake := congrArg session hafter
    exact hintake
  have hchannel : (e.perform op).endpoint.channel = (e.intake.perform op).endpoint.channel := by
    have hintake := congrArg channel hafter
    exact hintake
  have hreadCalls : e.intake.readCalls op = e.readCalls op := by cases op <;> rfl
  have halone : e.intake.alone = e.alone := rfl
  simp only [Turn.view, Turn.after, Turn.exchange, Turn.batch, hsession, hchannel,
    readCalls_perform h, readCalls_perform h', hreadCalls, plain_intake, halone]
  cases op <;> rfl

/-- A run looks the same whatever the peer does with its output. -/
theorem views_intake {e : Endpoint} (h : e.channel.outgoing = #[]) (ops : List Operation) :
    (e.turns ops).map Turn.view = (e.intake.turns ops).map Turn.view := by
  induction ops generalizing e with
  | nil => rfl
  | cons op ops ih =>
    -- After the first turn neither endpoint is the intake of the other, but they have the same one.
    have hnext := ih (outgoing_perform h op)
    have hnext' := ih (outgoing_perform (e := e.intake) h op)
    rw [intake_perform h op, ← hnext'] at hnext
    rw [turns, turns, List.map_cons, List.map_cons, view_intake h op, hnext]

/-! ## What becomes of the output -/

private theorem settled {e : Endpoint} (h : e.channel.outgoing = #[]) (op : Operation) :
    ({ before := e, op } : Turn).Settled := by
  obtain ⟨peer, hendpoint, taken, met, hsends⟩ := (e.prepare op).exists_deliver
  rw [← (perform_eq h op).endpoint] at hendpoint
  have hpeer : (e.perform op).endpoint.peer = peer := by rw [hendpoint]
  obtain ⟨reads, hprepare⟩ := e.exists_peer_prepare op
  have haccepted : (e.perform op).endpoint.peer.accepted.toList =
      e.peer.accepted.toList ++ taken := by
    rw [hpeer, hsends.accepted, hprepare, Array.toList_appendList]
  have hwrites : e.peer.writes = met ++ (e.perform op).endpoint.peer.writes := by
    have hmet := hsends.writes
    rwa [hprepare, ← hpeer] at hmet
  have htaken : ({ before := e, op } : Turn).taken = taken := by
    simp only [Turn.taken, Turn.after, Turn.exchange, haccepted]
    exact List.drop_left' (Array.length_toList)
  have hmet : ({ before := e, op } : Turn).met = met := by
    simp only [Turn.met, Turn.after, Turn.exchange]
    rw [hwrites, List.length_append, Nat.add_sub_cancel, List.take_left]
  refine ⟨h, ?_, ?_, ?_⟩
  · rw [htaken]
    exact haccepted
  · rw [htaken]
    exact hsends.taken_prefix
  · rw [htaken, hmet]
    exact hsends.complete

theorem settled_turns {e : Endpoint} (h : e.channel.outgoing = #[]) (ops : List Operation) :
    ∀ t ∈ e.turns ops, t.Settled := by
  induction ops generalizing e with
  | nil =>
    intro t ht
    cases ht
  | cons op ops ih =>
    intro t ht
    rcases List.mem_cons.mp ht with rfl | ht
    · exact settled h op
    · exact ih (outgoing_perform h op) t ht

theorem accepted_run {e : Endpoint} (h : e.channel.outgoing = #[]) (ops : List Operation) :
    (e.run ops).peer.accepted.toList =
      e.peer.accepted.toList ++ ((e.turns ops).map Turn.taken).flatten := by
  induction ops generalizing e with
  | nil => exact (List.append_nil _).symm
  | cons op ops ih =>
    have hturn := (settled h op).accepted
    rw [Turn.after, Turn.exchange] at hturn
    rw [run_cons, ih (outgoing_perform h op), hturn, turns, List.map_cons, List.flatten_cons,
      List.append_assoc]

/-- Two peers that give the same are told apart by nothing that comes in, whatever they do with the
output. In either run, each turn has a prefix of what its session writes accepted, all of it where
no write fails, and what is not accepted then never is. -/
theorem faults_confined (reads : List ReadEvent) (writes writes' : List WriteEvent)
    (flushes flushes' : List (Option Fault)) (ops : List Operation) :
    let a : Endpoint := { peer := { reads, writes, flushes } }
    let b : Endpoint := { peer := { reads, writes := writes', flushes := flushes' } }
    (a.turns ops).map Turn.view = (b.turns ops).map Turn.view ∧
      ∀ e ∈ [a, b],
        (e.run ops).peer.accepted.toList = ((e.turns ops).map Turn.taken).flatten ∧
          ∀ t ∈ e.turns ops, t.Settled := by
  intro a b
  have hviews : (a.turns ops).map Turn.view = (b.turns ops).map Turn.view := by
    rw [views_intake (e := a) rfl, views_intake (e := b) rfl]
    rfl
  refine ⟨hviews, ?_⟩
  intro e he
  have hfresh : e.channel.outgoing = #[] ∧ e.peer.accepted = #[] := by
    rcases List.mem_pair.mp he with rfl | rfl <;> exact ⟨rfl, rfl⟩
  obtain ⟨houtgoing, haccepted⟩ := hfresh
  refine ⟨?_, settled_turns houtgoing ops⟩
  rw [accepted_run houtgoing, haccepted]
  rfl

end Endpoint

end WebSocket
