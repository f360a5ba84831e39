import WebSocket.Proofs.Endpoint.Delivery
import WebSocket.Proofs.Session.Run

/-!
# Runs of an endpoint

Each operation of an endpoint comes to some uses of its session (`plain`), which are made on the
session and its channel alone, and a delivery behind them (`perform_eq`).
-/

namespace WebSocket

/-- What an operation gives back. -/
inductive Answer where
  | done
  | status (status : Status)
  | bytes (bytes : List UInt8)
  | filled (count : Nat) (buffer : List UInt8)
deriving DecidableEq, Repr

namespace Session.Conversation

def reply (c : Conversation) : Operation → Except SessionError Answer
  | .feed => (c.session.feed c.channel).result.map .status
  | .read n => .ok (.bytes (c.session.read n).1)
  | .readInto buffer =>
    let (count, buffer, _) := c.session.readInto buffer
    .ok (.filled count buffer)
  | .arrive _ | .write _ _ | .collect | .rename _ => .ok .done

/-- The replies of a run. -/
def replies (c : Conversation) : List Operation → List (Except SessionError Answer)
  | [] => []
  | op :: ops => c.reply op :: (c.step op).replies ops

end Session.Conversation

namespace Endpoint

open Session (Conversation)

inductive Operation where
  | receive
  /-- The length of a payload is a number of 64 bits. -/
  | send (payload : List UInt8) (h : payload.length < 2 ^ 64)
  | read (n : Nat)
  | readInto (buffer : List UInt8)
  /-- Reading behind the back of the endpoint. -/
  | sessionRead (n : Nat)
  | setBufferSize (size : Nat)
  | rename (id : UInt32)

def Exchange.map {α β : Type} (f : α → β) (x : Exchange α) : Exchange β where
  endpoint := x.endpoint
  result := x.result.map f
  records := x.records
  calls := x.calls

def perform (e : Endpoint) : Operation → Exchange Answer
  | .receive => e.receive.map .status
  | .send payload _ => (e.send payload).map fun _ => .done
  | .read n =>
    let (bytes, e) := e.read n
    { endpoint := e, result := .ok (.bytes bytes) }
  | .readInto buffer =>
    let (count, buffer, e) := e.readInto buffer
    { endpoint := e, result := .ok (.filled count buffer) }
  | .sessionRead n =>
    let (bytes, session) := e.session.read n
    { endpoint := { e with session }, result := .ok (.bytes bytes) }
  | .setBufferSize size => { endpoint := e.setBufferSize size, result := .ok .done }
  | .rename id => { endpoint := { e with session := { e.session with id } }, result := .ok .done }

def run (e : Endpoint) (ops : List Operation) : Endpoint :=
  ops.foldl (fun e op => (e.perform op).endpoint) e

theorem run_cons (e : Endpoint) (op : Operation) (ops : List Operation) :
    e.run (op :: ops) = (e.perform op).endpoint.run ops := rfl

theorem run_append (e : Endpoint) (first second : List Operation) :
    e.run (first ++ second) = (e.run first).run second :=
  List.foldl_append

/-! ## The session behind an endpoint -/

/-- The session and its channel, without a peer. -/
def alone (e : Endpoint) : Conversation where
  session := e.session
  channel := e.channel

/-- A receive reads from the peer unless the session is at its end. -/
def asks (e : Endpoint) : Operation → Bool
  | .receive => !e.session.status.isFinal
  | .send _ _ | .read _ | .readInto _ | .sessionRead _ | .setBufferSize _ | .rename _ => false

/-- The read that an operation makes. -/
def readCalls (e : Endpoint) (op : Operation) : Array PeerCall :=
  if e.asks op then #[.read e.bufferSize] else #[]

def peerAfterRead (e : Endpoint) (op : Operation) : Peer :=
  if e.asks op then (e.peer.read e.bufferSize).2 else e.peer

/-- What an operation comes to for the session: what arrives is fed at once, and a read that fails
or is at the end of the stream comes to nothing. -/
def plain (e : Endpoint) : Operation → List Session.Operation
  | .receive =>
    if e.session.status.isFinal then []
    else
      match (e.peer.read e.bufferSize).1 with
      | .ok (b :: bytes) => [.arrive (b :: bytes), .feed]
      | .ok [] | .error _ => []
  | .send payload h => [.write payload h]
  | .read n | .sessionRead n => [.read n]
  | .readInto buffer => [.readInto buffer]
  | .setBufferSize _ => []
  | .rename id => [.rename id]

def plainAll (e : Endpoint) : List Operation → List Session.Operation
  | [] => []
  | op :: ops => e.plain op ++ (e.perform op).endpoint.plainAll ops

/-- What an operation gives back that comes to nothing for the session. -/
def idle (e : Endpoint) : Operation → Except EndpointError Answer
  | .receive =>
    if e.session.status.isFinal then .ok (.status e.session.status)
    else
      match (e.peer.read e.bufferSize).1 with
      | .ok _ => .error (.io .unexpectedEof)
      | .error fault => .error (.io fault)
  | .send _ _ | .read _ | .readInto _ | .sessionRead _ | .setBufferSize _ | .rename _ => .ok .done

/-- What an operation gives back if `c` makes its uses of the session and no fault of the delivery
hides it. -/
def answer (e : Endpoint) (c : Conversation) (op : Operation) : Except EndpointError Answer :=
  match (c.replies (e.plain op)).getLast? with
  | some reply => reply.mapError .session
  | none => e.idle op

def resize (e : Endpoint) : Operation → Endpoint
  | .setBufferSize size => e.setBufferSize size
  | .receive | .send _ _ | .read _ | .readInto _ | .sessionRead _ | .rename _ => e

/-- The endpoint before it delivers. -/
def prepare (e : Endpoint) (op : Operation) : Endpoint :=
  let c := e.alone.run (e.plain op)
  { e.resize op with peer := e.peerAfterRead op, session := c.session, channel := c.channel }

/-- A read does not touch the side of the peer that takes. -/
theorem exists_peer_prepare (e : Endpoint) (op : Operation) :
    ∃ reads, (e.prepare op).peer = { e.peer with reads } := by
  have hread : ∃ reads, (e.peer.read e.bufferSize).2 = { e.peer with reads } := by
    unfold Peer.read
    split
    · exact ⟨_, rfl⟩
    · exact ⟨_, rfl⟩
    · split <;> exact ⟨_, rfl⟩
  simp only [prepare, peerAfterRead]
  split
  · exact hread
  · exact ⟨_, rfl⟩

/-- An operation made on an endpoint: the uses of the session, then delivery, a fault of which hides
what the operation would give back. -/
structure Performs (e : Endpoint) (op : Operation) (x : Exchange Answer) : Prop where
  endpoint : x.endpoint = (e.prepare op).deliver.endpoint
  calls : x.calls = e.readCalls op ++ (e.prepare op).deliver.calls
  result : x.result = (e.prepare op).deliver.result.bind fun _ => e.answer e.alone op

private theorem performs_of_silent {e : Endpoint} {op : Operation} {x : Exchange Answer}
    (h : (e.prepare op).channel.outgoing = #[]) (hendpoint : x.endpoint = e.prepare op)
    (hcalls : x.calls = e.readCalls op) (hresult : x.result = e.answer e.alone op) :
    e.Performs op x := by
  have hdeliver := deliver_of_empty h
  refine ⟨?_, ?_, ?_⟩
  · rw [hdeliver, hendpoint]
  · rw [hdeliver, hcalls, Array.append_empty]
  · rw [hdeliver, hresult]
    rfl

private theorem performs_send (e : Endpoint) (payload : List UInt8) (h : payload.length < 2 ^ 64) :
    e.Performs (.send payload h) (e.perform (.send payload h)) where
  endpoint := rfl
  calls := Array.empty_append.symm
  result := by
    have hresult : (e.perform (.send payload h)).result =
        ((e.prepare (.send payload h)).deliver.result).map fun _ => .done := rfl
    rw [hresult]
    cases (e.prepare (.send payload h)).deliver.result with
    | ok _ => rfl
    | error error => rfl

private theorem performs_idle {e : Endpoint} (h : e.channel.outgoing = #[])
    (hplain : e.plain .receive = [])
    (hendpoint : (e.perform .receive).endpoint = { e with peer := e.peerAfterRead .receive })
    (hcalls : (e.perform .receive).calls = e.readCalls .receive)
    (hresult : (e.perform .receive).result = e.idle .receive) :
    e.Performs .receive (e.perform .receive) := by
  have hprepare : e.prepare .receive = { e with peer := e.peerAfterRead .receive } := by
    simp only [prepare, hplain]
    rfl
  apply performs_of_silent
  · rw [hprepare]
    exact h
  · rw [hprepare, hendpoint]
  · exact hcalls
  · rw [hresult, answer, hplain]
    rfl

private theorem receive_of_data {e : Endpoint} {b : UInt8} {bytes : List UInt8}
    (hfinal : e.session.status.isFinal = false)
    (hread : (e.peer.read e.bufferSize).1 = .ok (b :: bytes)) :
    let fed := e.session.feed (e.channel.receive (b :: bytes))
    let sent := deliver
      { e with
        peer := (e.peer.read e.bufferSize).2, channel := fed.channel, session := fed.session }
    e.receive.endpoint = sent.endpoint ∧ e.receive.calls = #[.read e.bufferSize] ++ sent.calls ∧
      e.receive.result = sent.result.bind fun _ => fed.result.mapError .session := by
  simp only [receive, hfinal, hread]
  refine ⟨rfl, rfl, ?_⟩
  generalize deliver _ = sent
  cases sent.result with
  | ok _ => rfl
  | error error => rfl

private theorem performs_receive {e : Endpoint} (h : e.channel.outgoing = #[]) :
    e.Performs .receive (e.perform .receive) := by
  cases hfinal : e.session.status.isFinal with
  | true =>
    apply performs_idle h <;>
      simp [perform, receive, Exchange.map, plain, idle, peerAfterRead, readCalls, asks, hfinal,
        Except.map]
  | false =>
    cases hread : (e.peer.read e.bufferSize).1 with
    | error fault =>
      apply performs_idle h <;>
        simp [perform, receive, Exchange.map, plain, idle, peerAfterRead, readCalls, asks, hfinal,
          hread, Except.map]
    | ok given =>
      cases given with
      | nil =>
        apply performs_idle h <;>
          simp [perform, receive, Exchange.map, plain, idle, peerAfterRead, readCalls, asks, hfinal,
            hread, Except.map]
      | cons b bytes =>
        let fed := e.session.feed (e.channel.receive (b :: bytes))
        have hplain : e.plain .receive = [.arrive (b :: bytes), .feed] := by
          simp [plain, hfinal, hread]
        have hprepare : e.prepare .receive =
            { e with
              peer := (e.peer.read e.bufferSize).2, channel := fed.channel
              session := fed.session } := by
          simp only [prepare, hplain, peerAfterRead, asks, hfinal]
          rfl
        have hanswer : e.answer e.alone .receive = (fed.result.map .status).mapError .session := by
          simp only [answer, hplain]
          rfl
        obtain ⟨hendpoint, hcalls, hresult⟩ := receive_of_data hfinal hread
        refine ⟨?_, ?_, ?_⟩
        · rw [hprepare]
          exact hendpoint
        · rw [hprepare, readCalls, asks, hfinal]
          exact hcalls
        · rw [hprepare, hanswer, perform, Exchange.map, hresult]
          generalize deliver _ = sent
          cases sent.result with
          | ok _ => cases fed.result <;> rfl
          | error error => rfl

/-- Every operation is the uses of the session that it comes to, and a delivery. -/
theorem perform_eq {e : Endpoint} (h : e.channel.outgoing = #[]) (op : Operation) :
    e.Performs op (e.perform op) := by
  cases op with
  | receive => exact performs_receive h
  | send payload hlen => exact performs_send e payload hlen
  | read n | readInto buffer | sessionRead n | setBufferSize size | rename id =>
    exact performs_of_silent h rfl rfl rfl

/-- No output is left behind. -/
theorem outgoing_perform {e : Endpoint} (h : e.channel.outgoing = #[]) (op : Operation) :
    (e.perform op).endpoint.channel.outgoing = #[] := by
  obtain ⟨peer, hendpoint, -⟩ := (e.prepare op).exists_deliver
  rw [(perform_eq h op).endpoint, hendpoint]

end Endpoint

end WebSocket
