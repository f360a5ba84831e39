import WebSocket.Proofs.Endpoint.Delivery
import WebSocket.Proofs.Endpoint.Run

/-!
# Reading from a peer

A read meets the first of the events that a peer has to give, and no other part of an endpoint's
work hangs on these events: `withReads` puts others in their place, and delivery and every operation
that does not read go on as before. A receive is one of three things (`Receipt`).
-/

namespace WebSocket

namespace ReadEvent

/-- What a read of so many bytes is given by an event, and what it leaves of it. -/
def meet (event : ReadEvent) (size : Nat) : Except Fault (List UInt8) × List ReadEvent :=
  match event with
  | .fault why => (.error why, [])
  | .data bytes =>
    match bytes.drop size with
    | [] => (.ok bytes, [])
    | rest => (.ok (bytes.take size), [.data rest])

theorem length_meet_le (event : ReadEvent) (size : Nat) : (event.meet size).2.length ≤ 1 := by
  cases event with
  | fault why => exact Nat.zero_le 1
  | data bytes =>
    unfold meet
    dsimp only
    split
    · exact Nat.zero_le 1
    · exact Nat.le_refl 1

end ReadEvent

namespace Peer

def withReads (p : Peer) (reads : List ReadEvent) : Peer :=
  { p with reads }

@[simp] theorem reads_withReads (p : Peer) (reads : List ReadEvent) :
    (p.withReads reads).reads = reads := rfl

theorem read_of_nil {p : Peer} (h : p.reads = []) (size : Nat) : p.read size = (.ok [], p) := by
  simp only [read, h]

theorem read_of_cons {p : Peer} {event : ReadEvent} {reads : List ReadEvent}
    (h : p.reads = event :: reads) (size : Nat) :
    p.read size = ((event.meet size).1, p.withReads ((event.meet size).2 ++ reads)) := by
  cases event with
  | fault fault => simp only [read, h, ReadEvent.meet, withReads, List.nil_append]
  | data bytes =>
    simp only [read, h, ReadEvent.meet]
    cases bytes.drop size <;> rfl

/-- What is still to be read does not bear on what becomes of the output. -/
theorem send_withReads (p : Peer) (reads : List ReadEvent) (bytes : List UInt8) :
    (p.withReads reads).send bytes =
      ((p.send bytes).1, (p.send bytes).2.1.withReads reads, (p.send bytes).2.2) := by
  simp only [send, flush, withReads]
  cases (offer p.writes bytes p.accepted #[]).fault with
  | some fault => rfl
  | none => cases p.flushes <;> rfl

end Peer

namespace Endpoint

def withReads (e : Endpoint) (reads : List ReadEvent) : Endpoint :=
  { e with peer := e.peer.withReads reads }

def Exchange.withReads {α : Type} (x : Exchange α) (reads : List ReadEvent) : Exchange α :=
  { x with endpoint := x.endpoint.withReads reads }

/-! ## What hangs on the events of the peer -/

theorem deliver_withReads (e : Endpoint) (reads : List ReadEvent) :
    (e.withReads reads).deliver = e.deliver.withReads reads := by
  have hchannel : (e.withReads reads).channel = e.channel := rfl
  have hpeer : (e.withReads reads).peer = e.peer.withReads reads := rfl
  simp only [deliver, hchannel, hpeer, Peer.send_withReads]
  split <;> rfl

/-- An operation that does not read leaves the events of the peer as they are. -/
theorem perform_withReads {e : Endpoint} {op : Operation} (h : e.asks op = false)
    (reads : List ReadEvent) :
    (e.withReads reads).perform op = (e.perform op).withReads reads := by
  cases op with
  | receive =>
    have hfinal : e.session.status.isFinal = true := by simpa [asks] using h
    have hfinal' : (e.withReads reads).session.status.isFinal = true := hfinal
    simp only [perform, receive, hfinal, hfinal', if_true]
    rfl
  | send payload hlen =>
    have hdeliver := deliver_withReads
      { e with channel := (e.session.write e.channel payload).channel } reads
    simp only [perform, send]
    rw [show ({ e.withReads reads with
        channel := ((e.withReads reads).session.write (e.withReads reads).channel payload).channel }
        : Endpoint) =
      ({ e with channel := (e.session.write e.channel payload).channel } : Endpoint).withReads reads
      from rfl, hdeliver]
    rfl
  | read n | readInto buffer | sessionRead n | setBufferSize size | rename id => rfl

/-- The endpoint at the delivery of a receive. -/
def fedWith (e : Endpoint) (p : Peer) (fed : Session.Progress) : Endpoint :=
  { e with peer := p, channel := fed.channel, session := fed.session }

/-- The exchange of a receive that was given bytes. -/
def conclude (e : Endpoint) (bytes : List UInt8) (fed : Session.Progress) (sent : Exchange Unit) :
    Exchange Status where
  endpoint := sent.endpoint
  result := sent.result.bind fun _ => fed.result.mapError .session
  records := e.session.record #[.peerRead bytes.length] ++ fed.records ++ sent.records
  calls := #[.read e.bufferSize] ++ sent.calls

theorem receive_of_read {e : Endpoint} {b : UInt8} {bytes : List UInt8} {p : Peer}
    (hfinal : e.session.status.isFinal = false)
    (hread : e.peer.read e.bufferSize = (.ok (b :: bytes), p)) :
    let fed := e.session.feed (e.channel.receive (b :: bytes))
    e.receive = e.conclude (b :: bytes) fed (e.fedWith p fed).deliver := by
  intro fed
  simp only [receive, hfinal, hread, Bool.false_eq_true, if_false, conclude, fedWith]
  generalize Endpoint.deliver _ = sent
  cases sent with
  | mk endpoint result records calls =>
    cases result with
    | ok _ => rfl
    | error fault => rfl

/-- Two reads that give the same make the same receive. -/
theorem receive_withReads {e : Endpoint} {reads rest : List ReadEvent}
    {given : Except Fault (List UInt8)} {p : Peer} (hfinal : e.session.status.isFinal = false)
    (hread : e.peer.read e.bufferSize = (given, p))
    (hread' : (e.peer.withReads reads).read e.bufferSize = (given, p.withReads rest)) :
    (e.withReads reads).receive = e.receive.withReads rest := by
  have hfinal' : (e.withReads reads).session.status.isFinal = false := hfinal
  have hread'' : (e.withReads reads).peer.read (e.withReads reads).bufferSize =
      (given, p.withReads rest) := hread'
  cases given with
  | error fault =>
    simp only [receive, hfinal, hfinal', hread, hread'', Bool.false_eq_true, if_false]
    rfl
  | ok bytes =>
    cases bytes with
    | nil =>
      simp only [receive, hfinal, hfinal', hread, hread'', Bool.false_eq_true, if_false]
      rfl
    | cons b bytes =>
      have hfed := deliver_withReads
        (e.fedWith p (e.session.feed (e.channel.receive (b :: bytes)))) rest
      rw [receive_of_read hfinal hread, receive_of_read hfinal' hread'']
      have hsame : (e.withReads reads).fedWith (p.withReads rest)
          ((e.withReads reads).session.feed ((e.withReads reads).channel.receive (b :: bytes))) =
          (e.fedWith p (e.session.feed (e.channel.receive (b :: bytes)))).withReads rest := rfl
      rw [hsame, hfed]
      rfl

theorem reads_receive {e : Endpoint} (hfinal : e.session.status.isFinal = false) :
    e.receive.endpoint.peer.reads = (e.peer.read e.bufferSize).2.reads := by
  have hreceive : e.receive = e.receive.withReads (e.peer.read e.bufferSize).2.reads :=
    receive_withReads (e := e.withReads e.peer.reads) hfinal rfl rfl
  have hpeer := congrArg (fun x => x.endpoint.peer.reads) hreceive
  exact hpeer

theorem receive_of_final {e : Endpoint} (h : e.session.status.isFinal = true) :
    e.receive = { endpoint := e, result := .ok e.session.status } := by
  simp only [receive, h, if_true]

/-- What a receive can be: no more than a look at the status, a read that brings nothing, or a feed
with what was read and the delivery of what it wrote. -/
inductive Receipt (e : Endpoint) : Exchange Status → Prop where
  | rests (h : e.session.status.isFinal = true) :
      Receipt e { endpoint := e, result := .ok e.session.status }
  | bounces (h : e.session.status.isFinal = false) (fault : Fault) (p : Peer) :
      Receipt e
        { endpoint := { e with peer := p }, result := .error (.io fault)
          calls := #[.read e.bufferSize] }
  | takes (h : e.session.status.isFinal = false) (b : UInt8) (bytes : List UInt8) (p : Peer)
      (fed : Session.Progress) (hread : e.peer.read e.bufferSize = (.ok (b :: bytes), p))
      (hfed : fed = e.session.feed (e.channel.receive (b :: bytes))) :
      Receipt e (e.conclude (b :: bytes) fed (e.fedWith p fed).deliver)

theorem receipt_receive (e : Endpoint) : e.Receipt e.receive := by
  cases hfinal : e.session.status.isFinal with
  | true =>
    rw [receive_of_final hfinal]
    exact .rests hfinal
  | false =>
    cases hread : e.peer.read e.bufferSize with
    | mk given p =>
      cases given with
      | error fault =>
        simp only [receive, hfinal, hread, Bool.false_eq_true, if_false]
        exact .bounces hfinal fault p
      | ok bytes =>
        cases bytes with
        | nil =>
          simp only [receive, hfinal, hread, Bool.false_eq_true, if_false]
          exact .bounces hfinal .unexpectedEof p
        | cons b bytes =>
          rw [receive_of_read hfinal hread]
          exact .takes hfinal b bytes p _ hread rfl

end Endpoint

end WebSocket
