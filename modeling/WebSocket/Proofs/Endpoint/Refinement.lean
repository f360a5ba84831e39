import WebSocket.Proofs.Endpoint.Run

/-!
# An endpoint as a bare session

Where no delivery fails, an endpoint is a session on a channel whose output is never collected: the
same bytes are fed to it, in the same parts, it gives the same results, and what it has written is
what the peer has accepted.
-/

namespace WebSocket

namespace Session.Conversation

/-- The conversation, had `sent` been sent before. -/
def after (c : Conversation) (sent : Array UInt8) : Conversation :=
  { c with channel := c.channel.after sent }

theorem after_of_collected {c : Conversation} (h : c.collected = []) (sent : Array UInt8) :
    c.after sent = { session := c.session, channel := c.channel.after sent } := by
  rw [after, h]

private theorem step_after {op : Operation} (h : op ≠ .collect) (c : Conversation)
    (sent : Array UInt8) : (c.after sent).step op = (c.step op).after sent := by
  cases op with
  | arrive bytes | read n | readInto buffer | rename id => rfl
  | feed => simp only [step, after, feed_after]
  | write payload hlen =>
    simp only [step, after, Session.write, Channel.write_after]
    split <;> rfl
  | collect => exact absurd rfl h

private theorem reply_after (op : Operation) (c : Conversation) (sent : Array UInt8) :
    (c.after sent).reply op = c.reply op := by
  cases op with
  | feed => simp only [reply, after, feed_after]
  | arrive bytes | write payload hlen | read n | readInto buffer | collect | rename id => rfl

theorem run_after {ops : List Operation} (h : .collect ∉ ops) (c : Conversation)
    (sent : Array UInt8) : (c.after sent).run ops = (c.run ops).after sent := by
  induction ops generalizing c with
  | nil => rfl
  | cons op ops ih =>
    rw [List.mem_cons, not_or] at h
    rw [run_cons, run_cons, step_after (Ne.symm h.1), ih h.2]

theorem replies_after {ops : List Operation} (h : .collect ∉ ops) (c : Conversation)
    (sent : Array UInt8) : (c.after sent).replies ops = c.replies ops := by
  induction ops generalizing c with
  | nil => rfl
  | cons op ops ih =>
    rw [List.mem_cons, not_or] at h
    rw [replies, replies, reply_after, step_after (Ne.symm h.1), ih h.2]

theorem collected_run {ops : List Operation} (h : .collect ∉ ops) (c : Conversation) :
    (c.run ops).collected = c.collected := by
  induction ops generalizing c with
  | nil => rfl
  | cons op ops ih =>
    rw [List.mem_cons, not_or] at h
    have hstep : (c.step op).collected = c.collected := by
      cases op with
      | arrive bytes | feed | write payload hlen | read n | readInto buffer | rename id => rfl
      | collect => exact absurd rfl h.1
    rw [run_cons, ih h.2, hstep]

end Session.Conversation

namespace Endpoint

open Session (Conversation)

/-- The buffer size after an operation. -/
def sizeAfter (size : Nat) : Operation → Nat
  | .setBufferSize new => max 1 new
  | .receive | .send _ _ | .read _ | .readInto _ | .sessionRead _ | .rename _ => size

theorem collect_notMem_plain (e : Endpoint) (op : Operation) : .collect ∉ e.plain op := by
  cases op with
  | receive =>
    simp only [plain]
    split
    · exact List.not_mem_nil
    · split <;> simp
  | send payload h | read n | readInto buffer | sessionRead n | setBufferSize size | rename id =>
    simp [plain]

/-- The conversation is that of the endpoint, but holds all the output that the peer has accepted,
which is all there is. -/
structure Mirrors (e : Endpoint) (c : Conversation) : Prop where
  conversation : c = e.alone.after e.peer.accepted
  delivered : e.channel.outgoing = #[]
  steady : e.peer.Steady

/-- What an operation shows outside: what the conversation makes of it is its result, and of the
calls, one is the read of a receive and the others send what the conversation wrote. -/
structure Agrees (e : Endpoint) (c : Conversation) (op : Operation) : Prop where
  result : (e.perform op).result = e.answer c op
  calls : ∃ output deliveries,
    (c.run (e.plain op)).written = c.written ++ output ∧
      (e.perform op).calls.toList = (e.readCalls op).toList ++ deliveries ∧
      (output = [] → deliveries = []) ∧ (output ≠ [] → Peer.Flushed output deliveries)

private theorem Mirrors.steady_prepare {e : Endpoint} {c : Conversation} (h : e.Mirrors c)
    (op : Operation) : (e.prepare op).peer.Steady := by
  obtain ⟨reads, hpeer⟩ := e.exists_peer_prepare op
  rw [hpeer]
  exact ⟨h.steady.writes, h.steady.flushes⟩

private theorem Mirrors.written {e : Endpoint} {c : Conversation} (h : e.Mirrors c) :
    c.written = e.peer.accepted.toList := by
  rw [h.conversation]
  simp [Conversation.written, Conversation.after, Channel.after, alone, h.delivered]

theorem Mirrors.perform {e : Endpoint} {c : Conversation} (h : e.Mirrors c) (op : Operation) :
    (e.perform op).endpoint.Mirrors (c.run (e.plain op)) := by
  have hplain := e.collect_notMem_plain op
  have hcollected : (e.alone.run (e.plain op)).collected = [] :=
    Conversation.collected_run hplain e.alone
  obtain ⟨reads, hpeer⟩ := e.exists_peer_prepare op
  obtain ⟨-, hsteady, haccepted, -⟩ := deliver_of_steady (h.steady_prepare op)
  obtain ⟨peer, hendpoint, -⟩ := (e.prepare op).exists_deliver
  have hperform := (perform_eq h.delivered op).endpoint
  refine ⟨?_, outgoing_perform h.delivered op, ?_⟩
  · rw [h.conversation, Conversation.run_after hplain, hperform, haccepted, hpeer, hendpoint]
    rw [Conversation.after_of_collected hcollected, Conversation.after_of_collected rfl]
    simp [alone, prepare, Channel.after]
  · rw [hperform]
    exact hsteady

theorem Mirrors.agrees {e : Endpoint} {c : Conversation} (h : e.Mirrors c) (op : Operation) :
    e.Agrees c op := by
  have hplain := e.collect_notMem_plain op
  have hperforms := perform_eq h.delivered op
  obtain ⟨hresult, -, haccepted, hsilent, hflushed⟩ := deliver_of_steady (h.steady_prepare op)
  obtain ⟨reads, hpeer⟩ := e.exists_peer_prepare op
  constructor
  · have hanswer : e.answer c op = e.answer e.alone op := by
      rw [answer, answer, h.conversation, Conversation.replies_after hplain]
    rw [hperforms.result, hresult, hanswer]
    rfl
  · refine ⟨(e.prepare op).channel.outgoing.toList, (e.prepare op).deliver.calls.toList, ?_, ?_, ?_,
      ?_⟩
    · rw [(h.perform op).written, h.written, hperforms.endpoint, haccepted, hpeer,
        Array.toList_append]
    · rw [hperforms.calls, Array.toList_append]
    · intro hnil
      rw [hsilent (Array.toList_eq_nil_iff.mp hnil)]
    · intro hne
      apply hflushed
      intro hnil
      rw [hnil] at hne
      exact hne rfl

theorem Mirrors.run {e : Endpoint} {c : Conversation} (h : e.Mirrors c) (ops : List Operation) :
    (e.run ops).Mirrors (c.run (e.plainAll ops)) := by
  induction ops generalizing e c with
  | nil => exact h
  | cons op ops ih =>
    rw [run_cons, plainAll, Conversation.run_append]
    exact ih (h.perform op)

theorem bufferSize_perform {e : Endpoint} (h : e.channel.outgoing = #[]) (op : Operation) :
    (e.perform op).endpoint.bufferSize = sizeAfter e.bufferSize op := by
  obtain ⟨peer, hendpoint, -⟩ := (e.prepare op).exists_deliver
  rw [(perform_eq h op).endpoint, hendpoint]
  cases op <;> rfl

theorem bufferSize_run {e : Endpoint} (h : e.channel.outgoing = #[]) (ops : List Operation) :
    (e.run ops).bufferSize = ops.foldl sizeAfter e.bufferSize := by
  induction ops generalizing e with
  | nil => rfl
  | cons op ops ih =>
    rw [run_cons, ih (outgoing_perform h op), bufferSize_perform h op, List.foldl_cons]

/-- An endpoint whose deliveries do not fail is at every point where a conversation is to which the
same bytes came: the peer has accepted, in order, all that was written, and each operation that
follows gives the result and makes the calls that the conversation calls for. -/
theorem refines_conversation (reads : List ReadEvent) {writes : List WriteEvent}
    {flushes : List (Option Fault)} (hwrites : ∀ event ∈ writes, event.Succeeds)
    (hflushes : ∀ fault ∈ flushes, fault = none) (ops : List Operation) :
    let fresh : Endpoint := { peer := { reads, writes, flushes } }
    let e := fresh.run ops
    let c := ({} : Conversation).run (fresh.plainAll ops)
    e.session = c.session ∧ e.channel.inbox = c.channel.inbox ∧
      e.peer.accepted.toList = c.written ∧ e.bufferSize = ops.foldl sizeAfter 8192 ∧
        ∀ op, e.Agrees c op := by
  intro fresh e c
  have hfresh : fresh.Mirrors {} := by
    refine ⟨?_, rfl, hwrites, hflushes⟩
    simp [fresh, Conversation.after, alone, Channel.after]
  have hmirrors : e.Mirrors c := hfresh.run ops
  refine ⟨?_, ?_, hmirrors.written.symm, bufferSize_run rfl ops, hmirrors.agrees⟩
  · rw [hmirrors.conversation]
    rfl
  · rw [hmirrors.conversation]
    rfl

/-- A peer that asks for a session in few words and takes its first two writes in part. -/
def terse : Peer where
  reads := [.data (Ascii.bytes "Sec-WebSocket-Key: dGhlIHNhbXBsZSBub25jZQ==\r\n\r\n")]
  writes := [.accept 5, .accept 1]

theorem refines_conversation_terse :
    let e := ({ peer := terse } : Endpoint).run [.receive, .send [1, 2] (by decide)]
    let request := Ascii.bytes "Sec-WebSocket-Key: dGhlIHNhbXBsZSBub25jZQ==\r\n\r\n"
    let c := ({} : Conversation).run [.arrive request, .feed, .write [1, 2] (by decide)]
    (∀ event ∈ terse.writes, event.Succeeds) ∧ (∀ fault ∈ terse.flushes, fault = none) ∧
      e.peer.accepted.size = 133 ∧ e.session = c.session ∧ e.peer.accepted.toList = c.written ∧
      ∀ op, e.Agrees c op := by
  have hwrites : ∀ event ∈ terse.writes, event.Succeeds := by decide
  have hflushes : ∀ fault ∈ terse.flushes, fault = none := by decide
  have hsize : (({ peer := terse } : Endpoint).run
      [.receive, .send [1, 2] (by decide)]).peer.accepted.size = 133 := by decide +kernel
  obtain ⟨hsession, -, hwritten, -, hagrees⟩ :=
    refines_conversation terse.reads hwrites hflushes [.receive, .send [1, 2] (by decide)]
  exact ⟨hwrites, hflushes, hsize, hsession, hwritten, hagrees⟩

end Endpoint

end WebSocket
