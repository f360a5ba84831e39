import Mathlib.Algebra.Group.Nat.Defs
import WebSocket.Proofs.Session.Outcome

/-!
# Runs of a session

All that can be done with a session on its channel, in any order; the bytes that were sent are those
that have been collected and those that wait to be.
-/

namespace WebSocket.Session

inductive Operation where
  | arrive (bytes : List UInt8)
  | feed
  /-- The length of a payload is a number of 64 bits. -/
  | write (payload : List UInt8) (h : payload.length < 2 ^ 64)
  | read (n : Nat)
  | readInto (buffer : List UInt8)
  | collect
  | rename (id : UInt32)

structure Conversation where
  session : Session := {}
  channel : Channel := {}
  collected : List UInt8 := []

namespace Conversation

def step (c : Conversation) : Operation → Conversation
  | .arrive bytes => { c with channel := c.channel.receive bytes }
  | .feed =>
    let progress := c.session.feed c.channel
    { c with session := progress.session, channel := progress.channel }
  | .write payload _ => { c with channel := (c.session.write c.channel payload).channel }
  | .read n => { c with session := (c.session.read n).2 }
  | .readInto buffer => { c with session := (c.session.readInto buffer).2.2 }
  | .collect =>
    let (bytes, channel) := c.channel.collect
    { c with channel, collected := c.collected ++ bytes }
  | .rename id => { c with session := { c.session with id } }

def run (c : Conversation) (ops : List Operation) : Conversation :=
  ops.foldl step c

/-- All that was sent, from the beginning. -/
def written (c : Conversation) : List UInt8 :=
  c.collected ++ c.channel.outgoing.toList

theorem run_cons (c : Conversation) (op : Operation) (ops : List Operation) :
    c.run (op :: ops) = (c.step op).run ops := rfl

theorem run_append (c : Conversation) (first second : List Operation) :
    c.run (first ++ second) = (c.run first).run second :=
  List.foldl_append

private theorem step_of_final {c : Conversation} (h : c.session.status.isFinal = true)
    (op : Operation) :
    (c.step op).session.status = c.session.status ∧ (c.step op).written = c.written := by
  have hnot : c.session.status ≠ .established := by
    intro hstatus
    rw [hstatus] at h
    cases h
  cases op with
  | arrive bytes | read n | readInto buffer | rename id => exact ⟨rfl, rfl⟩
  | feed =>
    rw [step, feed_of_final h]
    exact ⟨rfl, rfl⟩
  | write payload hlen =>
    rw [step, Session.write, if_neg hnot]
    exact ⟨rfl, rfl⟩
  | collect => simp [step, written, Channel.collect]

/-- Nothing is sent any more once a session is closed or has failed. -/
theorem written_run_of_final {c : Conversation} (h : c.session.status.isFinal = true)
    (ops : List Operation) : (c.run ops).written = c.written := by
  induction ops generalizing c with
  | nil => rfl
  | cons op ops ih =>
    obtain ⟨hstatus, hwritten⟩ := step_of_final h op
    rw [run_cons, ih (by rw [hstatus]; exact h), hwritten]

end Conversation

end WebSocket.Session
