import WebSocket.Proofs.Connection.Agreement
import WebSocket.Proofs.Session.Run

/-!
# Runs of a connection

All that can be done with a connection on its channel, in any order. A run of a connection carries
the run of a session to which the same is done (`Carries.run`), and its two copies of the number are
in step (`decoder_id_run`).
-/

namespace WebSocket.Connection

open Session (Operation)

structure Conversation where
  connection : Connection := {}
  channel : Channel := {}
  collected : List UInt8 := []

namespace Conversation

def step (c : Conversation) : Operation → Conversation
  | .arrive bytes => { c with channel := c.channel.receive bytes }
  | .feed =>
    let progress := c.connection.feed c.channel
    { c with connection := progress.connection, channel := progress.channel }
  | .write payload _ => { c with channel := (c.connection.write c.channel payload).channel }
  | .read n => { c with connection := (c.connection.read n).2 }
  | .readInto buffer => { c with connection := (c.connection.readInto buffer).2.2 }
  | .collect =>
    let (bytes, channel) := c.channel.collect
    { c with channel, collected := c.collected ++ bytes }
  | .rename id => { c with connection := c.connection.setId id }

def run (c : Conversation) (ops : List Operation) : Conversation :=
  ops.foldl step c

/-- All that was sent, from the beginning. -/
def written (c : Conversation) : List UInt8 :=
  c.collected ++ c.channel.outgoing.toList

theorem run_cons (c : Conversation) (op : Operation) (ops : List Operation) :
    c.run (op :: ops) = (c.step op).run ops := rfl

/-- The connection carries the session, on the same channel. -/
structure Carries (c : Conversation) (d : Session.Conversation) : Prop where
  connection : c.connection.Carries d.session
  channel : c.channel = d.channel
  collected : c.collected = d.collected

theorem carries_fresh : Carries {} {} :=
  ⟨Connection.carries_fresh, rfl, rfl⟩

variable {c : Conversation} {d : Session.Conversation}

theorem Carries.step (h : c.Carries d) (op : Operation) : (c.step op).Carries (d.step op) := by
  obtain ⟨hconnection, hchannel, hcollected⟩ := h
  cases op with
  | arrive bytes => exact ⟨hconnection, congrArg (·.receive bytes) hchannel, hcollected⟩
  | feed =>
    have hfeed := hconnection.feed c.channel
    simp only [Conversation.step, Session.Conversation.step, ← hchannel]
    exact ⟨hfeed.carries, hfeed.channel, hcollected⟩
  | write payload hlen =>
    simp only [Conversation.step, Session.Conversation.step, ← hchannel, hconnection.write]
    exact ⟨hconnection, rfl, hcollected⟩
  | read n => exact ⟨(hconnection.read n).2, hchannel, hcollected⟩
  | readInto buffer => exact ⟨(hconnection.readInto buffer).2.2, hchannel, hcollected⟩
  | collect =>
    simp only [Conversation.step, Session.Conversation.step, ← hchannel, hcollected]
    exact ⟨hconnection, rfl, rfl⟩
  | rename id => exact ⟨hconnection.setId id, hchannel, hcollected⟩

theorem Carries.run (h : c.Carries d) (ops : List Operation) : (c.run ops).Carries (d.run ops) := by
  induction ops generalizing c d with
  | nil => exact h
  | cons op ops ih => exact ih (h.step op)

/-- Whatever is done, the connection and its decoder have the same number. -/
theorem decoder_id_run (ops : List Operation) :
    let connection := (({} : Conversation).run ops).connection
    connection.decoder.id = connection.id := by
  have hrun := carries_fresh.run ops
  exact hrun.connection.decoder_id

end Conversation

end WebSocket.Connection
