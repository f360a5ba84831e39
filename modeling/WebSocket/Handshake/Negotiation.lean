import WebSocket.Channel
import WebSocket.Handshake.AcceptKey
import WebSocket.Handshake.Request
import WebSocket.Handshake.Response
import WebSocket.Trace

/-!
# The opening handshake

A negotiation reads a request line by line. It remembers only the accept key, so it can be taken up
again whenever more of the request has arrived, and at the end of the request it writes the
response.
-/

namespace WebSocket

structure Negotiation where
  /-- Belongs to the first key of the request. -/
  accept : Option String := none
deriving DecidableEq, Repr

namespace Negotiation

/-- What a line of the request leads to. -/
inductive Turn where
  | next (negotiation : Negotiation) (notices : Array Notice)
  | accept (accept : String)
  | refuse (error : HandshakeError)
deriving DecidableEq, Repr

/-- A repeated key is not used, but its length has to be right all the same. -/
def step (n : Negotiation) : RequestLine → Turn
  | .other => .next n #[]
  | .key value =>
    if value.length ≠ keyLength then .refuse (.keyLength value.length)
    else if n.accept.isSome then .next n #[.keyRepeated]
    else .next { accept := some (acceptKey value) } #[.keyReceived]
  | .finish =>
    match n.accept with
    | some accept => .accept accept
    | none => .refuse .missingKey

inductive Verdict where
  /-- More bytes are needed. -/
  | pending
  | done
  | fault (error : HandshakeError)
deriving DecidableEq, Repr

structure Progress where
  negotiation : Negotiation
  channel : Channel
  verdict : Verdict
  trace : Trace

def run (n : Negotiation) (ch : Channel) (trace : Trace) : Progress :=
  match _h : ch.takeLine? with
  | none =>
    { negotiation := n, channel := ch, verdict := .pending
      trace := trace ++ { calls := #[.readLine none] } }
  | some (line, rest) =>
    let taken : Call := .readLine (some line.length)
    match n.step (.ofBytes line) with
    | .next n notices => run n rest (trace ++ { notices, calls := #[taken] })
    | .accept accept =>
      let response := Response.bytes accept
      { negotiation := n, channel := rest.write response, verdict := .done
        trace := trace ++
          { notices := #[.responseSent], calls := #[taken, .write response, .flush] } }
    | .refuse error =>
      { negotiation := n, channel := rest, verdict := .fault error
        trace := trace ++ { calls := #[taken] } }
termination_by ch.inbox.size
decreasing_by exact Channel.size_lt_of_takeLine? _h

/-- Takes the complete lines that are there, up to the end of the request. -/
def advance (n : Negotiation) (ch : Channel) : Progress :=
  n.run ch {}

/-- A run on top of earlier work adds to it what a run of its own does. -/
theorem run_eq_append (n : Negotiation) (ch : Channel) (trace : Trace) :
    n.run ch trace = { n.advance ch with trace := trace ++ (n.advance ch).trace } := by
  induction hsize : ch.inbox.size using Nat.strongRecOn generalizing n ch trace with
  | ind size ih =>
    rw [advance, run, run]
    split
    · simp
    · rename_i line rest hline
      have hlt := hsize ▸ Channel.size_lt_of_takeLine? hline
      split
      · rw [ih _ hlt _ _ _ rfl, ih _ hlt _ _ ({} ++ _) rfl]
        simp [Trace.append_assoc]
      · simp
      · simp

theorem advance_of_none {n : Negotiation} {ch : Channel} (h : ch.takeLine? = none) :
    n.advance ch =
      { negotiation := n, channel := ch, verdict := .pending
        trace := { calls := #[.readLine none] } } := by
  rw [advance, run]
  split
  · simp
  · rename_i heq
    rw [h] at heq
    cases heq

theorem advance_of_some {n : Negotiation} {ch rest : Channel} {line : List UInt8}
    (h : ch.takeLine? = some (line, rest)) :
    n.advance ch =
      match n.step (.ofBytes line) with
      | .next n' notices =>
        let later := n'.advance rest
        { later with
          trace := { notices, calls := #[.readLine (some line.length)] } ++ later.trace }
      | .accept accept =>
        let response := Response.bytes accept
        { negotiation := n, channel := rest.write response, verdict := .done
          trace :=
            { notices := #[.responseSent]
              calls := #[.readLine (some line.length), .write response, .flush] } }
      | .refuse error =>
        { negotiation := n, channel := rest, verdict := .fault error
          trace := { calls := #[.readLine (some line.length)] } } := by
  rw [advance, run]
  split
  · rename_i heq
    rw [h] at heq
    cases heq
  · rename_i heq
    rw [h] at heq
    cases heq
    dsimp only
    split
    · rw [run_eq_append]
      simp
    · simp
    · simp

end Negotiation

end WebSocket
