import WebSocket.Notice

/-!
# What was done

A trace lists the notices of a piece of work and the calls that it made on its channel, each in the
order they happened. Traces of successive pieces of work are appended.
-/

namespace WebSocket

/-- One use of a channel. -/
inductive Call where
  /-- The length of the line, if there was one. -/
  | readLine (length : Option Nat)
  | readExact (count : Nat)
  | read (asked given : Nat)
  | skip (count : Nat)
  | write (bytes : List UInt8)
  | flush
deriving DecidableEq, Repr

@[ext]
structure Trace where
  notices : Array Notice := #[]
  calls : Array Call := #[]
deriving DecidableEq, Repr

namespace Trace

instance : Append Trace where
  append s t := ⟨s.notices ++ t.notices, s.calls ++ t.calls⟩

@[simp] theorem notices_append (s t : Trace) : (s ++ t).notices = s.notices ++ t.notices := rfl

@[simp] theorem calls_append (s t : Trace) : (s ++ t).calls = s.calls ++ t.calls := rfl

@[simp] theorem empty_append (t : Trace) : {} ++ t = t :=
  Trace.ext Array.empty_append Array.empty_append

@[simp] theorem append_empty (t : Trace) : t ++ {} = t :=
  Trace.ext Array.append_empty Array.append_empty

theorem append_assoc (s t u : Trace) : s ++ t ++ u = s ++ (t ++ u) :=
  Trace.ext Array.append_assoc Array.append_assoc

end Trace

end WebSocket
