import Mathlib.Data.List.Basic
import WebSocket.Notice

/-!
# Outcomes of resumable work

Work on a byte string goes on until it stops or has to wait for more bytes. It is resumable if
waiting costs nothing and a stop is final: a stream may then come in any parts.
-/

namespace WebSocket

/-- What a piece of work is seen to do: application data, bytes sent, and notices. -/
@[ext]
structure Effect where
  data : List UInt8 := []
  output : List UInt8 := []
  notices : List Notice := []
deriving DecidableEq, Repr

namespace Effect

instance : Append Effect where
  append a b := ⟨a.data ++ b.data, a.output ++ b.output, a.notices ++ b.notices⟩

@[simp] theorem data_append (a b : Effect) : (a ++ b).data = a.data ++ b.data := rfl

@[simp] theorem output_append (a b : Effect) : (a ++ b).output = a.output ++ b.output := rfl

@[simp] theorem notices_append (a b : Effect) : (a ++ b).notices = a.notices ++ b.notices := rfl

@[simp] theorem empty_append (a : Effect) : {} ++ a = a := rfl

@[simp] theorem append_empty (a : Effect) : a ++ {} = a := by
  ext1 <;> simp

theorem append_assoc (a b c : Effect) : a ++ b ++ c = a ++ (b ++ c) := by
  ext1 <;> simp

end Effect

variable {σ ν : Type}

/-- Where a piece of work leaves off, and what it did. -/
@[ext]
structure Outcome (σ ν : Type) where
  state : σ
  unread : List UInt8
  verdict : ν
  effect : Effect := {}
deriving DecidableEq, Repr

namespace Outcome

/-- The outcome of two pieces of work of which the first had this effect. -/
def after (o : Outcome σ ν) (e : Effect) : Outcome σ ν :=
  { o with effect := e ++ o.effect }

/-- The outcome if more bytes are there that are not looked at. -/
def leaving (o : Outcome σ ν) (more : List UInt8) : Outcome σ ν :=
  { o with unread := o.unread ++ more }

@[simp] theorem after_empty (o : Outcome σ ν) : o.after {} = o := rfl

theorem after_after (o : Outcome σ ν) (a b : Effect) : (o.after b).after a = o.after (a ++ b) := by
  simp [after, Effect.append_assoc]

end Outcome

structure Resumable (Waits : ν → Prop) (outcome : σ → List UInt8 → Outcome σ ν) : Prop where
  resume {s : σ} {bytes : List UInt8} (h : Waits (outcome s bytes).verdict) (more : List UInt8) :
    outcome s (bytes ++ more) =
      (outcome (outcome s bytes).state ((outcome s bytes).unread ++ more)).after
        (outcome s bytes).effect
  stop {s : σ} {bytes : List UInt8} (h : ¬ Waits (outcome s bytes).verdict) (more : List UInt8) :
    outcome s (bytes ++ more) = (outcome s bytes).leaving more

end WebSocket
