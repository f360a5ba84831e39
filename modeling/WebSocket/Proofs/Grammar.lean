import Mathlib.Data.List.Basic

/-!
# Streams of items

A grammar says which items stand on the wire, how each is written, and how the first one is found
in a byte string; finding and writing agree exactly. A stream then splits into items in one way
only (`split_eq_iff`), and what has been split stays so when more bytes come (`split_append`).
-/

namespace WebSocket

structure Grammar (α : Type) where
  Item : α → Prop
  encode : α → List UInt8
  /-- The first item and what follows it; none while it is not complete. -/
  next? : List UInt8 → Option (α × List UInt8)
  next?_eq_some_iff {bytes rest : List UInt8} {a : α} :
    next? bytes = some (a, rest) ↔ Item a ∧ bytes = encode a ++ rest
  encode_ne_nil {a : α} : Item a → encode a ≠ []

namespace Grammar

variable {α : Type} (g : Grammar α)

theorem length_lt_of_next? {g : Grammar α} {bytes rest : List UInt8} {a : α}
    (h : g.next? bytes = some (a, rest)) : rest.length < bytes.length := by
  obtain ⟨hitem, rfl⟩ := g.next?_eq_some_iff.mp h
  have := List.length_pos_iff.mpr (g.encode_ne_nil hitem)
  rw [List.length_append]
  omega

/-- All the items that are complete, and the bytes behind them. -/
def split (bytes : List UInt8) : List α × List UInt8 :=
  match _h : g.next? bytes with
  | none => ([], bytes)
  | some (a, rest) => (a :: (split rest).1, (split rest).2)
termination_by bytes.length
decreasing_by all_goals exact length_lt_of_next? _h

variable {g}

theorem next?_encode_append {a : α} (h : g.Item a) (rest : List UInt8) :
    g.next? (g.encode a ++ rest) = some (a, rest) :=
  g.next?_eq_some_iff.mpr ⟨h, rfl⟩

theorem split_of_none {bytes : List UInt8} (h : g.next? bytes = none) :
    g.split bytes = ([], bytes) := by
  rw [split]
  split
  · rfl
  · rename_i heq
    rw [h] at heq
    cases heq

theorem split_encode_append {a : α} (h : g.Item a) (rest : List UInt8) :
    g.split (g.encode a ++ rest) = (a :: (g.split rest).1, (g.split rest).2) := by
  have hnext := next?_encode_append h rest
  rw [split]
  split
  · rename_i heq
    rw [hnext] at heq
    cases heq
  · rename_i heq
    rw [hnext] at heq
    cases heq
    rfl

theorem split_flatMap_append {items : List α} (h : ∀ a ∈ items, g.Item a) (rest : List UInt8) :
    g.split (items.flatMap g.encode ++ rest) =
      (items ++ (g.split rest).1, (g.split rest).2) := by
  induction items with
  | nil => rfl
  | cons a items ih =>
    obtain ⟨ha, hitems⟩ := List.forall_mem_cons.mp h
    rw [List.flatMap_cons, List.append_assoc, split_encode_append ha, ih hitems]
    rfl

/-- A byte string is a tail without an item, or an item in front of another byte string. -/
theorem stream_induction {motive : List UInt8 → Prop}
    (tail : ∀ bytes, g.next? bytes = none → motive bytes)
    (item : ∀ a rest, g.Item a → motive rest → motive (g.encode a ++ rest))
    (bytes : List UInt8) : motive bytes := by
  induction hlen : bytes.length using Nat.strongRecOn generalizing bytes with
  | ind n ih =>
    cases hnext : g.next? bytes with
    | none => exact tail bytes hnext
    | some found =>
      obtain ⟨a, rest⟩ := found
      have hlt := hlen ▸ length_lt_of_next? hnext
      obtain ⟨ha, rfl⟩ := g.next?_eq_some_iff.mp hnext
      exact item a rest ha (ih _ hlt rest rfl)

private theorem split_spec (bytes : List UInt8) :
    (∀ a ∈ (g.split bytes).1, g.Item a) ∧
      bytes = (g.split bytes).1.flatMap g.encode ++ (g.split bytes).2 ∧
      g.next? (g.split bytes).2 = none := by
  induction bytes using g.stream_induction with
  | tail bytes hnext =>
    rw [split_of_none hnext]
    exact ⟨by simp, rfl, hnext⟩
  | item a rest ha ih =>
    obtain ⟨hitems, hrest, htail⟩ := ih
    rw [split_encode_append ha]
    refine ⟨List.forall_mem_cons.mpr ⟨ha, hitems⟩, ?_, htail⟩
    rw [List.flatMap_cons, List.append_assoc, ← hrest]

/-- A byte string is a row of items and a tail that does not begin with one, in one way only. -/
theorem split_eq_iff {bytes tail : List UInt8} {items : List α} :
    g.split bytes = (items, tail) ↔
      (∀ a ∈ items, g.Item a) ∧ bytes = items.flatMap g.encode ++ tail ∧ g.next? tail = none := by
  constructor
  · intro h
    have hspec := g.split_spec bytes
    rw [h] at hspec
    exact hspec
  · intro h
    obtain ⟨hitems, rfl, htail⟩ := h
    rw [split_flatMap_append hitems, split_of_none htail, List.append_nil]

theorem forall_mem_split (bytes : List UInt8) : ∀ a ∈ (g.split bytes).1, g.Item a :=
  (g.split_spec bytes).1

theorem eq_append_split (bytes : List UInt8) :
    bytes = (g.split bytes).1.flatMap g.encode ++ (g.split bytes).2 :=
  (g.split_spec bytes).2.1

theorem next?_split (bytes : List UInt8) : g.next? (g.split bytes).2 = none :=
  (g.split_spec bytes).2.2

theorem split_append (bytes more : List UInt8) :
    g.split (bytes ++ more) =
      ((g.split bytes).1 ++ (g.split ((g.split bytes).2 ++ more)).1,
        (g.split ((g.split bytes).2 ++ more)).2) := by
  conv_lhs => rw [g.eq_append_split bytes, List.append_assoc]
  exact split_flatMap_append (g.forall_mem_split bytes) _

end Grammar

end WebSocket
