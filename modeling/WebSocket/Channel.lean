import WebSocket.Inbox

/-!
# The channel of a connection

Bytes that have arrived and bytes to be sent, as two independent directions. A channel may ration
what it hands out: `window` bounds the number of bytes it admits to hold, `maxRead` the number one
read gives. Each way of taking bytes removes exactly what it returns from the front.
-/

namespace WebSocket

structure Channel where
  inbox : Inbox := {}
  /-- What has been written and not been collected. -/
  outgoing : Array UInt8 := #[]
  window : Option Nat := none
  maxRead : Option Nat := none

namespace Channel

/-- An absent limit limits nothing. -/
def limit (n : Nat) : Option Nat → Nat
  | none => n
  | some most => min n most

/-- The number of bytes that the channel admits to hold. -/
def available (ch : Channel) : Nat :=
  limit ch.inbox.size ch.window

theorem available_le (ch : Channel) : ch.available ≤ ch.inbox.size := by
  unfold available limit
  split <;> omega

def receive (ch : Channel) (bytes : List UInt8) : Channel :=
  { ch with inbox := ch.inbox.append bytes }

def takeLine? (ch : Channel) : Option (List UInt8 × Channel) :=
  ch.inbox.takeLine?.map fun (line, rest) => (line, { ch with inbox := rest })

/-- The next `n` bytes, for a caller that has seen them to be available. They would be filled up
with zeros if they were not there. -/
def readExact (ch : Channel) (n : Nat) : Vector UInt8 n × Channel :=
  have hsize : ((ch.inbox.bytes.take n).rightpad n 0).toArray.size = n := by
    rw [List.size_toArray, List.length_rightpad, List.length_take]
    omega
  (⟨((ch.inbox.bytes.take n).rightpad n 0).toArray, hsize⟩, { ch with inbox := ch.inbox.drop n })

/-- The next `n` bytes, once that many are available. -/
def takeExact? (ch : Channel) (n : Nat) : Option (Vector UInt8 n × Channel) :=
  if ch.available < n then none else some (ch.readExact n)

/-- How many bytes a request for `n` of them gets. -/
def readCount (ch : Channel) (n : Nat) : Nat :=
  min (limit n ch.maxRead) ch.inbox.size

/-- At most `n` bytes; the window does not bind here. -/
def read (ch : Channel) (n : Nat) : List UInt8 × Channel :=
  let count := ch.readCount n
  (ch.inbox.bytes.take count, { ch with inbox := ch.inbox.drop count })

/-- Drops up to `n` bytes unseen; no limit binds here. -/
def skip (ch : Channel) (n : Nat) : Channel :=
  { ch with inbox := ch.inbox.drop n }

def write (ch : Channel) (bytes : List UInt8) : Channel :=
  { ch with outgoing := ch.outgoing ++ bytes }

/-- What has been written since the last collection. -/
def collect (ch : Channel) : List UInt8 × Channel :=
  (ch.outgoing.toList, { ch with outgoing := #[] })

@[simp] theorem bytes_receive (ch : Channel) (bytes : List UInt8) :
    (ch.receive bytes).inbox.bytes = ch.inbox.bytes ++ bytes := rfl

@[simp] theorem toList_outgoing_write (ch : Channel) (bytes : List UInt8) :
    (ch.write bytes).outgoing.toList = ch.outgoing.toList ++ bytes := by
  simp [write]

theorem read_append (ch : Channel) (n : Nat) :
    (ch.read n).1 ++ (ch.read n).2.inbox.bytes = ch.inbox.bytes :=
  List.take_append_drop _ _

theorem readCount_le (ch : Channel) (n : Nat) : ch.readCount n ≤ n := by
  unfold readCount limit
  split <;> omega

/-- A channel whose reads may give bytes gives some, if it holds any. -/
theorem readCount_ne_zero {ch : Channel} (h : ch.maxRead ≠ some 0) {n : Nat} (hn : n ≠ 0)
    (hsize : ch.inbox.size ≠ 0) : ch.readCount n ≠ 0 := by
  cases hm : ch.maxRead with
  | none =>
    simp only [readCount, hm, limit]
    omega
  | some most =>
    have hmost : most ≠ 0 := by
      rintro rfl
      exact h hm
    simp only [readCount, hm, limit]
    omega

theorem length_read (ch : Channel) (n : Nat) : (ch.read n).1.length = ch.readCount n := by
  have : ch.readCount n ≤ ch.inbox.size := Nat.min_le_right _ _
  rw [ch.inbox.size_eq] at this
  rw [read, List.length_take, Nat.min_eq_left this]

theorem bytes_of_takeLine? {ch rest : Channel} {line : List UInt8}
    (h : ch.takeLine? = some (line, rest)) : line ++ rest.inbox.bytes = ch.inbox.bytes := by
  obtain ⟨⟨line', inbox⟩, hline, heq⟩ := Option.map_eq_some_iff.mp h
  cases heq
  obtain ⟨_, _, _, hbytes⟩ := Inbox.takeLine?_eq_some_iff.mp hline
  exact hbytes.symm

theorem bytes_readExact {ch : Channel} {n : Nat} (h : n ≤ ch.inbox.size) :
    (ch.readExact n).1.toList ++ (ch.readExact n).2.inbox.bytes = ch.inbox.bytes := by
  have hlength : (ch.inbox.bytes.take n).length = n := by
    rw [List.length_take, ← ch.inbox.size_eq, Nat.min_eq_left h]
  show (ch.inbox.bytes.take n).rightpad n 0 ++ ch.inbox.bytes.drop n = ch.inbox.bytes
  rw [List.rightpad, hlength, Nat.sub_self, List.replicate_zero, List.append_nil,
    List.take_append_drop]

theorem takeExact?_eq_none_iff {ch : Channel} {n : Nat} :
    ch.takeExact? n = none ↔ ch.available < n := by
  unfold takeExact?
  split
  · rename_i h
    simp [h]
  · rename_i h
    simpa using h

theorem takeExact?_eq_some_iff {ch rest : Channel} {n : Nat} {bytes : Vector UInt8 n} :
    ch.takeExact? n = some (bytes, rest) ↔ n ≤ ch.available ∧ ch.readExact n = (bytes, rest) := by
  unfold takeExact?
  by_cases h : ch.available < n
  · rw [if_pos h]
    exact ⟨nofun, fun hsome => absurd hsome.1 (Nat.not_le_of_lt h)⟩
  · rw [if_neg h]
    simp [Nat.le_of_not_lt h]

theorem bytes_of_takeExact? {ch rest : Channel} {n : Nat} {bytes : Vector UInt8 n}
    (h : ch.takeExact? n = some (bytes, rest)) :
    bytes.toList ++ rest.inbox.bytes = ch.inbox.bytes := by
  obtain ⟨hn, hread⟩ := takeExact?_eq_some_iff.mp h
  have hbytes := bytes_readExact (Nat.le_trans hn ch.available_le)
  rwa [hread] at hbytes

theorem size_lt_of_takeLine? {ch rest : Channel} {line : List UInt8}
    (h : ch.takeLine? = some (line, rest)) : rest.inbox.size < ch.inbox.size := by
  obtain ⟨⟨line', inbox⟩, hline, heq⟩ := Option.map_eq_some_iff.mp h
  cases heq
  exact Inbox.size_lt_of_takeLine? hline

theorem size_of_takeExact? {ch rest : Channel} {n : Nat} {bytes : Vector UInt8 n}
    (h : ch.takeExact? n = some (bytes, rest)) : rest.inbox.size + n = ch.inbox.size := by
  obtain ⟨hn, hread⟩ := takeExact?_eq_some_iff.mp h
  have hle := Nat.le_trans hn ch.available_le
  cases hread
  exact Nat.sub_add_cancel hle

end Channel

end WebSocket
