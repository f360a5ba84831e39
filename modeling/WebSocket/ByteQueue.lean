/-!
# Queues of received data

Application data waits as the chunks in which it arrived. The queue is one byte stream (`toList`):
where one chunk ends and the next begins cannot be seen by reading.
-/

namespace WebSocket

structure ByteQueue where
  chunks : Array (List UInt8) := #[]
  /-- How many bytes of the first chunk have been read. -/
  offset : Nat := 0
  /-- How many bytes have not been read. -/
  size : Nat := 0
deriving DecidableEq, Repr

namespace ByteQueue

/-- The bytes that have not been read, the oldest first. -/
def toList (q : ByteQueue) : List UInt8 :=
  q.chunks.toList.flatten.drop q.offset

/-- Where reading may stand: inside the first chunk, or at 0 when there is none. -/
def Placed : List (List UInt8) → Nat → Prop
  | [], offset => offset = 0
  | chunk :: _, offset => offset < chunk.length

/-- Chunks are not empty, reading stands inside the first one, and the size is counted right. -/
structure Valid (q : ByteQueue) : Prop where
  nonempty : [] ∉ q.chunks.toList
  placed : Placed q.chunks.toList q.offset
  size_add_offset : q.size + q.offset = q.chunks.toList.flatten.length

/-- An empty chunk leaves no trace. -/
def append (q : ByteQueue) (chunk : List UInt8) : ByteQueue :=
  if chunk.isEmpty then q
  else { q with chunks := q.chunks.push chunk, size := q.size + chunk.length }

def appendAll (q : ByteQueue) (chunks : Array (List UInt8)) : ByteQueue :=
  chunks.foldl append q

/-- Moves `n` bytes to `out` from chunks whose first is read from `offset` on. -/
def drain : Nat → List (List UInt8) → Nat → Array UInt8 → Array UInt8 × List (List UInt8) × Nat
  | _, [], _, out => (out, [], 0)
  | n, chunk :: chunks, offset, out =>
    let unread := chunk.drop offset
    if n < unread.length then (out ++ unread.take n, chunk :: chunks, offset + n)
    else drain (n - unread.length) chunks 0 (out ++ unread)

/-- The next `n` bytes, or all that there are. -/
def read (q : ByteQueue) (n : Nat) : List UInt8 × ByteQueue :=
  let count := min n q.size
  let (out, chunks, offset) := drain count q.chunks.toList q.offset #[]
  (out.toList, { chunks := chunks.toArray, offset, size := q.size - count })

/-- Fills `buffer` from the front; what is not overwritten stays. -/
def readInto (q : ByteQueue) (buffer : List UInt8) : Nat × List UInt8 × ByteQueue :=
  let (out, rest) := q.read buffer.length
  (out.length, out ++ buffer.drop out.length, rest)

theorem valid_empty : Valid {} where
  nonempty := by simp
  placed := rfl
  size_add_offset := rfl

theorem Valid.length_toList {q : ByteQueue} (h : q.Valid) : q.toList.length = q.size := by
  have := h.size_add_offset
  rw [toList, List.length_drop]
  omega

private theorem Placed.le_length {chunks : List (List UInt8)} {offset : Nat}
    (h : Placed chunks offset) : offset ≤ chunks.flatten.length := by
  cases chunks with
  | nil => exact Nat.le_of_eq h
  | cons chunk chunks =>
    rw [List.flatten_cons, List.length_append]
    exact Nat.le_trans (Nat.le_of_lt h) (Nat.le_add_right _ _)

theorem Valid.append {q : ByteQueue} (h : q.Valid) (chunk : List UInt8) :
    (q.append chunk).Valid := by
  cases chunk with
  | nil => exact h
  | cons b bs =>
    refine ⟨?_, ?_, ?_⟩
    · simpa [ByteQueue.append] using h.nonempty
    · have hplaced := h.placed
      simp only [ByteQueue.append, List.isEmpty_cons, Bool.false_eq_true, if_false,
        Array.toList_push]
      cases hchunks : q.chunks.toList with
      | nil =>
        rw [hchunks] at hplaced
        rw [show q.offset = 0 from hplaced]
        exact Nat.zero_lt_succ _
      | cons chunk chunks =>
        rw [hchunks] at hplaced
        exact hplaced
    · have := h.size_add_offset
      simp only [ByteQueue.append, List.isEmpty_cons, Bool.false_eq_true, if_false,
        Array.toList_push, List.flatten_append, List.flatten_singleton, List.length_append]
      omega

theorem Valid.toList_append {q : ByteQueue} (h : q.Valid) (chunk : List UInt8) :
    (q.append chunk).toList = q.toList ++ chunk := by
  cases chunk with
  | nil => simp [ByteQueue.append]
  | cons b bs =>
    simp [ByteQueue.append, toList, List.drop_append_of_le_length h.placed.le_length]

private theorem Valid.foldl_append {q : ByteQueue} (h : q.Valid) (chunks : List (List UInt8)) :
    (chunks.foldl ByteQueue.append q).Valid ∧
      (chunks.foldl ByteQueue.append q).toList = q.toList ++ chunks.flatten := by
  induction chunks generalizing q with
  | nil => simpa using h
  | cons chunk chunks ih =>
    obtain ⟨hvalid, htoList⟩ := ih (h.append chunk)
    refine ⟨hvalid, ?_⟩
    rw [List.foldl_cons, htoList, h.toList_append, List.flatten_cons, List.append_assoc]

theorem Valid.appendAll {q : ByteQueue} (h : q.Valid) (chunks : Array (List UInt8)) :
    (q.appendAll chunks).Valid := by
  rw [ByteQueue.appendAll, ← Array.foldl_toList]
  exact (h.foldl_append chunks.toList).1

theorem Valid.toList_appendAll {q : ByteQueue} (h : q.Valid) (chunks : Array (List UInt8)) :
    (q.appendAll chunks).toList = q.toList ++ chunks.toList.flatten := by
  rw [ByteQueue.appendAll, ← Array.foldl_toList]
  exact (h.foldl_append chunks.toList).2

theorem Placed.zero {chunks : List (List UInt8)} (h : [] ∉ chunks) : Placed chunks 0 := by
  cases chunks with
  | nil => rfl
  | cons chunk chunks => exact List.length_pos_iff.mpr fun hc => h (by simp [hc])

private theorem drain_spec {n offset : Nat} {chunks : List (List UInt8)} (out : Array UInt8)
    (hne : [] ∉ chunks) (hoff : Placed chunks offset) (hn : n + offset ≤ chunks.flatten.length) :
    let (out', chunks', offset') := drain n chunks offset out
    out'.toList = out.toList ++ (chunks.flatten.drop offset).take n ∧
      chunks'.flatten.drop offset' = chunks.flatten.drop (offset + n) ∧
      [] ∉ chunks' ∧ Placed chunks' offset' := by
  induction chunks generalizing n offset out with
  | nil =>
    have h : n = 0 ∧ offset = 0 := by simpa using hn
    simp [drain, h.1, h.2, Placed]
  | cons chunk chunks ih =>
    have hlt : offset < chunk.length := hoff
    have hrest : [] ∉ chunks := fun h => hne (List.mem_cons_of_mem _ h)
    rw [List.flatten_cons, List.length_append] at hn
    rw [List.flatten_cons, List.drop_append_of_le_length (Nat.le_of_lt hlt)]
    simp only [drain, List.length_drop]
    split
    · rename_i h
      rw [List.take_append_of_le_length (by rw [List.length_drop]; omega)]
      refine ⟨by simp, by simp, hne, ?_⟩
      simp only [Placed]
      omega
    · rename_i h
      have hn' : n - (chunk.length - offset) + 0 ≤ chunks.flatten.length := by omega
      obtain ⟨hout, hchunks, hne', hplaced⟩ :=
        ih (out ++ chunk.drop offset) hrest (Placed.zero hrest) hn'
      have htake : (chunk.drop offset).take n = chunk.drop offset :=
        List.take_of_length_le (by rw [List.length_drop]; omega)
      have hdrop : chunk.drop (offset + n) = [] := List.drop_of_length_le (by omega)
      refine ⟨?_, ?_, hne', hplaced⟩
      · rw [hout, List.take_append, htake]
        simp
      · rw [hchunks, List.drop_append, hdrop, List.nil_append]
        congr 1
        omega

private theorem Valid.count_add_offset_le {q : ByteQueue} (h : q.Valid) (n : Nat) :
    min n q.size + q.offset ≤ q.chunks.toList.flatten.length := by
  have := h.size_add_offset
  omega

private theorem Valid.read_spec {q : ByteQueue} (h : q.Valid) (n : Nat) :
    (q.read n).1 = q.toList.take (min n q.size) ∧
      (q.read n).2.toList = q.toList.drop (min n q.size) ∧ (q.read n).2.Valid := by
  have hle := h.count_add_offset_le n
  have hspec := drain_spec #[] h.nonempty h.placed hle
  have hsize := h.length_toList
  have hmin : min n q.size ≤ q.size := Nat.min_le_right _ _
  unfold read
  obtain ⟨out, chunks, offset⟩ := drain (min n q.size) q.chunks.toList q.offset #[]
  obtain ⟨hout, hchunks, hne, hplaced⟩ := hspec
  refine ⟨by simpa [toList] using hout, by simpa [toList] using hchunks, hne, hplaced, ?_⟩
  have hlength := congrArg List.length hchunks
  have hoffset := hplaced.le_length
  simp only [toList, List.length_drop] at hlength hsize hoffset hle
  dsimp only
  omega

theorem Valid.read_fst {q : ByteQueue} (h : q.Valid) (n : Nat) :
    (q.read n).1 = q.toList.take n := by
  rw [(h.read_spec n).1, ← h.length_toList, ← List.take_eq_take_min]

theorem Valid.toList_read_snd {q : ByteQueue} (h : q.Valid) (n : Nat) :
    (q.read n).2.toList = q.toList.drop n := by
  rw [(h.read_spec n).2.1, ← h.length_toList, ← List.drop_eq_drop_min]

theorem Valid.read_snd {q : ByteQueue} (h : q.Valid) (n : Nat) : (q.read n).2.Valid :=
  (h.read_spec n).2.2

end ByteQueue

end WebSocket
