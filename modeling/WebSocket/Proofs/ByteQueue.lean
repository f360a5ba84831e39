import Mathlib.Data.List.Basic
import WebSocket.ByteQueue

/-!
# A queue is one stream

Whatever is appended and read, in whatever pieces, the bytes that have been read and those that have
not are together the bytes that were appended (`lossless`). Reading into a buffer goes chunk by
chunk; each round comes to the end of the first chunk or fills the buffer, so there are no more
rounds than chunks (`Valid.exists_runs_readInto`).
-/

namespace WebSocket.ByteQueue

/-! ## Copying in rounds -/

/-- The bytes of a buffer from position `n` on, written over. -/
def overwrite (buffer : List UInt8) (n : Nat) (bytes : List UInt8) : List UInt8 :=
  buffer.take n ++ bytes ++ buffer.drop (n + bytes.length)

/-- Where copying stands in the chunks of a queue and in the buffer of a caller. -/
structure Copying where
  chunks : List (List UInt8)
  offset : Nat
  buffer : List UInt8
  /-- How many bytes of the buffer have been written. -/
  filled : Nat
deriving DecidableEq, Repr

namespace Copying

/-- Copies what is unread of the first chunk, or as much of it as there is room for. -/
def round? (c : Copying) : Option Copying :=
  match c.chunks with
  | [] => none
  | front :: rest =>
    if c.filled < c.buffer.length then
      let count := min (front.length - c.offset) (c.buffer.length - c.filled)
      let buffer := overwrite c.buffer c.filled ((front.drop c.offset).take count)
      if c.offset + count = front.length then
        some { chunks := rest, offset := 0, buffer, filled := c.filled + count }
      else
        some { c with offset := c.offset + count, buffer, filled := c.filled + count }
    else none

/-- After `n` rounds copying has come to its end. -/
inductive Runs : Copying → Nat → Copying → Prop where
  | done {c : Copying} (h : c.round? = none) : Runs c 0 c
  | round {c next last : Copying} {n : Nat} (h : c.round? = some next) (hlater : Runs next n last) :
      Runs c (n + 1) last

end Copying

/-- Copying begins. -/
def copying (q : ByteQueue) (buffer : List UInt8) : Copying where
  chunks := q.chunks.toList
  offset := q.offset
  buffer := buffer
  filled := 0

private theorem overwrite_append (out behind bytes : List UInt8) :
    overwrite (out ++ behind) out.length bytes = out ++ bytes ++ behind.drop bytes.length := by
  rw [overwrite, List.take_left, List.drop_append, List.drop_of_length_le (Nat.le_add_right _ _),
    Nat.add_sub_cancel_left, List.nil_append]

private theorem round?_eq {front behind : List UInt8} {offset count : Nat}
    (rest : List (List UInt8)) (out : Array UInt8) (hroom : behind ≠ [])
    (hcount : count = min (front.length - offset) behind.length) :
    Copying.round?
        { chunks := front :: rest, offset, buffer := out.toList ++ behind, filled := out.size } =
      let out := out ++ (front.drop offset).take count
      let buffer := out.toList ++ behind.drop count
      if offset + count = front.length then
        some { chunks := rest, offset := 0, buffer, filled := out.size }
      else some { chunks := front :: rest, offset := offset + count, buffer, filled := out.size } := by
  have hpos := List.length_pos_iff.mpr hroom
  have hpiece : ((front.drop offset).take count).length = count := by
    rw [List.length_take, List.length_drop]
    omega
  have hlength : (out.toList ++ behind).length = out.size + behind.length := by simp
  have hsize : (out ++ (front.drop offset).take count).size = out.size + count := by
    rw [← Array.length_toList, Array.toList_appendList, List.length_append, hpiece,
      Array.length_toList]
  have hwritten := overwrite_append out.toList behind ((front.drop offset).take count)
  rw [hpiece, Array.length_toList] at hwritten
  simp only [Copying.round?, hlength, Nat.lt_add_of_pos_right hpos, if_true,
    Nat.add_sub_cancel_left, ← hcount, hwritten, hsize, Array.toList_appendList]

private theorem round?_whole {front behind : List UInt8} {offset : Nat}
    (rest : List (List UInt8)) (out : Array UInt8) (hlt : offset < front.length)
    (hfits : front.length - offset ≤ behind.length) :
    Copying.round?
        { chunks := front :: rest, offset, buffer := out.toList ++ behind, filled := out.size } =
      some
        { chunks := rest, offset := 0
          buffer := (out ++ front.drop offset).toList ++ behind.drop (front.length - offset)
          filled := (out ++ front.drop offset).size } := by
  have hroom : behind ≠ [] := List.length_pos_iff.mp (by omega)
  have hend : offset + (front.length - offset) = front.length := by omega
  have hpiece : (front.drop offset).take (front.length - offset) = front.drop offset :=
    List.take_of_length_le (Nat.le_of_eq List.length_drop)
  rw [round?_eq rest out hroom (Nat.min_eq_left hfits).symm, hpiece]
  exact if_pos hend

private theorem round?_part {front behind : List UInt8} {offset : Nat}
    (rest : List (List UInt8)) (out : Array UInt8) (hroom : behind ≠ [])
    (hless : behind.length < front.length - offset) :
    Copying.round?
        { chunks := front :: rest, offset, buffer := out.toList ++ behind, filled := out.size } =
      some
        { chunks := front :: rest, offset := offset + behind.length
          buffer := (out ++ (front.drop offset).take behind.length).toList
          filled := (out ++ (front.drop offset).take behind.length).size } := by
  have hend : offset + behind.length ≠ front.length := by omega
  rw [round?_eq rest out hroom (Nat.min_eq_right (Nat.le_of_lt hless)).symm]
  dsimp only
  rw [if_neg hend, List.drop_length, List.append_nil]

private theorem round?_full (chunks : List (List UInt8)) (offset : Nat) (out : Array UInt8) :
    Copying.round? { chunks, offset, buffer := out.toList, filled := out.size } = none := by
  cases chunks with
  | nil => rfl
  | cons front rest => simp [Copying.round?]

private theorem exists_runs {chunks : List (List UInt8)} {offset : Nat} (out : Array UInt8)
    (behind : List UInt8) (hne : [] ∉ chunks) (hoff : Placed chunks offset) :
    let count := min behind.length (chunks.flatten.length - offset)
    let drained := drain count chunks offset out
    ∃ n ≤ chunks.length,
      Copying.Runs
        { chunks, offset, buffer := out.toList ++ behind, filled := out.size } n
        { chunks := drained.2.1, offset := drained.2.2
          buffer := drained.1.toList ++ behind.drop count, filled := drained.1.size } := by
  induction chunks generalizing offset out behind with
  | nil =>
    have hzero : offset = 0 := hoff
    refine ⟨0, Nat.le_refl _, ?_⟩
    simp only [drain, hzero, List.flatten_nil, List.length_nil, Nat.sub_self, Nat.min_zero,
      List.drop_zero]
    exact .done rfl
  | cons front rest ih =>
    have hlt : offset < front.length := hoff
    have hrest : [] ∉ rest := fun h => hne (List.mem_cons_of_mem _ h)
    dsimp only
    rw [List.flatten_cons, List.length_append, drain, List.length_drop]
    by_cases hless : behind.length < front.length - offset
    · have hcount : min behind.length (front.length + rest.flatten.length - offset) =
          behind.length := by omega
      rw [hcount, if_pos hless, List.drop_length, List.append_nil]
      by_cases hroom : behind = []
      · subst hroom
        refine ⟨0, Nat.zero_le _, ?_⟩
        have hfull := round?_full (front :: rest) offset out
        simpa using Copying.Runs.done hfull
      · refine ⟨1, by simp, .round (round?_part rest out hroom hless) (.done ?_)⟩
        exact round?_full _ _ _
    · have hfits : front.length - offset ≤ behind.length := Nat.le_of_not_lt hless
      have hall : ¬ min behind.length (front.length + rest.flatten.length - offset) <
          front.length - offset := by omega
      have hplaced : Placed rest 0 := Placed.zero hrest
      obtain ⟨n, hn, hruns⟩ := ih (out ++ front.drop offset)
        (behind.drop (front.length - offset)) hrest hplaced
      have hleft : min behind.length (front.length + rest.flatten.length - offset) -
          (front.length - offset) =
          min (behind.drop (front.length - offset)).length (rest.flatten.length - 0) := by
        rw [List.length_drop]
        omega
      have hdrop : behind.drop (min behind.length (front.length + rest.flatten.length - offset)) =
          (behind.drop (front.length - offset)).drop
            (min (behind.drop (front.length - offset)).length (rest.flatten.length - 0)) := by
        rw [List.drop_drop, ← hleft]
        congr 1
        omega
      rw [if_neg hall, hleft, hdrop]
      exact ⟨n + 1, Nat.succ_le_succ hn, .round (round?_whole rest out hlt hfits) hruns⟩

/-! ## What a read does -/

/-- What reading into a buffer does: so many bytes are copied as there are and as fit, in rounds of
which there are no more than chunks; what lies behind them in the buffer is not touched. -/
structure Copies (q : ByteQueue) (buffer : List UInt8) (count : Nat) (filled : List UInt8)
    (rest : ByteQueue) : Prop where
  count_eq : count = min buffer.length q.size
  copied : filled.take count = q.toList.take count
  untouched : filled.drop count = buffer.drop count
  length : filled.length = buffer.length
  size : rest.size + count = q.size
  unread : rest.toList = q.toList.drop count
  ends : ∃ n ≤ q.chunks.size,
    (q.copying buffer).Runs n
      { chunks := rest.chunks.toList, offset := rest.offset, buffer := filled, filled := count }

variable {q : ByteQueue}

theorem Valid.length_read_fst (h : q.Valid) (n : Nat) : (q.read n).1.length = min n q.size := by
  rw [h.read_fst, List.length_take, h.length_toList]

theorem Valid.readInto_eq (h : q.Valid) (buffer : List UInt8) :
    q.readInto buffer =
      (min buffer.length q.size,
        q.toList.take buffer.length ++ buffer.drop (min buffer.length q.size),
        (q.read buffer.length).2) := by
  show ((q.read buffer.length).1.length,
    (q.read buffer.length).1 ++ buffer.drop (q.read buffer.length).1.length,
    (q.read buffer.length).2) = _
  rw [h.length_read_fst, h.read_fst]

theorem Valid.exists_runs_readInto (h : q.Valid) (buffer : List UInt8) :
    ∃ n ≤ q.chunks.size,
      (q.copying buffer).Runs n
        { chunks := (q.readInto buffer).2.2.chunks.toList
          offset := (q.readInto buffer).2.2.offset
          buffer := (q.readInto buffer).2.1
          filled := (q.readInto buffer).1 } := by
  have hunread : q.chunks.toList.flatten.length - q.offset = q.size := by
    have hsize := h.size_add_offset
    omega
  have hlength := h.length_read_fst buffer.length
  obtain ⟨n, hn, hruns⟩ := exists_runs #[] buffer h.nonempty h.placed
  rw [hunread] at hruns
  refine ⟨n, hn, ?_⟩
  simp only [readInto, read] at hlength ⊢
  generalize drain (min buffer.length q.size) q.chunks.toList q.offset #[] = drained
    at hlength hruns ⊢
  have hsize : drained.1.size = min buffer.length q.size := hlength
  rw [hsize] at hruns
  rw [hlength]
  exact hruns

theorem Valid.copies (h : q.Valid) (buffer : List UInt8) :
    q.Copies buffer (q.readInto buffer).1 (q.readInto buffer).2.1 (q.readInto buffer).2.2 := by
  have hends := h.exists_runs_readInto buffer
  have hlength := h.length_toList
  have hsize : (q.read buffer.length).2.size = q.size - min buffer.length q.size := rfl
  have htake : (q.toList.take buffer.length).length = min buffer.length q.size := by
    rw [List.length_take, hlength]
  have hcut : q.toList.take buffer.length = q.toList.take (min buffer.length q.size) := by
    rw [← hlength, ← List.take_eq_take_min]
  rw [h.readInto_eq] at hends ⊢
  dsimp only at hends ⊢
  constructor
  · rfl
  · rw [List.take_left' htake, hcut]
  · exact List.drop_left' htake
  · rw [List.length_append, List.length_drop, htake]
    omega
  · rw [hsize]
    omega
  · rw [h.toList_read_snd, ← hlength, ← List.drop_eq_drop_min]
  · exact hends

/-- What is taken out of a queue by itself is what a buffer of that size would get; it is copied to
a buffer that has just the room for what there is. -/
structure Takes (q : ByteQueue) (n : Nat) : Prop where
  same : ∀ buffer : List UInt8, buffer.length = n →
    (q.read n).1 = (q.readInto buffer).2.1.take (q.readInto buffer).1 ∧
      (q.read n).2.toList = (q.readInto buffer).2.2.toList
  ends : ∃ rounds ≤ q.chunks.size,
    (q.copying (List.replicate (min n q.size) 0)).Runs rounds
      { chunks := (q.read n).2.chunks.toList, offset := (q.read n).2.offset, buffer := (q.read n).1
        filled := min n q.size }

theorem Valid.takes (h : q.Valid) (n : Nat) : q.Takes n := by
  constructor
  · intro buffer hbuffer
    subst hbuffer
    rw [(h.copies buffer).copied, (h.copies buffer).count_eq, h.read_fst, ← h.length_toList,
      ← List.take_eq_take_min]
    exact ⟨rfl, rfl⟩
  · obtain ⟨rounds, hrounds, hruns⟩ := h.exists_runs_readInto (List.replicate (min n q.size) 0)
    refine ⟨rounds, hrounds, ?_⟩
    have hlength := h.length_read_fst (min n q.size)
    have hread : q.read (min n q.size) = q.read n := by
      rw [read, Nat.min_assoc, Nat.min_self, ← read]
    simp only [readInto, List.length_replicate, hread] at hruns hlength
    rw [hlength] at hruns
    simpa using hruns

/-! ## Histories -/

inductive Operation where
  | append (chunk : List UInt8)
  | read (n : Nat)
  | readInto (buffer : List UInt8)

/-- What an operation adds to the stream. -/
def Operation.appended : Operation → List UInt8
  | append chunk => chunk
  | read _ | readInto _ => []

/-- A queue, and the bytes that it has given so far. -/
structure History where
  queue : ByteQueue := {}
  returned : List UInt8 := []

namespace History

def step (x : History) : Operation → History
  | .append chunk => { x with queue := x.queue.append chunk }
  | .read n =>
    let (bytes, queue) := x.queue.read n
    { queue, returned := x.returned ++ bytes }
  | .readInto buffer =>
    let (count, filled, queue) := x.queue.readInto buffer
    { queue, returned := x.returned ++ filled.take count }

def run (x : History) (ops : List Operation) : History :=
  ops.foldl step x

/-- The queue is in order, and nothing of the stream is lost. -/
structure Keeps (x : History) (stream : List UInt8) : Prop where
  valid : x.queue.Valid
  whole : x.returned ++ x.queue.toList = stream

theorem Keeps.step {x : History} {stream : List UInt8} (h : x.Keeps stream) (op : Operation) :
    (x.step op).Keeps (stream ++ op.appended) := by
  cases op with
  | append chunk =>
    refine ⟨h.valid.append chunk, ?_⟩
    show x.returned ++ (x.queue.append chunk).toList = stream ++ chunk
    rw [h.valid.toList_append, ← List.append_assoc, h.whole]
  | read n =>
    refine ⟨h.valid.read_snd n, ?_⟩
    show x.returned ++ (x.queue.read n).1 ++ (x.queue.read n).2.toList = stream ++ []
    rw [h.valid.read_fst, h.valid.toList_read_snd, List.append_assoc, List.take_append_drop,
      h.whole, List.append_nil]
  | readInto buffer =>
    have hcopies := h.valid.copies buffer
    refine ⟨h.valid.read_snd buffer.length, ?_⟩
    show x.returned ++ (x.queue.readInto buffer).2.1.take (x.queue.readInto buffer).1 ++
      (x.queue.readInto buffer).2.2.toList = stream ++ []
    rw [hcopies.copied, hcopies.unread, List.append_assoc, List.take_append_drop, h.whole,
      List.append_nil]

theorem Keeps.run {x : History} {stream : List UInt8} (h : x.Keeps stream)
    (ops : List Operation) : (x.run ops).Keeps (stream ++ ops.flatMap Operation.appended) := by
  induction ops generalizing x stream with
  | nil =>
    rw [List.flatMap_nil, List.append_nil]
    exact h
  | cons op ops ih =>
    rw [List.flatMap_cons, ← List.append_assoc]
    exact ih (h.step op)

theorem keeps_fresh : Keeps {} [] :=
  ⟨valid_empty, rfl⟩

/-- After any operations the queue is in order and gives its bytes as one stream. -/
theorem lossless (ops : List Operation)
    (hcount : (ops.flatMap Operation.appended).length < UInt64.size) :
    let past := run {} ops
    past.queue.Valid ∧ past.queue.size < UInt64.size ∧
      past.queue.size = past.queue.toList.length ∧
      past.returned ++ past.queue.toList = ops.flatMap Operation.appended ∧
      (∀ buffer,
        past.queue.Copies buffer (past.queue.readInto buffer).1 (past.queue.readInto buffer).2.1
          (past.queue.readInto buffer).2.2) ∧
      ∀ n, past.queue.Takes n := by
  intro past
  have hkeeps : past.Keeps (ops.flatMap Operation.appended) := keeps_fresh.run ops
  have hsize := hkeeps.valid.length_toList
  refine ⟨hkeeps.valid, ?_, hsize.symm, hkeeps.whole, hkeeps.valid.copies, hkeeps.valid.takes⟩
  rw [← hkeeps.whole, List.length_append, hsize] at hcount
  exact Nat.lt_of_le_of_lt (Nat.le_add_left _ _) hcount

/-- A chunk that is empty, and a read that ends within a chunk. -/
theorem lossless_partial :
    let ops : List Operation :=
      [.append [1, 2, 3], .append [], .append [4, 5], .read 2, .readInto [0xEE, 0xEE]]
    let past := run {} ops
    (ops.flatMap Operation.appended).length < UInt64.size ∧ past.queue.Valid ∧
      past.returned = [1, 2, 3, 4] ∧ past.returned ++ past.queue.toList = [1, 2, 3, 4, 5] := by
  intro ops past
  have hcount : (ops.flatMap Operation.appended).length < UInt64.size := by decide
  obtain ⟨hvalid, -, -, hwhole, -⟩ := lossless ops hcount
  exact ⟨hcount, hvalid, by decide, hwhole⟩

end History

end WebSocket.ByteQueue
