import Mathlib.Data.List.Basic
import WebSocket.ByteQueue
import WebSocket.Handshake.Request
import WebSocket.Mask

/-!
# Work by positions

What is said elsewhere with lists and numbers, a machine does with positions in arrays and numbers
of 64 bits. The checked forms of such work go by positions, and have no result where a position lies
out of range, a difference is below zero or a sum too large for its word. They are shown to have
one, which is that of the work itself.
-/

namespace WebSocket

/-- The bytes between two positions, if these are in order and in range. -/
def slice? (bytes : List UInt8) (first last : Nat) : Option (List UInt8) :=
  if first ≤ last ∧ last ≤ bytes.length then some ((bytes.take last).drop first) else none

theorem slice?_of_le {bytes : List UInt8} {first last : Nat} (h : first ≤ last)
    (h' : last ≤ bytes.length) : slice? bytes first last = some ((bytes.take last).drop first) :=
  if_pos ⟨h, h'⟩

/-- What is left of `a`, if `b` is not more. -/
def sub? (a b : Nat) : Option Nat :=
  if b ≤ a then some (a - b) else none

theorem sub?_of_le {a b : Nat} (h : b ≤ a) : sub? a b = some (a - b) :=
  if_pos h

/-- The number in a word that has so many values, if it is one of them. -/
def fit? (values n : Nat) : Option Nat :=
  if n < values then some n else none

theorem fit?_of_lt {values n : Nat} (h : n < values) : fit? values n = some n :=
  if_pos h

/-! ## Masks -/

namespace Mask

/-- One byte after the other, with the key byte at `index`; also the index that comes next. -/
def applyChecked (key : Vector UInt8 4) : Nat → List UInt8 → Option (List UInt8 × Nat)
  | index, [] => some ([], index)
  | index, b :: bytes =>
    match key[index]? with
    | none => none
    | some k =>
      (applyChecked key ((index + 1) % 4) bytes).map fun (plain, index) => ((b ^^^ k) :: plain, index)

/-- No key byte is looked for beyond the key. -/
theorem applyChecked_eq (m : Mask) (bytes : List UInt8) :
    applyChecked m.key m.index bytes =
      some (m.apply bytes, ((m.advance bytes.length).index : Nat)) := by
  induction bytes generalizing m with
  | nil =>
    rw [List.length_nil, advance_zero]
    rfl
  | cons b bytes ih =>
    have hkey : m.key[(m.index : Nat)]? = some m.key[m.index] :=
      Vector.getElem?_eq_getElem m.index.isLt
    have hindex : ((m.index : Nat) + 1) % 4 = ((m.advance 1).index : Nat) :=
      (m.index_advance 1).symm
    have hlater := ih (m.advance 1)
    rw [advance_advance, Nat.add_comm, ← hindex] at hlater
    have hsame : (m.advance 1).key = m.key := rfl
    rw [hsame] at hlater
    simp only [applyChecked, hkey, hlater, Option.map_some, apply_cons, List.length_cons]

end Mask

/-! ## Lines of a request -/

namespace Ascii

def isSolid (b : UInt8) : Bool :=
  !isBlank b

/-- The position of the last byte that is not blank, which is looked for from the back. -/
def lastSolid? (bytes : List UInt8) : Option Nat :=
  (bytes.reverse.findIdx? isSolid).map fun behind => bytes.length - 1 - behind

def trimChecked (bytes : List UInt8) : Option (List UInt8) :=
  match bytes.findIdx? isSolid with
  | none => some []
  | some first => slice? bytes first ((lastSolid? bytes).getD first + 1)

def afterLabelChecked (label bytes : List UInt8) : Option (Option (List UInt8)) :=
  if label.length ≤ bytes.length then
    match slice? bytes 0 label.length with
    | none => none
    | some front =>
      if front.map toLower = label.map toLower then
        (slice? bytes label.length bytes.length).map some
      else some none
  else some none

theorem afterLabelChecked_eq (label bytes : List UInt8) :
    afterLabelChecked label bytes = some (afterLabel? label bytes) := by
  by_cases h : label.length ≤ bytes.length
  · rw [afterLabelChecked, if_pos h, slice?_of_le (Nat.zero_le _) h, slice?_of_le h (Nat.le_refl _),
      List.take_length, List.drop_zero]
    dsimp only
    rw [afterLabel?]
    split <;> rfl
  · have hshort : (bytes.take label.length).map toLower ≠ label.map toLower := by
      intro heq
      have hlength := congrArg List.length heq
      simp only [List.length_map, List.length_take] at hlength
      omega
    rw [afterLabelChecked, if_neg h, afterLabel?, if_neg hshort]

private theorem dropWhile_isBlank (bytes : List UInt8) :
    bytes.dropWhile isBlank = bytes.drop (bytes.findIdx isSolid) :=
  List.dropWhile_eq_drop_findIdx_not

private theorem trim_eq_take {bytes back : List UInt8}
    (h : bytes.drop (bytes.findIdx isSolid) = back) :
    trim bytes = back.take (back.length - back.reverse.findIdx isSolid) := by
  rw [trim, dropWhile_isBlank, dropWhile_isBlank, h, List.reverse_drop, List.reverse_reverse,
    List.length_reverse]

/-- The blanks at the back are the same whether those at the front are gone or not. -/
theorem trimChecked_eq (bytes : List UInt8) : trimChecked bytes = some (trim bytes) := by
  cases hfirst : bytes.findIdx? isSolid with
  | none =>
    have hlength : bytes.findIdx isSolid = bytes.length :=
      List.findIdx_eq_length.mpr (List.findIdx?_eq_none_iff.mp hfirst)
    have hnil : bytes.drop (bytes.findIdx isSolid) = [] := by rw [hlength, List.drop_length]
    rw [trimChecked, hfirst, trim_eq_take hnil]
    rfl
  | some first =>
    obtain ⟨hlt, hindex⟩ := List.findIdx?_eq_some_iff_findIdx_eq.mp hfirst
    obtain ⟨_, hsolid, _⟩ := List.findIdx?_eq_some_iff_getElem.mp hfirst
    obtain ⟨back, hback⟩ : ∃ back, bytes.drop first = back := ⟨_, rfl⟩
    have hlength : back.length = bytes.length - first := by rw [← hback, List.length_drop]
    have hmem : bytes[first] ∈ back := by
      rw [← hback, List.drop_eq_getElem_cons hlt]
      exact List.mem_cons_self
    have hbehind : back.reverse.findIdx isSolid < back.reverse.length :=
      List.findIdx_lt_length.mpr ⟨_, List.mem_reverse.mpr hmem, hsolid⟩
    have hlast : lastSolid? bytes = some (bytes.length - 1 - back.reverse.findIdx isSolid) := by
      have hfound := List.findIdx?_eq_some_iff_findIdx_eq.mpr ⟨hbehind, rfl⟩
      rw [lastSolid?, ← List.take_append_drop first bytes, hback, List.reverse_append,
        List.findIdx?_append, hfound]
      simp
    rw [List.length_reverse, hlength] at hbehind
    rw [trimChecked, hfirst, hlast, trim_eq_take (hindex ▸ hback)]
    dsimp only [Option.getD_some]
    rw [slice?_of_le (by omega) (by omega), List.drop_take, hback]
    congr 2
    omega

end Ascii

/-- The meaning of a line, if its parts are found by their positions. -/
def RequestLine.ofBytesChecked (line : List UInt8) : Option RequestLine :=
  if line = Ascii.lineEnd then some finish
  else
    match Ascii.afterLabelChecked keyLabel line with
    | none => none
    | some none => some other
    | some (some rest) => (Ascii.trimChecked rest).map key

theorem RequestLine.ofBytesChecked_eq (line : List UInt8) :
    ofBytesChecked line = some (ofBytes line) := by
  rw [ofBytesChecked, ofBytes, Ascii.afterLabelChecked_eq]
  split
  · rfl
  · cases Ascii.afterLabel? keyLabel line with
    | none => rfl
    | some rest =>
      dsimp only
      rw [Ascii.trimChecked_eq]
      rfl

/-! ## Queues of data -/

namespace ByteQueue

/-- The count of the bytes that wait is kept in a word with so many values. -/
def appendChecked (values : Nat) (q : ByteQueue) (chunk : List UInt8) : Option ByteQueue :=
  if chunk.isEmpty then some q
  else
    (fit? values (q.size + chunk.length)).map fun size =>
      { q with chunks := q.chunks.push chunk, size }

def appendAllChecked (values : Nat) (q : ByteQueue) : List (List UInt8) → Option ByteQueue
  | [] => some q
  | chunk :: chunks => (q.appendChecked values chunk).bind fun q => q.appendAllChecked values chunks

/-- Fills a buffer, of whose `capacity` bytes `filled` are filled, from chunks whose first is read
from `offset` on. -/
def fillChecked (capacity filled : Nat) (chunks : List (List UInt8)) (offset : Nat)
    (out : Array UInt8) : Option (Array UInt8 × List (List UInt8) × Nat) :=
  match chunks with
  | [] => some (out, [], offset)
  | front :: rest =>
    if filled < capacity then
      if offset ≤ front.length then
        let count := min (front.length - offset) (capacity - filled)
        match slice? front offset (offset + count) with
        | none => none
        | some piece =>
          if offset + count = front.length then
            fillChecked capacity (filled + count) rest 0 (out ++ piece)
          else fillChecked capacity (filled + count) (front :: rest) (offset + count) (out ++ piece)
      else none
    else some (out, front :: rest, offset)
termination_by chunks.length + (capacity - filled)
decreasing_by
  · simp only [List.length_cons]
    omega
  · omega

def readIntoChecked (q : ByteQueue) (buffer : List UInt8) : Option (Nat × List UInt8 × ByteQueue) :=
  match fillChecked buffer.length 0 q.chunks.toList q.offset #[] with
  | none => none
  | some (out, chunks, offset) =>
    if out.size ≤ q.size then
      some (out.size, out.toList ++ buffer.drop out.size,
        { chunks := chunks.toArray, offset, size := q.size - out.size })
    else none

/-- A buffer of the size that there is data for has to come back full. -/
def readChecked (q : ByteQueue) (n : Nat) : Option (List UInt8 × ByteQueue) :=
  match q.readIntoChecked (List.replicate (min n q.size) 0) with
  | none => none
  | some (count, bytes, rest) => if count = min n q.size then some (bytes, rest) else none

theorem appendChecked_eq {values : Nat} {q : ByteQueue} {chunk : List UInt8}
    (h : q.size + chunk.length < values) :
    q.appendChecked values chunk = some (q.append chunk) := by
  rw [appendChecked, fit?_of_lt h, append]
  split <;> rfl

theorem size_append (q : ByteQueue) (chunk : List UInt8) :
    (q.append chunk).size = q.size + chunk.length := by
  cases chunk <;> rfl

theorem appendAll_append (q : ByteQueue) (first second : Array (List UInt8)) :
    q.appendAll (first ++ second) = (q.appendAll first).appendAll second := by
  simp only [appendAll, ← Array.foldl_toList, Array.toList_append, List.foldl_append]

theorem Valid.size_appendAll {q : ByteQueue} (h : q.Valid) (chunks : Array (List UInt8)) :
    (q.appendAll chunks).size = q.size + chunks.toList.flatten.length := by
  rw [← (h.appendAll chunks).length_toList, h.toList_appendAll, List.length_append,
    h.length_toList]

theorem appendAllChecked_eq {values : Nat} {q : ByteQueue} {chunks : List (List UInt8)}
    (h : q.size + chunks.flatten.length < values) :
    q.appendAllChecked values chunks = some (chunks.foldl append q) := by
  induction chunks generalizing q with
  | nil => rfl
  | cons chunk chunks ih =>
    rw [List.flatten_cons, List.length_append, ← Nat.add_assoc] at h
    have hchunk : q.size + chunk.length < values := Nat.lt_of_le_of_lt (Nat.le_add_right _ _) h
    rw [← size_append] at h
    rw [appendAllChecked, appendChecked_eq hchunk, Option.bind_some, ih h, List.foldl_cons]

private theorem fillChecked_full (capacity : Nat) (chunks : List (List UInt8)) (offset : Nat)
    (out : Array UInt8) :
    fillChecked capacity capacity chunks offset out = some (out, chunks, offset) := by
  cases chunks with
  | nil => rw [fillChecked]
  | cons front rest => rw [fillChecked, if_neg (Nat.lt_irrefl _)]

private theorem fillChecked_whole {capacity filled offset : Nat} {front : List UInt8}
    (rest : List (List UInt8)) (out : Array UInt8) (hlt : offset < front.length)
    (hfits : front.length - offset ≤ capacity - filled) :
    fillChecked capacity filled (front :: rest) offset out =
      fillChecked capacity (filled + (front.length - offset)) rest 0 (out ++ front.drop offset) := by
  have hroom : filled < capacity := by omega
  have hend : offset + (front.length - offset) = front.length := by omega
  rw [fillChecked, if_pos hroom, if_pos (Nat.le_of_lt hlt)]
  dsimp only
  rw [Nat.min_eq_left hfits, hend, slice?_of_le (Nat.le_of_lt hlt) (Nat.le_refl _),
    List.take_length]
  dsimp only
  rw [if_pos rfl]

private theorem fillChecked_part {capacity filled offset : Nat} {front : List UInt8}
    (rest : List (List UInt8)) (out : Array UInt8) (hfilled : filled ≤ capacity)
    (hless : capacity - filled < front.length - offset) :
    fillChecked capacity filled (front :: rest) offset out =
      some (out ++ (front.drop offset).take (capacity - filled), front :: rest,
        offset + (capacity - filled)) := by
  rcases Nat.eq_or_lt_of_le hfilled with rfl | hroom
  · rw [fillChecked_full, Nat.sub_self, List.take_zero, Array.appendList_nil, Nat.add_zero]
  · have hle : offset + (capacity - filled) ≤ front.length := by omega
    have hend : offset + (capacity - filled) ≠ front.length := by omega
    rw [fillChecked, if_pos hroom, if_pos (by omega)]
    dsimp only
    rw [Nat.min_eq_right (Nat.le_of_lt hless), slice?_of_le (Nat.le_add_right _ _) hle,
      List.drop_take, Nat.add_sub_cancel_left]
    dsimp only
    rw [if_neg hend, Nat.add_sub_cancel' hfilled, fillChecked_full]

private theorem fillChecked_eq {capacity filled offset : Nat} {chunks : List (List UInt8)}
    (out : Array UInt8) (hfilled : filled ≤ capacity) (hne : [] ∉ chunks)
    (hoff : Placed chunks offset) :
    fillChecked capacity filled chunks offset out =
      some (drain (min (capacity - filled) (chunks.flatten.length - offset)) chunks offset out) := by
  induction chunks generalizing filled offset out with
  | nil =>
    have hzero : offset = 0 := hoff
    rw [fillChecked, drain, hzero]
  | cons front rest ih =>
    have hlt : offset < front.length := hoff
    have hrest : [] ∉ rest := fun h => hne (List.mem_cons_of_mem _ h)
    rw [List.flatten_cons, List.length_append, drain, List.length_drop]
    by_cases hless : capacity - filled < front.length - offset
    · have hcount : min (capacity - filled) (front.length + rest.flatten.length - offset) =
          capacity - filled := by omega
      rw [fillChecked_part rest out hfilled hless, hcount, if_pos hless]
    · have hfits : front.length - offset ≤ capacity - filled := Nat.le_of_not_lt hless
      have hall : ¬ min (capacity - filled) (front.length + rest.flatten.length - offset) <
          front.length - offset := by omega
      have hleft : min (capacity - filled) (front.length + rest.flatten.length - offset) -
          (front.length - offset) =
          min (capacity - (filled + (front.length - offset))) (rest.flatten.length - 0) := by omega
      rw [fillChecked_whole rest out hlt hfits, if_neg hall, hleft]
      exact ih _ (by omega) hrest (Placed.zero hrest)

/-- Reading into a buffer never passes the end of a chunk or of the buffer, and takes no more than
is counted. -/
theorem Valid.readIntoChecked_eq {q : ByteQueue} (h : q.Valid) (buffer : List UInt8) :
    q.readIntoChecked buffer = some (q.readInto buffer) := by
  have hunread : q.chunks.toList.flatten.length - q.offset = q.size := by
    have hsize := h.size_add_offset
    omega
  have hfill := fillChecked_eq #[] (Nat.zero_le buffer.length) h.nonempty h.placed
  have hlength : (q.read buffer.length).1.length = min buffer.length q.size := by
    rw [h.read_fst, List.length_take, h.length_toList]
  rw [hunread, Nat.sub_zero] at hfill
  rw [readIntoChecked, readInto, hfill]
  simp only [read] at hlength ⊢
  generalize drain (min buffer.length q.size) q.chunks.toList q.offset #[] = drained at hlength ⊢
  have hsize : drained.1.size = min buffer.length q.size := hlength
  rw [hlength, hsize, if_pos (Nat.min_le_right _ _)]

/-- What is asked of the queue and counted there is read. -/
theorem Valid.readChecked_eq {q : ByteQueue} (h : q.Valid) (n : Nat) :
    q.readChecked n = some (q.read n) := by
  have hlength : (q.read (min n q.size)).1.length = min n q.size := by
    rw [h.read_fst, List.length_take, h.length_toList]
    omega
  have hread : q.read (min n q.size) = q.read n := by
    rw [read, Nat.min_assoc, Nat.min_self, ← read]
  rw [readChecked, h.readIntoChecked_eq, readInto]
  dsimp only
  rw [List.length_replicate, hlength, if_pos rfl, List.drop_of_length_le (by simp),
    List.append_nil, hread]

end ByteQueue

end WebSocket
