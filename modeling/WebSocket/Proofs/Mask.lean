import Mathlib.Data.List.Basic
import WebSocket.Mask

/-!
# Masking in pieces

A payload may be masked piece by piece, with a mask that goes on where the piece before has left it.
However the bytes are cut, each of them meets the key byte at its own place, counted from the first
byte for which the key was used (`inPieces_passes`). The work itself is a loop over bytes that keeps
its position in the key as a number which nothing bounds beforehand; all that it reads lies within
the key (`passes?_cursor`, `lt_of_mem_positions`).
-/

namespace WebSocket.Mask

/-! ## One piece after the other -/

/-- A piece masked, and the mask for the piece behind it. -/
def pass (m : Mask) (piece : List UInt8) : List UInt8 × Mask :=
  (m.apply piece, m.advance piece.length)

def passes (m : Mask) : List (List UInt8) → List (List UInt8) × Mask
  | [] => ([], m)
  | piece :: pieces =>
    let (masked, next) := m.pass piece
    let (later, last) := next.passes pieces
    (masked :: later, last)

theorem passes_cons (m : Mask) (piece : List UInt8) (pieces : List (List UInt8)) :
    m.passes (piece :: pieces) =
      (m.apply piece :: ((m.advance piece.length).passes pieces).1,
        ((m.advance piece.length).passes pieces).2) :=
  rfl

theorem passes_snd (m : Mask) (pieces : List (List UInt8)) :
    (m.passes pieces).2 = m.advance pieces.flatten.length := by
  induction pieces generalizing m with
  | nil => exact m.advance_zero.symm
  | cons piece pieces ih =>
    rw [passes_cons, ih, advance_advance, List.flatten_cons, List.length_append]

theorem flatten_passes (m : Mask) (pieces : List (List UInt8)) :
    (m.passes pieces).1.flatten = m.apply pieces.flatten := by
  induction pieces generalizing m with
  | nil => rfl
  | cons piece pieces ih =>
    rw [passes_cons, List.flatten_cons, List.flatten_cons, ih, apply_append]

theorem map_length_passes (m : Mask) (pieces : List (List UInt8)) :
    (m.passes pieces).1.map List.length = pieces.map List.length := by
  induction pieces generalizing m with
  | nil => rfl
  | cons piece pieces ih =>
    rw [passes_cons, List.map_cons, List.map_cons, ih, length_apply]

/-- A mask takes off again what it has put on. -/
theorem passes_passes (m : Mask) (pieces : List (List UInt8)) :
    m.passes (m.passes pieces).1 = (pieces, (m.passes pieces).2) := by
  induction pieces generalizing m with
  | nil => rfl
  | cons piece pieces ih =>
    rw [passes_cons, passes_cons, apply_apply, length_apply, ih]

/-! ## Places -/

/-- The key byte for the byte at a place, with the key repeated without end. -/
def keyByte (key : Vector UInt8 4) (place : Nat) : UInt8 :=
  key.get ⟨place % 4, Nat.mod_lt place (Nat.succ_pos 3)⟩

theorem keyByte_mod_add (key : Vector UInt8 4) (n i : Nat) :
    keyByte key (n % 4 + i) = keyByte key (n + i) := by
  simp only [keyByte, Nat.mod_add_mod]

/-- A mask that began with its key has met `n` bytes. -/
theorem index_advance_fresh (key : Vector UInt8 4) (n : Nat) :
    ((advance { key } n).index : Nat) = n % 4 := by
  rw [index_advance]
  exact congrArg (· % 4) (Nat.zero_add n)

theorem apply_eq_mapIdx (m : Mask) (payload : List UInt8) :
    m.apply payload = payload.mapIdx fun i b => b ^^^ keyByte m.key (m.index + i) := by
  have hplace (i : Nat) : m.key[m.index + Fin.ofNat 4 i] = keyByte m.key (m.index + i) := by
    have hindex : m.index + Fin.ofNat 4 i = ⟨(m.index + i) % 4, Nat.mod_lt _ (by decide)⟩ := by
      apply Fin.ext
      simp [Fin.val_add]
    exact congrArg m.key.get hindex
  simp only [apply, hplace]

/-- What a mask makes of a payload that it meets piece by piece, behind `n` bytes for which its key
has been used. -/
structure InPieces (key : Vector UInt8 4) (n : Nat) (m : Mask) (pieces : List (List UInt8)) :
    Prop where
  bytes :
    (m.passes pieces).1.flatten = pieces.flatten.mapIdx fun i b => b ^^^ keyByte key (n + i)
  lengths : (m.passes pieces).1.map List.length = pieces.map List.length
  whole : m.pass pieces.flatten = ((m.passes pieces).1.flatten, (m.passes pieces).2)
  index : ((m.passes pieces).2.index : Nat) = (n + pieces.flatten.length) % 4
  restored : m.passes (m.passes pieces).1 = (pieces, (m.passes pieces).2)
  /-- The bytes come back also when they are cut in another way. -/
  restored_cut :
    ∀ cut, cut.flatten = (m.passes pieces).1.flatten → (m.passes cut).1.flatten = pieces.flatten

theorem inPieces_advance (key : Vector UInt8 4) (n : Nat) (pieces : List (List UInt8)) :
    InPieces key n (advance { key } n) pieces := by
  have hstart := index_advance_fresh key n
  have hkey : (advance { key } n).key = key := rfl
  generalize advance { key } n = m at hstart hkey ⊢
  constructor
  · rw [flatten_passes, apply_eq_mapIdx, hstart, hkey]
    simp only [keyByte_mod_add]
  · exact m.map_length_passes pieces
  · rw [flatten_passes, passes_snd, pass]
  · rw [passes_snd, index_advance, hstart, Nat.mod_add_mod]
  · exact m.passes_passes pieces
  · intro cut hcut
    rw [flatten_passes, hcut, flatten_passes, apply_apply]

/-! ## The loop over bytes -/

/-- A key, and a position in it that may be any number. -/
structure Cursor where
  key : Vector UInt8 4
  position : Nat := 0
  /-- The positions at which the key has been read, in order. -/
  reads : List Nat := []

/-- Work on one item after the other. There is no result if an item has none. -/
def inTurn {σ α β : Type} (work : σ → α → Option (β × σ)) (s : σ) :
    List α → Option (List β × σ)
  | [] => some ([], s)
  | a :: items =>
    match work s a with
    | none => none
    | some (b, next) => (inTurn work next items).map fun (later, last) => (b :: later, last)

private theorem inTurn_cons {σ α β : Type} {work : σ → α → Option (β × σ)} {s next last : σ}
    {a : α} {b : β} {items : List α} {later : List β} (hfirst : work s a = some (b, next))
    (hlater : inTurn work next items = some (later, last)) :
    inTurn work s (a :: items) = some (b :: later, last) := by
  rw [inTurn, hfirst]
  dsimp only
  rw [hlater]
  rfl

namespace Cursor

/-- Masks one byte, if the key has one at the position. -/
def step? (c : Cursor) (b : UInt8) : Option (UInt8 × Cursor) :=
  match c.key[c.position]? with
  | none => none
  | some k =>
    some (b ^^^ k,
      { c with position := (c.position + 1) % 4, reads := c.reads ++ [c.position] })

def pass? (c : Cursor) (piece : List UInt8) : Option (List UInt8 × Cursor) :=
  inTurn step? c piece

def passes? (c : Cursor) (pieces : List (List UInt8)) : Option (List (List UInt8) × Cursor) :=
  inTurn pass? c pieces

end Cursor

/-- Where the key is read for `count` bytes, the first of which is at the place `start`. -/
def positions (start count : Nat) : List Nat :=
  (List.range count).map fun i => (start + i) % 4

theorem positions_zero (start : Nat) : positions start 0 = [] := rfl

theorem positions_add (start m n : Nat) :
    positions start (m + n) = positions start m ++ positions (start + m) n := by
  simp only [positions, List.range_add, List.map_append, List.map_map]
  congr 1
  apply List.map_congr_left
  intro i _
  rw [Function.comp_apply, Nat.add_assoc]

theorem positions_mod (start count : Nat) :
    positions (start % 4) count = positions start count := by
  apply List.map_congr_left
  intro i _
  exact Nat.mod_add_mod start 4 i

theorem lt_of_mem_positions {start count i : Nat} (h : i ∈ positions start count) : i < 4 := by
  obtain ⟨j, _, rfl⟩ := List.mem_map.mp h
  exact Nat.mod_lt _ (by decide)

/-- The loop at the place of a mask, when it has read the key at these positions. -/
def cursor (m : Mask) (reads : List Nat) : Cursor where
  key := m.key
  position := m.index
  reads := reads

theorem step?_cursor (m : Mask) (reads : List Nat) (b : UInt8) :
    (m.cursor reads).step? b =
      some (b ^^^ m.key.get m.index, (m.advance 1).cursor (reads ++ positions m.index 1)) := by
  have hkey : m.key[(m.index : Nat)]? = some (m.key.get m.index) :=
    Vector.getElem?_eq_getElem m.index.isLt
  have hread : positions m.index 1 = [(m.index : Nat)] :=
    congrArg ([·]) (Nat.mod_eq_of_lt m.index.isLt)
  rw [Cursor.step?, cursor, hkey, hread, cursor, index_advance]
  rfl

theorem pass?_cursor (m : Mask) (reads : List Nat) (piece : List UInt8) :
    (m.cursor reads).pass? piece =
      some (m.apply piece,
        (m.advance piece.length).cursor (reads ++ positions m.index piece.length)) := by
  induction piece generalizing m reads with
  | nil =>
    rw [List.length_nil, advance_zero, positions_zero, List.append_nil]
    rfl
  | cons b piece ih =>
    have hlater := ih (m.advance 1) (reads ++ positions m.index 1)
    -- The index has gone round, the places count on; they stand at the same byte of the key.
    rw [advance_advance, index_advance, positions_mod, List.append_assoc, ← positions_add] at hlater
    rw [apply_cons, List.length_cons, Nat.add_comm]
    exact inTurn_cons (m.step?_cursor reads b) hlater

/-- The loop comes to what the mask comes to, and reads the key at one position after the other. -/
theorem passes?_cursor (m : Mask) (reads : List Nat) (pieces : List (List UInt8)) :
    (m.cursor reads).passes? pieces =
      some ((m.passes pieces).1,
        (m.passes pieces).2.cursor (reads ++ positions m.index pieces.flatten.length)) := by
  induction pieces generalizing m reads with
  | nil =>
    rw [List.flatten_nil, List.length_nil, positions_zero, List.append_nil]
    rfl
  | cons piece pieces ih =>
    have hlater := ih (m.advance piece.length) (reads ++ positions m.index piece.length)
    rw [index_advance, positions_mod, List.append_assoc, ← positions_add] at hlater
    rw [passes_cons, List.flatten_cons, List.length_append]
    exact inTurn_cons (m.pass?_cursor reads piece) hlater

/-- Behind whatever has been masked before with a key, masking piece by piece is masking the whole,
and the loop reads the key at no position beyond it. -/
theorem inPieces_passes (key : Vector UInt8 4) (earlier pieces : List (List UInt8)) :
    InPieces key earlier.flatten.length (passes { key } earlier).2 pieces ∧
      ∃ halfway last : Cursor,
        Cursor.passes? { key } earlier = some ((passes { key } earlier).1, halfway) ∧
        halfway.passes? pieces = some (((passes { key } earlier).2.passes pieces).1, last) ∧
        last.key = key ∧ last.position = ((passes { key } earlier).2.passes pieces).2.index ∧
        last.reads = positions 0 (earlier.flatten.length + pieces.flatten.length) ∧
        ∀ i ∈ last.reads, i < 4 := by
  have hearlier := passes?_cursor { key } [] earlier
  rw [passes_snd, List.nil_append] at hearlier
  have hpieces := passes?_cursor (advance { key } earlier.flatten.length)
    (positions 0 earlier.flatten.length) pieces
  have hreads : positions 0 earlier.flatten.length ++
      positions (advance { key } earlier.flatten.length).index pieces.flatten.length =
      positions 0 (earlier.flatten.length + pieces.flatten.length) := by
    rw [index_advance_fresh, positions_mod, positions_add, Nat.zero_add]
  rw [hreads] at hpieces
  rw [passes_snd]
  constructor
  · exact inPieces_advance key earlier.flatten.length pieces
  · refine ⟨_, _, hearlier, hpieces, ?_, rfl, rfl, fun i hi => lt_of_mem_positions hi⟩
    rw [passes_snd]
    rfl

/-- Pieces of three bytes, none and two. -/
example :
    (passes { key := #v[0x37, 0xFA, 0x21, 0x3D] } [[0x7F, 0x9F, 0x4D], [], [0x51, 0x58]]).1 =
      [[0x48, 0x65, 0x6C], [], [0x6C, 0x6F]] := by
  decide

end WebSocket.Mask
