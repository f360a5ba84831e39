import WebSocket.BigEndian

/-!
# SHA-1

The message is padded to whole blocks of 64 bytes, each block is mixed into a state of five words,
and the final state is the digest.
-/

namespace WebSocket.Sha1

structure State where
  a : UInt32
  b : UInt32
  c : UInt32
  d : UInt32
  e : UInt32
deriving DecidableEq, Repr

namespace State

def initial : State :=
  ⟨0x67452301, 0xEFCDAB89, 0x98BADCFE, 0x10325476, 0xC3D2E1F0⟩

/-- Word by word, modulo 2 ^ 32. -/
def add (s t : State) : State :=
  ⟨s.a + t.a, s.b + t.b, s.c + t.c, s.d + t.d, s.e + t.e⟩

def bytes (s : State) : List UInt8 :=
  [s.a, s.b, s.c, s.d, s.e].flatMap fun word => BigEndian.bytes 4 word.toNat

end State

def rotateLeft (word : UInt32) (n : UInt32) : UInt32 :=
  word <<< n ||| word >>> (32 - n)

/-- A 1 bit, then 0 bits up to eight bytes before the end of a block, then the length in bits. -/
def pad (message : List UInt8) : List UInt8 :=
  message ++ 0x80 :: List.replicate ((119 - message.length % 64) % 64) 0 ++
    BigEndian.bytes 8 (8 * message.length)

def words : List UInt8 → List UInt32
  | b₀ :: b₁ :: b₂ :: b₃ :: rest => UInt32.ofNat (BigEndian.value [b₀, b₁, b₂, b₃]) :: words rest
  | _ => []

/-- The words of a block, extended to eighty. -/
def schedule (block : List UInt8) : Array UInt32 :=
  (List.range 64).foldl
    (fun w i =>
      let word := w.getD (i + 13) 0 ^^^ w.getD (i + 8) 0 ^^^ w.getD (i + 2) 0 ^^^ w.getD i 0
      w.push (rotateLeft word 1))
    (words block).toArray

/-- The function and the constant that a round uses. -/
def choose (round : Nat) (b c d : UInt32) : UInt32 × UInt32 :=
  if round < 20 then ((b &&& c) ||| (~~~b &&& d), 0x5A827999)
  else if round < 40 then (b ^^^ c ^^^ d, 0x6ED9EBA1)
  else if round < 60 then ((b &&& c) ||| (b &&& d) ||| (c &&& d), 0x8F1BBCDC)
  else (b ^^^ c ^^^ d, 0xCA62C1D6)

def mix (s : State) (round : Nat) (word : UInt32) : State :=
  let (f, k) := choose round s.b s.c s.d
  ⟨rotateLeft s.a 5 + f + s.e + k + word, s.a, rotateLeft s.b 30, s.c, s.d⟩

def compress (s : State) (block : List UInt8) : State :=
  let w := schedule block
  s.add ((List.range 80).foldl (fun t round => mix t round (w.getD round 0)) s)

/-- Mixes in the first `n` blocks. -/
def absorb : Nat → State → List UInt8 → State
  | 0, s, _ => s
  | n + 1, s, message => absorb n (compress s (message.take 64)) (message.drop 64)

def digest (message : List UInt8) : List UInt8 :=
  let padded := pad message
  (absorb (padded.length / 64) .initial padded).bytes

@[simp] theorem length_digest (message : List UInt8) : (digest message).length = 20 := by
  simp [digest, State.bytes]

theorem length_pad (message : List UInt8) : (pad message).length % 64 = 0 := by
  simp only [pad, List.length_append, List.length_cons, List.length_replicate,
    BigEndian.length_bytes]
  omega

end WebSocket.Sha1
