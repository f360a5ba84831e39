import WebSocket.Handshake.AcceptKey
import WebSocket.Proofs.Ascii
import WebSocket.Proofs.BigEndian

/-!
# What an accept key looks like

A digest has twenty bytes, whatever it was taken of, and twenty bytes make twenty-seven characters
of the base 64 alphabet and one padding character. So an accept key says nothing about the client's
key but its digest, and decoding it gives that digest.
-/

namespace WebSocket

namespace Base64

/-- Each character stands at the place of the six bits that it writes. -/
def alphabet : List Char :=
  "ABCDEFGHIJKLMNOPQRSTUVWXYZabcdefghijklmnopqrstuvwxyz0123456789+/".toList

theorem alphabet_getElem?_mod (n : Nat) : alphabet[n % 64]? = some (digit n) := by
  have hplace : ∀ place < 64, alphabet[place]? = some (digit place) := by decide
  have hmod : digit (n % 64) = digit n := by simp [digit]
  rw [hplace _ (Nat.mod_lt n (by decide)), hmod]

theorem digit_mem_alphabet (n : Nat) : digit n ∈ alphabet :=
  List.mem_of_getElem? (alphabet_getElem?_mod n)

/-- One character for every six bits that are begun, and padding up to whole groups of four. -/
structure Spells (text : List Char) (count : Nat) (digits : List Char) : Prop where
  text_eq : text = digits ++ List.replicate ((3 - count % 3) % 3) '='
  length_digits : digits.length = (8 * count + 5) / 6
  mem_alphabet : ∀ c ∈ digits, c ∈ alphabet

theorem exists_spells_encode (bytes : List UInt8) :
    ∃ digits, Spells (encode bytes) bytes.length digits := by
  fun_induction encode bytes with
  | case1 => exact ⟨[], rfl, rfl, by simp⟩
  | case2 a n => exact ⟨[_, _], rfl, by simp, by simp [digit_mem_alphabet]⟩
  | case3 a b n => exact ⟨[_, _, _], rfl, by simp, by simp [digit_mem_alphabet]⟩
  | case4 a b c rest n ih =>
    obtain ⟨digits, htext, hlength, hmem⟩ := ih
    have hmod : (a :: b :: c :: rest).length % 3 = rest.length % 3 := by
      simp only [List.length_cons]
      omega
    refine ⟨digit (n / 262144) :: digit (n / 4096) :: digit (n / 64) :: digit n :: digits,
      ?_, ?_, ?_⟩
    · rw [hmod, htext]
      rfl
    · simp only [List.length_cons, hlength]
      omega
    · simp only [List.forall_mem_cons, digit_mem_alphabet, true_and]
      exact hmem

end Base64

namespace Sha1

/-- A 1 bit, the fewest 0 bits that do, and the length in bits, up to whole blocks of 64 bytes. -/
structure Pads (message padded : List UInt8) (zeros : Nat) (size : List UInt8) : Prop where
  padded_eq : padded = message ++ 0x80 :: List.replicate zeros 0 ++ size
  whole : padded.length % 64 = 0
  fewest : zeros < 64
  length_size : size.length = 8
  value_size : BigEndian.value size = 8 * message.length

theorem pads_pad {message : List UInt8} (h : message.length < 2 ^ 61) :
    Pads message (pad message) ((119 - message.length % 64) % 64)
      (BigEndian.bytes 8 (8 * message.length)) where
  padded_eq := rfl
  whole := length_pad message
  fewest := Nat.mod_lt _ (by decide)
  length_size := BigEndian.length_bytes 8 _
  value_size := BigEndian.value_bytes_of_lt (by omega)

private theorem exists_blocks {count : Nat} {bytes : List UInt8} (h : bytes.length = 64 * count) :
    ∃ blocks : List (List UInt8), blocks.length = count ∧ (∀ block ∈ blocks, block.length = 64) ∧
      blocks.flatten = bytes := by
  induction count generalizing bytes with
  | zero => exact ⟨[], rfl, by simp, (List.length_eq_zero_iff.mp h).symm⟩
  | succ count ih =>
    have hrest : (bytes.drop 64).length = 64 * count := by
      rw [List.length_drop]
      omega
    obtain ⟨blocks, hcount, hblocks, hflatten⟩ := ih hrest
    refine ⟨bytes.take 64 :: blocks, by simp [hcount], ?_, ?_⟩
    · rw [List.forall_mem_cons, List.length_take]
      exact ⟨by omega, hblocks⟩
    · rw [List.flatten_cons, hflatten, List.take_append_drop]

theorem absorb_flatten {blocks : List (List UInt8)} (h : ∀ block ∈ blocks, block.length = 64)
    (s : State) : absorb blocks.length s blocks.flatten = blocks.foldl compress s := by
  induction blocks generalizing s with
  | nil => rfl
  | cons block blocks ih =>
    obtain ⟨hblock, hblocks⟩ := List.forall_mem_cons.mp h
    rw [List.length_cons, List.flatten_cons, absorb, List.take_left' hblock,
      List.drop_left' hblock, ih hblocks, List.foldl_cons]

/-- The blocks of the padded message are mixed in one after another. -/
def IsDigest (message digest : List UInt8) : Prop :=
  ∃ (blocks : List (List UInt8)) (zeros : Nat) (size : List UInt8),
    Pads message blocks.flatten zeros size ∧ (∀ block ∈ blocks, block.length = 64) ∧
      digest = (blocks.foldl compress .initial).bytes

theorem isDigest_digest {message : List UInt8} (h : message.length < 2 ^ 61) :
    IsDigest message (digest message) := by
  have hwhole : (pad message).length = 64 * ((pad message).length / 64) := by
    have := length_pad message
    omega
  obtain ⟨blocks, hcount, hblocks, hflatten⟩ := exists_blocks hwhole
  have hpads := pads_pad h
  rw [← hflatten] at hpads
  refine ⟨blocks, _, _, hpads, hblocks, ?_⟩
  rw [digest, ← absorb_flatten hblocks, hcount, hflatten]

end Sha1

/-- What a client can bring about by its key. -/
structure IsAcceptKey (key : List UInt8) (accept : String) : Prop where
  length_eq : accept.length = 28
  digits : ∃ digits, accept.toList = digits ++ ['='] ∧ digits.length = 27 ∧
    ∀ c ∈ digits, c ∈ Base64.alphabet
  decoded : ∃ digest, Base64.decode? accept.toList = some digest ∧ digest.length = 20 ∧
    Sha1.IsDigest (key ++ Ascii.bytes "258EAFA5-E914-47DA-95CA-C5AB0DC85B11") digest

private theorem exists_digits (key : List UInt8) :
    ∃ digits, (acceptKey key).toList = digits ++ ['='] ∧ digits.length = 27 ∧
      ∀ c ∈ digits, c ∈ Base64.alphabet := by
  have hlength := Sha1.length_digest (key ++ Ascii.bytes acceptGuid)
  obtain ⟨digits, htext, hdigits, hmem⟩ :=
    Base64.exists_spells_encode (Sha1.digest (key ++ Ascii.bytes acceptGuid))
  rw [hlength] at htext hdigits
  refine ⟨digits, ?_, hdigits, hmem⟩
  rw [acceptKey, String.toList_ofList, htext]
  rfl

theorem isAscii_acceptKey (key : List UInt8) : Ascii.IsAscii (acceptKey key).toList := by
  obtain ⟨digits, haccept, -, hdigits⟩ := exists_digits key
  have halphabet : Ascii.IsAscii Base64.alphabet := by decide +kernel
  have hpadding : Ascii.IsAscii ['='] := by decide
  rw [haccept]
  refine List.forall_mem_append.mpr ⟨?_, hpadding⟩
  intro c hc
  exact halphabet c (hdigits c hc)

theorem isAcceptKey_acceptKey {key : List UInt8} (h : key.length < 2 ^ 60) :
    IsAcceptKey key (acceptKey key) := by
  have hlength := Sha1.length_digest (key ++ Ascii.bytes acceptGuid)
  obtain ⟨digits, haccept, hdigits, hmem⟩ := exists_digits key
  constructor
  · rw [← String.length_toList, haccept, List.length_append, hdigits]
    rfl
  · exact ⟨digits, haccept, hdigits, hmem⟩
  · refine ⟨_, ?_, hlength, ?_⟩
    · rw [acceptKey, String.toList_ofList, Base64.decode?_encode]
    · apply Sha1.isDigest_digest
      have hguid : (Ascii.bytes "258EAFA5-E914-47DA-95CA-C5AB0DC85B11").length = 36 := by decide
      rw [List.length_append, hguid]
      omega

end WebSocket
