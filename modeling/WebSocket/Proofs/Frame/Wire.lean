import WebSocket.Frame.Client
import WebSocket.Frame.Server
import WebSocket.Proofs.BigEndian
import WebSocket.Proofs.Grammar

/-!
# Frames on the wire

One layout serves both sides: a first byte, the mask bit with the length in one of three forms, a
key if the mask bit is set, and the payload. The frames of either side are wire frames, those of a
client with a key and those of a server without; both are read off a stream by the same rules.
-/

namespace WebSocket

namespace LengthForm

/-- The number of bytes behind the second byte of a header. -/
def width : LengthForm → Nat
  | short => 0
  | twoBytes => 2
  | eightBytes => 8

/-- The length that a code and the bytes behind it stand for. -/
def value (form : LengthForm) (code : Nat) (digits : List UInt8) : Nat :=
  match form with
  | short => code
  | twoBytes | eightBytes => BigEndian.value digits

@[simp] theorem length_extension (form : LengthForm) (n : Nat) :
    (form.extension n).length = form.width := by
  cases form <;> simp [extension, width]

theorem value_extension {form : LengthForm} {n : Nat} (h : n < form.bound) :
    form.value (form.code n) (form.extension n) = n := by
  cases form with
  | short => rfl
  | twoBytes => exact BigEndian.value_bytes_of_lt h
  | eightBytes => exact BigEndian.value_bytes_of_lt h

theorem code_lt {form : LengthForm} {n : Nat} (h : n < form.bound) : form.code n < 128 := by
  cases form with
  | short =>
    simp only [bound] at h
    simp only [code]
    omega
  | twoBytes => exact (by decide : 126 < 128)
  | eightBytes => exact (by decide : 127 < 128)

theorem extension_of_value {form : LengthForm} {digits : List UInt8}
    (hlen : digits.length = form.width) (code : Nat) :
    form.extension (form.value code digits) = digits := by
  cases form with
  | short => exact (List.length_eq_zero_iff.mp hlen).symm
  | twoBytes =>
    have h := BigEndian.bytes_value digits
    rwa [hlen] at h
  | eightBytes =>
    have h := BigEndian.bytes_value digits
    rwa [hlen] at h

theorem value_lt_bound {code : Nat} {digits : List UInt8} (hcode : code < 128)
    (hlen : digits.length = (ofCode code).width) :
    (ofCode code).value code digits < (ofCode code).bound := by
  have hlt := BigEndian.value_lt digits
  rw [hlen] at hlt
  revert hlt
  unfold ofCode
  by_cases h6 : code = 126
  · simp only [h6, if_true]
    exact id
  by_cases h7 : code = 127
  · simp [h7, value, width, bound]
  · simp only [h6, h7, if_false, value, bound]
    omega

theorem code_value (code : Nat) (digits : List UInt8) :
    (ofCode code).code ((ofCode code).value code digits) = code := by
  by_cases h6 : code = 126
  · rw [h6]
    rfl
  by_cases h7 : code = 127
  · rw [h7]
    rfl
  · simp only [ofCode, h6, h7, if_false, LengthForm.code, value]

end LengthForm

structure WireFrame where
  first : UInt8
  form : LengthForm
  key? : Option (Vector UInt8 4)
  /-- As it is before masking. -/
  payload : List UInt8
deriving DecidableEq, Repr

namespace WireFrame

/-- The length can be written in the chosen form. -/
def Fits (w : WireFrame) : Prop :=
  w.payload.length < w.form.bound

def maskBit : Option (Vector UInt8 4) → Nat
  | none => 0
  | some _ => 128

def keyBytes : Option (Vector UInt8 4) → List UInt8
  | none => []
  | some key => key.toList

/-- Masks a payload, or takes the mask off. -/
def masked : Option (Vector UInt8 4) → List UInt8 → List UInt8
  | none, payload => payload
  | some key, payload => Mask.apply { key } payload

def encode (w : WireFrame) : List UInt8 :=
  w.first :: UInt8.ofNat (maskBit w.key? + w.form.code w.payload.length) ::
    (w.form.extension w.payload.length ++ (keyBytes w.key? ++ masked w.key? w.payload))

/-- The first `n` bytes and the rest. -/
def cut? (n : Nat) (bytes : List UInt8) : Option (List UInt8 × List UInt8) :=
  if n ≤ bytes.length then some (bytes.take n, bytes.drop n) else none

def takeKey? : Bool → List UInt8 → Option (Option (Vector UInt8 4) × List UInt8)
  | false, bytes => some (none, bytes)
  | true, k₀ :: k₁ :: k₂ :: k₃ :: bytes => some (some #v[k₀, k₁, k₂, k₃], bytes)
  | true, _ => none

def next? : List UInt8 → Option (WireFrame × List UInt8)
  | first :: second :: bytes => do
    let code := second.toNat % 128
    let form := LengthForm.ofCode code
    let (digits, bytes) ← cut? form.width bytes
    let (key?, bytes) ← takeKey? (decide (128 ≤ second.toNat)) bytes
    let (body, bytes) ← cut? (form.value code digits) bytes
    some ({ first, form, key?, payload := masked key? body }, bytes)
  | _ => none

@[simp] theorem masked_masked (key? : Option (Vector UInt8 4)) (payload : List UInt8) :
    masked key? (masked key? payload) = payload := by
  cases key? <;> simp [masked]

@[simp] theorem length_masked (key? : Option (Vector UInt8 4)) (payload : List UInt8) :
    (masked key? payload).length = payload.length := by
  cases key? <;> simp [masked]

theorem cut?_eq_some_iff {n : Nat} {bytes taken rest : List UInt8} :
    cut? n bytes = some (taken, rest) ↔ taken.length = n ∧ bytes = taken ++ rest := by
  unfold cut?
  constructor
  · intro h
    split at h
    · rename_i hn
      cases h
      exact ⟨List.length_take_of_le hn, (List.take_append_drop n bytes).symm⟩
    · cases h
  · intro h
    obtain ⟨rfl, rfl⟩ := h
    simp

theorem takeKey?_eq_some_iff {b : Bool} {bytes rest : List UInt8}
    {key? : Option (Vector UInt8 4)} :
    takeKey? b bytes = some (key?, rest) ↔ key?.isSome = b ∧ bytes = keyBytes key? ++ rest := by
  cases b with
  | false =>
    cases key? with
    | none => simp [takeKey?, keyBytes]
    | some key => simp [takeKey?]
  | true =>
    constructor
    · intro h
      match bytes with
      | k₀ :: k₁ :: k₂ :: k₃ :: bytes =>
        cases h
        exact ⟨rfl, rfl⟩
    · intro h
      obtain ⟨hsome, rfl⟩ := h
      obtain ⟨key, rfl⟩ := Option.isSome_iff_exists.mp hsome
      obtain ⟨⟨bytes⟩, hsize⟩ := key
      match bytes, hsize with
      | [_, _, _, _], _ => rfl

private theorem toNat_second {w : WireFrame} (h : w.Fits) :
    (UInt8.ofNat (maskBit w.key? + w.form.code w.payload.length)).toNat =
      maskBit w.key? + w.form.code w.payload.length := by
  have hcode := LengthForm.code_lt h
  rw [UInt8.toNat_ofNat']
  apply Nat.mod_eq_of_lt
  cases w.key? <;> simp only [maskBit] <;> omega

private theorem maskBit_add_mod {key? : Option (Vector UInt8 4)} {code : Nat} (h : code < 128) :
    (maskBit key? + code) % 128 = code := by
  cases key? <;> simp only [maskBit] <;> omega

private theorem le_maskBit_add {key? : Option (Vector UInt8 4)} {code : Nat} (h : code < 128) :
    decide (128 ≤ maskBit key? + code) = key?.isSome := by
  cases key? with
  | none => simpa [maskBit] using h
  | some key => simp [maskBit]

theorem next?_encode_append {w : WireFrame} (h : w.Fits) (rest : List UInt8) :
    next? (w.encode ++ rest) = some (w, rest) := by
  have hcode := LengthForm.code_lt h
  have hdigits : cut? w.form.width (w.form.extension w.payload.length ++
      (keyBytes w.key? ++ (masked w.key? w.payload ++ rest))) = some _ :=
    cut?_eq_some_iff.mpr ⟨LengthForm.length_extension _ _, rfl⟩
  have htake : takeKey? w.key?.isSome (keyBytes w.key? ++ (masked w.key? w.payload ++ rest)) =
      some _ := takeKey?_eq_some_iff.mpr ⟨rfl, rfl⟩
  have hbody : cut? w.payload.length (masked w.key? w.payload ++ rest) = some _ :=
    cut?_eq_some_iff.mpr ⟨length_masked _ _, rfl⟩
  simp only [encode, next?, List.cons_append, List.append_assoc, toNat_second h,
    maskBit_add_mod hcode, le_maskBit_add hcode, LengthForm.ofCode_code h,
    LengthForm.value_extension h, hdigits, htake, hbody, Option.bind_eq_bind, Option.bind_some,
    masked_masked]

theorem eq_encode_of_next? {bytes rest : List UInt8} {w : WireFrame}
    (h : next? bytes = some (w, rest)) : w.Fits ∧ bytes = w.encode ++ rest := by
  unfold next? at h
  split at h
  · rename_i first second bytes
    simp only [Option.bind_eq_bind, Option.bind_eq_some_iff, Prod.exists, Option.some.injEq,
      Prod.mk.injEq] at h
    obtain ⟨digits, afterDigits, hdigits, key?, afterKey, hkey, body, rest', hbody, rfl, rfl⟩ := h
    obtain ⟨hwidth, rfl⟩ := cut?_eq_some_iff.mp hdigits
    obtain ⟨hmask, rfl⟩ := takeKey?_eq_some_iff.mp hkey
    obtain ⟨hlen, rfl⟩ := cut?_eq_some_iff.mp hbody
    have hcode : second.toNat % 128 < 128 := Nat.mod_lt _ (by decide)
    have hbit : maskBit key? + second.toNat % 128 = second.toNat := by
      have hlt := second.toNat_lt
      cases key? with
      | none =>
        have : ¬ 128 ≤ second.toNat := by simpa using hmask
        simp only [maskBit]
        omega
      | some key =>
        have : 128 ≤ second.toNat := by simpa using hmask
        simp only [maskBit]
        omega
    constructor
    · simp only [Fits, length_masked, hlen]
      exact LengthForm.value_lt_bound hcode hwidth
    · simp only [encode, length_masked, hlen, LengthForm.code_value, hbit,
        LengthForm.extension_of_value hwidth, masked_masked, UInt8.ofNat_toNat, List.cons_append,
        List.append_assoc]
  · cases h

def grammar : Grammar WireFrame where
  Item := Fits
  encode := encode
  next? := next?
  next?_eq_some_iff := by
    intro bytes rest w
    constructor
    · exact eq_encode_of_next?
    · intro h
      obtain ⟨hfits, rfl⟩ := h
      exact next?_encode_append hfits rest
  encode_ne_nil _ := List.cons_ne_nil _ _

/-- Not masked, and its length in the shortest form. -/
def plain (first : UInt8) (payload : List UInt8) : WireFrame where
  first := first
  form := .shortest payload.length
  key? := none
  payload := payload

theorem fits_plain {payload : List UInt8} (h : payload.length < 2 ^ 64) (first : UInt8) :
    (plain first payload).Fits :=
  LengthForm.lt_bound_shortest h

end WireFrame

namespace ServerFrame

/-- A final, unmasked frame as it is on the wire, its length in the fewest bytes. -/
def plainBytes (first : UInt8) (payload : List UInt8) : List UInt8 :=
  let length := payload.length
  if length ≤ 125 then first :: UInt8.ofNat length :: payload
  else if length ≤ 65535 then
    first :: 126 :: UInt8.ofNat (length / 256) :: UInt8.ofNat length :: payload
  else
    first :: 127 :: [56, 48, 40, 32, 24, 16, 8, 0].map (fun k => UInt8.ofNat (length / 2 ^ k)) ++
      payload

/-- The bytes that a client is to find for a frame. -/
def bytes : ServerFrame → List UInt8
  | binary payload => plainBytes 0x82 payload
  | pong payload => plainBytes 0x8A payload
  | close => [0x88, 0x00]

private theorem encodeHeader_append (first : UInt8) (payload : List UInt8) :
    encodeHeader first payload.length ++ payload = plainBytes first payload := by
  have hshort : payload.length ≤ 125 ↔ payload.length < LengthForm.short.bound :=
    Nat.lt_succ_iff.symm
  have htwo : payload.length ≤ 65535 ↔ payload.length < LengthForm.twoBytes.bound :=
    Nat.lt_succ_iff.symm
  simp only [encodeHeader, plainBytes, LengthForm.shortest, hshort, htwo]
  split
  · rfl
  · split <;>
      simp [LengthForm.code, LengthForm.extension, BigEndian.bytes, Nat.shiftRight_eq_div_pow]

/-- They are those that the server writes. -/
theorem bytes_eq_encode (f : ServerFrame) : f.bytes = f.encode := by
  cases f with
  | binary payload => exact (encodeHeader_append 0x82 payload).symm
  | pong payload => exact (encodeHeader_append 0x8A payload).symm
  | close => decide

/-- A final frame with its opcode. -/
def wire : ServerFrame → WireFrame
  | binary payload => .plain 0x82 payload
  | pong payload => .plain 0x8A payload
  | close => .plain 0x88 []

theorem encode_wire (f : ServerFrame) : f.wire.encode = f.encode := by
  cases f <;>
    simp [wire, WireFrame.plain, WireFrame.encode, encode, header, encodeHeader, payload, opcode,
      Opcode.toNat, WireFrame.maskBit, WireFrame.keyBytes, WireFrame.masked]

theorem fits_wire {f : ServerFrame} (h : f.payload.length < 2 ^ 64) : f.wire.Fits := by
  cases f <;> exact WireFrame.fits_plain h _

/-- The frames that a server wrote can be read back. -/
theorem split_bytes {frames : List ServerFrame} (h : ∀ f ∈ frames, f.payload.length < 2 ^ 64) :
    WireFrame.grammar.split (frames.flatMap bytes) = (frames.map wire, []) := by
  apply Grammar.split_eq_iff.mpr
  refine ⟨?_, ?_, rfl⟩
  · intro w hw
    obtain ⟨f, hf, rfl⟩ := List.mem_map.mp hw
    exact fits_wire (h f hf)
  · rw [List.append_nil, List.flatMap_map]
    apply List.flatMap_congr
    intro f _
    exact f.bytes_eq_encode.trans f.encode_wire.symm

end ServerFrame

end WebSocket
