import WebSocket.Proofs.Frame.Wire

/-!
# The frames of a client

The frames that a server reads to their end form a grammar, so a stream splits into such frames and
a tail in one way only. A tail that does not begin with a frame is the beginning of one, unless its
first two bytes already tell that no frame follows (`exists_frame_of_header`).
-/

namespace WebSocket

theorem Opcode.purpose?_eq_none_iff {op : Opcode} : op.purpose? = none ↔ op = .close := by
  cases op <;> simp [purpose?]

theorem Opcode.toNat_eq_eight_iff {op : Opcode} : op.toNat = 8 ↔ op = .close := by
  cases op <;> simp [toNat]

/-- The low four bits of a first byte tell the frame type. -/
theorem Opcode.ofByte?_eq_some_iff {first : UInt8} {op : Opcode} :
    ofByte? first = some op ↔ first.toNat % 16 = op.toNat := by
  constructor
  · intro h
    exact (toNat_of_ofNat? h).symm
  · intro h
    rw [ofByte?, h, ofNat?_toNat]

theorem Opcode.ofByte?_eq_none_iff {first : UInt8} :
    ofByte? first = none ↔ first.toNat % 16 ∉ [0, 1, 2, 8, 9, 10] := by
  have hnumbers : ∀ n < 16, ofNat? n = none ↔ n ∉ [0, 1, 2, 8, 9, 10] := by decide
  exact hnumbers _ (Nat.mod_lt _ (by decide))

private theorem Opcode.toNat_lt (op : Opcode) : op.toNat < 16 := by
  cases op <;> decide

namespace ClientFrame

/-- Not a close frame, and its length can be written as it is. -/
def Readable (f : ClientFrame) : Prop :=
  f.opcode ≠ .close ∧ f.Fits

def wire (f : ClientFrame) : WireFrame where
  first := UInt8.ofNat (16 * f.flags.val + f.opcode.toNat)
  form := f.form
  key? := some f.key
  payload := f.payload

def ofWire? (w : WireFrame) : Option ClientFrame :=
  match Opcode.ofByte? w.first, w.key? with
  | some opcode, some key =>
    if opcode = .close then none
    else
      some
        { flags := ⟨w.first.toNat / 16, by have := w.first.toNat_lt; omega⟩
          opcode, form := w.form, key, payload := w.payload }
  | _, _ => none

theorem encode_wire (f : ClientFrame) : f.wire.encode = f.encode := by
  simp [encode, header, WireFrame.encode, wire, WireFrame.maskBit, WireFrame.keyBytes,
    WireFrame.masked]

private theorem toNat_first (f : ClientFrame) :
    f.wire.first.toNat = 16 * f.flags.val + f.opcode.toNat := by
  have hop := f.opcode.toNat_lt
  have hflags := f.flags.isLt
  rw [wire, UInt8.toNat_ofNat']
  exact Nat.mod_eq_of_lt (by omega)

theorem ofByte?_first (f : ClientFrame) : Opcode.ofByte? f.wire.first = some f.opcode := by
  have hop := f.opcode.toNat_lt
  rw [Opcode.ofByte?, toNat_first, Nat.mul_add_mod, Nat.mod_eq_of_lt hop, Opcode.ofNat?_toNat]

theorem ofWire?_eq_some_iff {w : WireFrame} {f : ClientFrame} :
    ofWire? w = some f ↔ f.opcode ≠ .close ∧ w = f.wire := by
  constructor
  · intro h
    unfold ofWire? at h
    split at h
    · rename_i opcode key hop hkey
      split at h
      · cases h
      · rename_i hclose
        cases h
        refine ⟨hclose, ?_⟩
        have hdigit := Opcode.toNat_of_ofNat? hop
        have hfirst : 16 * (w.first.toNat / 16) + opcode.toNat = w.first.toNat := by
          rw [hdigit]
          exact Nat.div_add_mod _ _
        obtain ⟨first, form, key?, payload⟩ := w
        cases hkey
        simp only [wire, WireFrame.mk.injEq, and_true]
        rw [hfirst, UInt8.ofNat_toNat]
    · cases h
  · intro h
    obtain ⟨hclose, rfl⟩ := h
    have hflags : (⟨f.wire.first.toNat / 16, by have := f.wire.first.toNat_lt; omega⟩ : Fin 16) =
        f.flags := by
      have hop := f.opcode.toNat_lt
      apply Fin.ext
      simp only [toNat_first]
      omega
    unfold ofWire?
    rw [ofByte?_first]
    simp only [wire, if_neg hclose] at hflags ⊢
    rw [hflags]

def next? (bytes : List UInt8) : Option (ClientFrame × List UInt8) :=
  (WireFrame.next? bytes).bind fun (w, rest) => (ofWire? w).map fun f => (f, rest)

def grammar : Grammar ClientFrame where
  Item := Readable
  encode := encode
  next? := next?
  next?_eq_some_iff := by
    intro bytes rest f
    simp only [next?, Option.bind_eq_some_iff, Option.map_eq_some_iff, Prod.exists, Prod.mk.injEq]
    constructor
    · intro h
      obtain ⟨w, rest', hnext, f', hf, rfl, rfl⟩ := h
      obtain ⟨hclose, rfl⟩ := ofWire?_eq_some_iff.mp hf
      obtain ⟨hfits, hbytes⟩ := WireFrame.eq_encode_of_next? hnext
      exact ⟨⟨hclose, hfits⟩, by rw [hbytes, encode_wire]⟩
    · intro h
      obtain ⟨⟨hclose, hfits⟩, rfl⟩ := h
      refine ⟨f.wire, rest, ?_, f, ofWire?_eq_some_iff.mpr ⟨hclose, rfl⟩, rfl, rfl⟩
      rw [← encode_wire]
      exact WireFrame.next?_encode_append (show f.wire.Fits from hfits) rest
  encode_ne_nil _ := List.cons_ne_nil _ _

theorem next?_encode_append {f : ClientFrame} (h : f.Readable) (rest : List UInt8) :
    next? (f.encode ++ rest) = some (f, rest) :=
  grammar.next?_encode_append h rest

theorem header_eq (f : ClientFrame) :
    f.header = f.wire.first :: UInt8.ofNat (128 + f.form.code f.payload.length) ::
      f.form.extension f.payload.length := rfl

theorem length_header (f : ClientFrame) : f.header.length = f.form.width + 2 := by
  simp [header_eq]

theorem length_encode (f : ClientFrame) :
    f.encode.length = f.header.length + 4 + f.payload.length := by
  simp [encode, Nat.add_assoc]

theorem toNat_second {f : ClientFrame} (h : f.Fits) :
    (UInt8.ofNat (128 + f.form.code f.payload.length)).toNat =
      128 + f.form.code f.payload.length := by
  have hcode := LengthForm.code_lt h
  rw [UInt8.toNat_ofNat']
  exact Nat.mod_eq_of_lt (by omega)

end ClientFrame

private theorem WireFrame.exists_next? (first second : UInt8) {rest : List UInt8}
    (h : 2 ^ 64 + 12 ≤ rest.length) :
    ∃ w rest', next? (first :: second :: rest) = some (w, rest') ∧ w.first = first ∧
      w.key?.isSome = decide (128 ≤ second.toNat) := by
  have hcode : second.toNat % 128 < 128 := Nat.mod_lt _ (by decide)
  generalize hform : LengthForm.ofCode (second.toNat % 128) = form
  have hwidth : form.width ≤ 8 := by cases form <;> decide
  obtain ⟨digits, afterDigits, hdigits⟩ :
      ∃ digits after, cut? form.width rest = some (digits, after) :=
    ⟨_, _, if_pos (by omega)⟩
  obtain ⟨hlen, hrest⟩ := cut?_eq_some_iff.mp hdigits
  have hafter : 2 ^ 64 + 4 ≤ afterDigits.length := by
    rw [hrest, List.length_append] at h
    omega
  obtain ⟨key?, afterKey, hkey, hbody⟩ :
      ∃ key? after, takeKey? (decide (128 ≤ second.toNat)) afterDigits = some (key?, after) ∧
        2 ^ 64 ≤ after.length := by
    by_cases hmask : 128 ≤ second.toNat
    · match afterDigits, hafter with
      | k₀ :: k₁ :: k₂ :: k₃ :: after, hafter =>
        refine ⟨some #v[k₀, k₁, k₂, k₃], after, by simp [hmask, takeKey?], ?_⟩
        simp only [List.length_cons] at hafter
        omega
    · exact ⟨none, afterDigits, by simp [hmask, takeKey?], by omega⟩
  have hvalue : form.value (second.toNat % 128) digits < 2 ^ 64 := by
    subst hform
    have hlt := LengthForm.value_lt_bound hcode hlen
    have hbound : ∀ form : LengthForm, form.bound ≤ 2 ^ 64 := by
      intro form
      cases form <;> decide
    exact Nat.lt_of_lt_of_le hlt (hbound _)
  obtain ⟨body, rest', hcut⟩ :
      ∃ body rest', cut? (form.value (second.toNat % 128) digits) afterKey = some (body, rest') :=
    ⟨_, _, if_pos (by omega)⟩
  refine ⟨{ first, form, key?, payload := masked key? body }, rest', ?_, rfl, ?_⟩
  · simp only [next?, hform, hdigits, hkey, hcut, Option.bind_eq_bind, Option.bind_some]
  · exact (takeKey?_eq_some_iff.mp hkey).1

/-- Behind a header that announces a readable frame, bytes are missing or there is a frame. -/
theorem ClientFrame.exists_frame_of_header {first second : UInt8} {opcode : Opcode}
    (hop : Opcode.ofByte? first = some opcode) (hclose : opcode ≠ .close)
    (hmask : 128 ≤ second.toNat) (rest : List UInt8) :
    ∃ f : ClientFrame, f.Readable ∧
      (first :: second :: rest <+: f.encode ∨ f.encode <+: first :: second :: rest) := by
  let more : List UInt8 := List.replicate (2 ^ 64 + 12) 0
  have hlen : 2 ^ 64 + 12 ≤ (rest ++ more).length := by
    rw [List.length_append, List.length_replicate]
    exact Nat.le_add_left _ _
  obtain ⟨w, rest', hnext, hfirst, hkey⟩ := WireFrame.exists_next? first second hlen
  obtain ⟨hfits, hbytes⟩ := WireFrame.eq_encode_of_next? hnext
  have hsome : w.key?.isSome = true := by simp [hkey, hmask]
  obtain ⟨key, hkey⟩ := Option.isSome_iff_exists.mp hsome
  obtain ⟨f, hf⟩ : ∃ f, ofWire? w = some f := by
    simp only [ofWire?, hfirst, hop, hkey, if_neg hclose, Option.some.injEq]
    exact ⟨_, rfl⟩
  obtain ⟨hclose, rfl⟩ := ofWire?_eq_some_iff.mp hf
  rw [encode_wire] at hbytes
  refine ⟨f, ⟨hclose, hfits⟩, List.prefix_or_prefix_of_prefix ?_ (hbytes ▸ List.prefix_append _ _)⟩
  exact ⟨more, rfl⟩

end WebSocket
