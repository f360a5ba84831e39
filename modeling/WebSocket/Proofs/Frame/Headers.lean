import WebSocket.Proofs.Frame.Decoding

/-!
# Headers as they are written and as they are read

Writing and reading tell the three forms of a length apart each on its own. What a reader takes in
for a length is known for every byte string (`announces_header_iff`): one header for each first byte
and each form in which the length can be written. The header that is written is the shortest of
them, and the frames that are built on such headers are read to their end (`headers_inverse`).
-/

namespace WebSocket

/-! ## Writing -/

/-- Writes a header behind what a buffer holds. The length is a word, and is narrowed to the bytes
that its form has. -/
def putHeader (buffer : Array UInt8) (first : UInt8) (length : UInt64) : Array UInt8 :=
  let buffer := buffer.push first
  if length ≤ 125 then buffer.push length.toUInt8
  else if length ≤ 65535 then buffer.push 126 ++ BigEndian.bytes 2 length.toUInt16.toNat
  else buffer.push 127 ++ BigEndian.bytes 8 length.toNat

/-- Narrowing loses nothing, for it comes behind the comparison that allows it. -/
theorem toList_putHeader (buffer : Array UInt8) (first : UInt8) (length : UInt64) :
    (putHeader buffer first length).toList = buffer.toList ++ encodeHeader first length.toNat := by
  have hshort : length ≤ 125 ↔ length.toNat < LengthForm.short.bound := by
    rw [UInt64.le_iff_toNat_le]
    exact Nat.lt_succ_iff.symm
  have htwo : length ≤ 65535 ↔ length.toNat < LengthForm.twoBytes.bound := by
    rw [UInt64.le_iff_toNat_le]
    exact Nat.lt_succ_iff.symm
  unfold putHeader encodeHeader LengthForm.shortest
  simp only [hshort, htwo]
  split
  · simp [LengthForm.code, LengthForm.extension]
  · split
    · rename_i hfits
      have hnarrow : length.toUInt16.toNat = length.toNat := by
        rw [UInt64.toNat_toUInt16]
        exact Nat.mod_eq_of_lt hfits
      simp [hnarrow, LengthForm.code, LengthForm.extension]
    · simp [LengthForm.code, LengthForm.extension]

/-- The same header with the mask bit set. -/
def withMaskBit (header : List UInt8) : List UInt8 :=
  header.modify 1 (· ||| 0x80)

private theorem or_maskBit : ∀ n < 128, UInt8.ofNat n ||| 0x80 = UInt8.ofNat (128 + n) := by
  decide

theorem withMaskBit_encodeHeader (first : UInt8) {length : Nat} (h : length < UInt64.size) :
    withMaskBit (encodeHeader first length) =
      let form := LengthForm.shortest length
      first :: UInt8.ofNat (128 + form.code length) :: form.extension length := by
  have hcode := LengthForm.code_lt (LengthForm.lt_bound_shortest h)
  dsimp only
  rw [← or_maskBit _ hcode]
  rfl

/-! ## Reading -/

/-- What a first byte says of the payload; nothing if no payload is read. -/
def purposeOf? (first : UInt8) : Option Purpose :=
  (Opcode.ofByte? first).bind Opcode.purpose?

namespace FrameReader

/-- A header or a length is read next. -/
def beforeKey : FrameReader → Bool
  | header | length16 _ | length64 _ => true
  | maskKey _ _ | payload _ | closed => false

/-- Steps that read a header and a length lead to the key of a frame, and leave `rest`. -/
inductive Announces : FrameReader → Channel → Purpose → Nat → Channel → Prop where
  | key (purpose : Purpose) (length : Nat) (rest : Channel) :
      Announces (maskKey purpose length) rest purpose length rest
  | step {r : FrameReader} {ch rest : Channel} {purpose : Purpose} {length : Nat}
      (hbefore : r.beforeKey = true) (hverdict : (r.step ch).verdict = none)
      (hlater : Announces (r.step ch).reader (r.step ch).channel purpose length rest) :
      Announces r ch purpose length rest

variable {r : FrameReader} {ch rest : Channel} {purpose purpose' : Purpose} {length length' : Nat}

theorem announces_maskKey_iff :
    (maskKey purpose length).Announces ch purpose' length' rest ↔
      purpose' = purpose ∧ length' = length ∧ rest = ch := by
  constructor
  · intro h
    cases h with
    | key => exact ⟨rfl, rfl, rfl⟩
    | step hbefore => cases hbefore
  · rintro ⟨rfl, rfl, rfl⟩
    exact .key _ _ _

theorem announces_iff_of_beforeKey (h : r.beforeKey = true) :
    r.Announces ch purpose length rest ↔
      (r.step ch).verdict = none ∧
        (r.step ch).reader.Announces (r.step ch).channel purpose length rest := by
  constructor
  · intro hannounces
    cases hannounces with
    | key => cases h
    | step _ hverdict hlater => exact ⟨hverdict, hlater⟩
  · rintro ⟨hverdict, hlater⟩
    exact .step h hverdict hlater

/-- They lead nowhere else. -/
theorem Announces.unique {rest' : Channel} (h : r.Announces ch purpose length rest)
    (h' : r.Announces ch purpose' length' rest') :
    purpose' = purpose ∧ length' = length ∧ rest' = rest := by
  induction h with
  | key => exact announces_maskKey_iff.mp h'
  | step hbefore _ _ ih => exact ih ((announces_iff_of_beforeKey hbefore).mp h').2

private theorem announces_digits_iff {n : Nat} {bytes : List UInt8} {sent : Array UInt8}
    (hbefore : r.beforeKey = true)
    (hwait : ∀ {ch}, ch.takeExact? n = none → (r.step ch).verdict = some .pending)
    (htake : ∀ {ch behind} {digits : Vector UInt8 n}, ch.takeExact? n = some (digits, behind) →
      r.step ch =
        { reader := maskKey purpose (BigEndian.value digits.toList), channel := behind
          trace := { calls := #[.readExact n] } }) :
    r.Announces (.holding bytes sent) purpose' length' rest ↔
      purpose' = purpose ∧ ∃ digits behind, bytes = digits ++ behind ∧ digits.length = n ∧
        length' = BigEndian.value digits ∧ rest = .holding behind sent := by
  rw [announces_iff_of_beforeKey hbefore]
  by_cases hlen : bytes.length < n
  · rw [hwait (Channel.takeExact?_holding_of_lt hlen sent)]
    constructor
    · rintro ⟨hverdict, -⟩
      cases hverdict
    · rintro ⟨-, digits, behind, rfl, rfl, -⟩
      rw [List.length_append] at hlen
      omega
  · obtain ⟨digits, behind, rfl⟩ := exists_eq_toList_append hlen
    rw [htake (Channel.takeExact?_holding_append digits behind sent)]
    simp only [true_and, announces_maskKey_iff]
    constructor
    · rintro ⟨rfl, rfl, rfl⟩
      exact ⟨rfl, _, _, rfl, Vector.length_toList, rfl, rfl⟩
    · rintro ⟨rfl, digits', behind', hbytes, hdigits, rfl, rfl⟩
      obtain ⟨rfl, rfl⟩ := List.append_inj hbytes (by rw [hdigits, Vector.length_toList])
      exact ⟨rfl, rfl, rfl⟩

private theorem announces_length16_iff {bytes : List UInt8} {sent : Array UInt8} :
    (length16 purpose).Announces (.holding bytes sent) purpose' length' rest ↔
      purpose' = purpose ∧ ∃ digits behind, bytes = digits ++ behind ∧ digits.length = 2 ∧
        length' = BigEndian.value digits ∧ rest = .holding behind sent := by
  apply announces_digits_iff rfl
  · intro ch h
    rw [step, h]
    rfl
  · intro ch behind digits h
    rw [step, h]

private theorem announces_length64_iff {bytes : List UInt8} {sent : Array UInt8} :
    (length64 purpose).Announces (.holding bytes sent) purpose' length' rest ↔
      purpose' = purpose ∧ ∃ digits behind, bytes = digits ++ behind ∧ digits.length = 8 ∧
        length' = BigEndian.value digits ∧ rest = .holding behind sent := by
  apply announces_digits_iff rfl
  · intro ch h
    rw [step, h]
    rfl
  · intro ch behind digits h
    rw [step, h]

private theorem announces_afterHeader_iff {code : Nat} {bytes : List UInt8} {sent : Array UInt8} :
    (afterHeader purpose code).Announces (.holding bytes sent) purpose' length' rest ↔
      purpose' = purpose ∧ ∃ digits behind, bytes = digits ++ behind ∧
        digits.length = (LengthForm.ofCode code).width ∧
        length' = (LengthForm.ofCode code).value code digits ∧ rest = .holding behind sent := by
  unfold afterHeader
  cases LengthForm.ofCode code with
  | short =>
    simp only [announces_maskKey_iff, LengthForm.width, LengthForm.value, List.length_eq_zero_iff]
    constructor
    · rintro ⟨rfl, rfl, rfl⟩
      exact ⟨rfl, [], bytes, rfl, rfl, rfl, rfl⟩
    · rintro ⟨rfl, _, behind, rfl, rfl, rfl, rfl⟩
      exact ⟨rfl, rfl, rfl⟩
  | twoBytes => exact announces_length16_iff
  | eightBytes => exact announces_length64_iff

private theorem announces_pair_iff {first second : UInt8} {behind : List UInt8}
    {sent : Array UInt8} :
    header.Announces (.holding (first :: second :: behind) sent) purpose length rest ↔
      ∃ opened, purposeOf? first = some opened ∧ 128 ≤ second.toNat ∧
        (afterHeader opened (second.toNat % 128)).Announces (.holding behind sent) purpose length
          rest := by
  rw [announces_iff_of_beforeKey rfl, step_header first second behind sent, readHeader,
    purposeOf?]
  cases Opcode.ofByte? first with
  | none => simp
  | some opcode =>
    rw [Option.bind_some]
    dsimp only
    cases opcode.purpose? with
    | none => simp
    | some opened =>
      dsimp only
      by_cases hmask : second.toNat < 128
      · simp [hmask, Nat.not_le_of_lt hmask]
      · simp [hmask, Nat.le_of_not_lt hmask]

/-- A length is announced by one header for each first byte and each form that it fits. -/
theorem announces_header_iff {bytes : List UInt8} {sent : Array UInt8} :
    header.Announces (.holding bytes sent) purpose length rest ↔
      ∃ (first : UInt8) (form : LengthForm) (behind : List UInt8),
        purposeOf? first = some purpose ∧ length < form.bound ∧
        bytes =
          first :: UInt8.ofNat (128 + form.code length) :: (form.extension length ++ behind) ∧
        rest = .holding behind sent := by
  constructor
  · intro h
    match bytes with
    | [] | [_] =>
      obtain ⟨hverdict, -⟩ := (announces_iff_of_beforeKey rfl).mp h
      rw [step, Channel.takeExact?_holding_of_lt (by simp)] at hverdict
      cases hverdict
    | first :: second :: bytes =>
      obtain ⟨opened, hopened, hmask, hlater⟩ := announces_pair_iff.mp h
      obtain ⟨rfl, digits, behind, rfl, hwidth, rfl, rfl⟩ := announces_afterHeader_iff.mp hlater
      have hcode : second.toNat % 128 < 128 := Nat.mod_lt _ (by decide)
      have hbyte : UInt8.ofNat (128 + second.toNat % 128) = second := by
        have hlt := second.toNat_lt
        have hsum : 128 + second.toNat % 128 = second.toNat := by omega
        rw [hsum, UInt8.ofNat_toNat]
      refine ⟨first, _, behind, hopened, LengthForm.value_lt_bound hcode hwidth, ?_, rfl⟩
      rw [LengthForm.code_value, LengthForm.extension_of_value hwidth, hbyte]
  · rintro ⟨first, form, behind, hpurpose, hfits, rfl, rfl⟩
    have hcode := LengthForm.code_lt hfits
    have hsecond : (UInt8.ofNat (128 + form.code length)).toNat = 128 + form.code length := by
      rw [UInt8.toNat_ofNat']
      exact Nat.mod_eq_of_lt (by omega)
    have hmod : (128 + form.code length) % 128 = form.code length := by omega
    refine announces_pair_iff.mpr ⟨purpose, hpurpose, by omega, ?_⟩
    rw [hsecond, hmod]
    refine announces_afterHeader_iff.mpr ⟨rfl, _, behind, rfl, ?_, ?_, rfl⟩
    · rw [LengthForm.ofCode_code hfits, LengthForm.length_extension]
    · rw [LengthForm.ofCode_code hfits, LengthForm.value_extension hfits]

end FrameReader

/-! ## The shortest form -/

theorem LengthForm.width_shortest_le {form : LengthForm} {length : Nat} (h : length < form.bound) :
    (shortest length).width ≤ form.width := by
  unfold shortest
  cases form with
  | short => simp only [h, if_true, Nat.le_refl]
  | twoBytes =>
    split
    · exact Nat.zero_le _
    · exact Nat.le_refl _
  | eightBytes =>
    split
    · exact Nat.zero_le _
    · split <;> decide

theorem length_encodeHeader (first : UInt8) (length : Nat) :
    (encodeHeader first length).length = (LengthForm.shortest length).width + 2 := by
  simp [encodeHeader]

private theorem eq_of_ofNat_eq {a b : Nat} (ha : a < 128) (hb : b < 128)
    (h : UInt8.ofNat a = UInt8.ofNat b) : a = b := by
  have htoNat := congrArg UInt8.toNat h
  rw [UInt8.toNat_ofNat', UInt8.toNat_ofNat'] at htoNat
  omega

/-- A header is known from its own bytes: none is the beginning of another. -/
theorem eq_of_encodeHeader_isPrefix {first first' : UInt8} {length length' : Nat}
    (h : length < UInt64.size) (h' : length' < UInt64.size)
    (hbegins : encodeHeader first length <+: encodeHeader first' length') :
    first' = first ∧ length' = length := by
  have hfits := LengthForm.lt_bound_shortest h
  have hfits' := LengthForm.lt_bound_shortest h'
  obtain ⟨hfirst, hbegins⟩ := List.cons_prefix_cons.mp hbegins
  obtain ⟨hsecond, hdigits⟩ := List.cons_prefix_cons.mp hbegins
  have hcode := eq_of_ofNat_eq (LengthForm.code_lt hfits) (LengthForm.code_lt hfits') hsecond
  have hform : LengthForm.shortest length = LengthForm.shortest length' := by
    rw [← LengthForm.ofCode_code hfits, hcode, LengthForm.ofCode_code hfits']
  have hextension := hdigits.eq_of_length (by simp only [LengthForm.length_extension, hform])
  refine ⟨hfirst.symm, ?_⟩
  rw [← LengthForm.value_extension hfits, ← LengthForm.value_extension hfits', hcode, hextension,
    hform]

/-! ## Frames on such headers -/

namespace ClientFrame

/-- A frame on the header that a server would write, with the mask bit set; the form that the frame
names is not used. -/
def posted (f : ClientFrame) : List UInt8 :=
  withMaskBit (encodeHeader f.wire.first f.payload.length) ++ f.key.toList ++
    Mask.apply { key := f.key } f.payload

/-- The same frame with its length in the shortest form. -/
def shortened (f : ClientFrame) : ClientFrame :=
  { f with form := .shortest f.payload.length }

theorem encode_shortened {f : ClientFrame} (h : f.payload.length < UInt64.size) :
    f.shortened.encode = f.posted := by
  rw [posted, withMaskBit_encodeHeader _ h]
  rfl

theorem readable_shortened {f : ClientFrame} (hclose : f.opcode ≠ .close)
    (h : f.payload.length < UInt64.size) : f.shortened.Readable :=
  ⟨hclose, LengthForm.lt_bound_shortest h⟩

end ClientFrame

namespace FrameReader

private theorem decode_frames {frames : List ClientFrame} (h : ∀ f ∈ frames, f.Readable) :
    let progress := header.decode (({} : Channel).receive (frames.flatMap ClientFrame.encode))
    progress.reader = header ∧ progress.verdict = .pending ∧ progress.channel.inbox.bytes = [] ∧
      (({} : ByteQueue).appendAll progress.delivered).toList = frames.flatMap ClientFrame.data ∧
      progress.channel.outgoing.toList =
        (frames.flatMap ClientFrame.replies).flatMap ServerFrame.bytes := by
  have hend : header.outcome [] = header.waiting [] := outcome_header_of_lt (by decide)
  have hout := outcome_frames h []
  rw [List.append_nil, hend] at hout
  simp only [outcome, waiting, Outcome.ext_iff, Outcome.after, Effect.append_empty, Effect.ext_iff,
    ClientFrame.effect] at hout
  obtain ⟨hreader, hunread, hverdict, hdata, houtput, -⟩ := hout
  rw [Channel.receive_fresh]
  refine ⟨hreader, hverdict, hunread, ?_, houtput⟩
  rw [ByteQueue.valid_empty.toList_appendAll]
  exact hdata

/-! ## One the inverse of the other -/

/-- What a header is, on its own, to a reader, and among all headers: it begins with the first byte
and is not masked; with the mask bit set, exactly its bytes are taken and its length comes of them;
no other bytes of which the length comes are fewer; and it does not begin another header. -/
structure Announcing (first : UInt8) (length : UInt64) (h : List UInt8) : Prop where
  layout : ∃ second digits, h = first :: second :: digits ∧ second &&& 0x80 = 0
  read : first.toNat % 16 ∈ [0, 1, 2, 9, 10] →
    ∃ purpose, purposeOf? first = some purpose ∧
      ∀ behind sent purpose' length' rest,
        header.Announces (.holding (withMaskBit h ++ behind) sent) purpose' length' rest ↔
          purpose' = purpose ∧ length' = length.toNat ∧ rest = .holding behind sent
  fewest : ∀ bytes behind sent purpose,
    header.Announces (.holding (bytes ++ behind) sent) purpose length.toNat (.holding behind sent) →
      h.length ≤ bytes.length
  apart : ∀ first' length', h <+: encodeHeader first' (UInt64.toNat length') →
    first' = first ∧ length' = length

private theorem and_maskBit : ∀ n < 128, UInt8.ofNat n &&& 0x80 = 0 := by
  decide

private theorem exists_purposeOf {first : UInt8} (h : first.toNat % 16 ∈ [0, 1, 2, 9, 10]) :
    ∃ purpose, purposeOf? first = some purpose := by
  have hcodes : ∀ code ∈ [0, 1, 2, 9, 10],
      ((Opcode.ofNat? code).bind Opcode.purpose?).isSome = true := by
    decide
  exact Option.isSome_iff_exists.mp (hcodes _ h)

theorem announcing_encodeHeader (first : UInt8) (length : UInt64) :
    Announcing first length (encodeHeader first length.toNat) := by
  have hlength := length.toNat_lt
  have hfits := LengthForm.lt_bound_shortest hlength
  constructor
  · exact ⟨_, _, rfl, and_maskBit _ (LengthForm.code_lt hfits)⟩
  · intro hnibble
    obtain ⟨purpose, hpurpose⟩ := exists_purposeOf hnibble
    refine ⟨purpose, hpurpose, ?_⟩
    intro behind sent purpose' length' rest
    have hannounces : header.Announces
        (.holding (withMaskBit (encodeHeader first length.toNat) ++ behind) sent) purpose
          length.toNat (.holding behind sent) := by
      rw [withMaskBit_encodeHeader first hlength]
      exact announces_header_iff.mpr ⟨first, _, behind, hpurpose, hfits, rfl, rfl⟩
    constructor
    · intro h
      exact hannounces.unique h
    · rintro ⟨rfl, rfl, rfl⟩
      exact hannounces
  · intro bytes behind sent purpose hannounces
    obtain ⟨first', form, behind', -, hform, hbytes, hrest⟩ := announces_header_iff.mp hannounces
    have hbehind : behind' = behind := by
      have := congrArg (fun ch : Channel => ch.inbox.bytes) hrest
      exact this.symm
    have hle := LengthForm.width_shortest_le hform
    have hsizes := congrArg List.length hbytes
    simp only [List.length_append, List.length_cons, LengthForm.length_extension, hbehind] at hsizes
    rw [length_encodeHeader]
    omega
  · intro first' length' hbegins
    obtain ⟨hfirst, htoNat⟩ := eq_of_encodeHeader_isPrefix hlength length'.toNat_lt hbegins
    exact ⟨hfirst, UInt64.toNat_inj.mp htoNat⟩

/-- Headers are written as they are read, in as few bytes as can be; and a row of frames that are
built on them is read to its end, with the data of all of them and an answer to each ping. -/
theorem headers_inverse :
    (∀ (buffer : Array UInt8) (first : UInt8) (length : UInt64),
      ∃ h, (putHeader buffer first length).toList = buffer.toList ++ h ∧
        h = encodeHeader first length.toNat ∧ Announcing first length h) ∧
      ∀ frames : List ClientFrame,
        (∀ f ∈ frames, f.opcode ≠ .close ∧ f.payload.length < UInt64.size) →
          let progress := header.decode (({} : Channel).receive (frames.flatMap ClientFrame.posted))
          progress.reader = header ∧ progress.verdict = .pending ∧
            progress.channel.inbox.bytes = [] ∧
            (({} : ByteQueue).appendAll progress.delivered).toList =
              frames.flatMap ClientFrame.data ∧
            progress.channel.outgoing.toList =
              (frames.flatMap ClientFrame.replies).flatMap ServerFrame.bytes := by
  constructor
  · intro buffer first length
    exact ⟨_, toList_putHeader buffer first length, rfl, announcing_encodeHeader first length⟩
  · intro frames h
    have hreadable : ∀ f ∈ frames.map ClientFrame.shortened, f.Readable := by
      intro g hg
      obtain ⟨f, hf, rfl⟩ := List.mem_map.mp hg
      exact ClientFrame.readable_shortened (h f hf).1 (h f hf).2
    have hbytes : frames.flatMap ClientFrame.posted =
        (frames.map ClientFrame.shortened).flatMap ClientFrame.encode := by
      rw [List.flatMap_map]
      apply List.flatMap_congr
      intro f hf
      exact (ClientFrame.encode_shortened (h f hf).2).symm
    have hread := decode_frames hreadable
    rw [← hbytes, List.flatMap_map, List.flatMap_map] at hread
    exact hread

/-- A text, a ping, and a continuation whose length takes two bytes. -/
theorem headers_inverse_ping :
    let frames : List ClientFrame :=
      [{ flags := 0, opcode := .text, form := .short, key := #v[1, 2, 3, 4], payload := [0x48, 0x69] },
        { flags := 8, opcode := .ping, form := .short, key := #v[5, 6, 7, 8], payload := [0x78] },
        { flags := 8, opcode := .continuation, form := .short, key := #v[9, 9, 9, 9]
          payload := List.replicate 126 0x2A }]
    let progress := header.decode (({} : Channel).receive (frames.flatMap ClientFrame.posted))
    (∀ f ∈ frames, f.opcode ≠ .close ∧ f.payload.length < UInt64.size) ∧
      progress.reader = header ∧
      (({} : ByteQueue).appendAll progress.delivered).toList =
        [0x48, 0x69] ++ List.replicate 126 0x2A ∧
      progress.channel.outgoing.toList = [0x8A, 0x01, 0x78] := by
  intro frames progress
  have hfits : ∀ f ∈ frames, f.opcode ≠ .close ∧ f.payload.length < UInt64.size := by
    decide +kernel
  obtain ⟨hreader, -, -, hdata, houtput⟩ := headers_inverse.2 frames hfits
  exact ⟨hfits, hreader, hdata, houtput⟩

end FrameReader

end WebSocket
