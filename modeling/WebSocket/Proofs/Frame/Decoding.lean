import WebSocket.ByteQueue
import WebSocket.Proofs.Frame.Grammar
import WebSocket.Proofs.Frame.Resumption

/-!
# What a stream of frames comes to

Reading a stream takes in all the frames at its front, one after another, and then does what the
tail calls for: it waits in the middle of a frame, answers a close frame, or refuses a header.
-/

namespace WebSocket

theorem Mask.apply_take (m : Mask) (payload : List UInt8) (n : Nat) :
    m.apply (payload.take n) = (m.apply payload).take n := by
  have h := m.apply_append (payload.take n) (payload.drop n)
  rw [List.take_append_drop] at h
  by_cases hn : n ≤ payload.length
  · have hlen : (m.apply (payload.take n)).length = n := by
      rw [Mask.length_apply, List.length_take_of_le hn]
    rw [h, List.take_left' hlen]
  · rw [List.take_of_length_le (by omega), List.take_of_length_le]
    rw [Mask.length_apply]
    omega

namespace ClientFrame

/-- What becomes of the payload, by the low four bits of the first byte. -/
def purpose (f : ClientFrame) : Purpose :=
  if f.opcode.toNat = 9 then .ping else if f.opcode.toNat = 10 then .pong else .data

/-- The application data that a frame brings. -/
def data (f : ClientFrame) : List UInt8 :=
  if f.opcode.toNat ∈ [0, 1, 2] then f.payload else []

/-- What a server sends in return for a frame that it has read: one pong for a ping. -/
def replies (f : ClientFrame) : List ServerFrame :=
  if f.opcode.toNat = 9 then [.pong f.payload] else []

def notices (f : ClientFrame) : List Notice :=
  [.frameReceived f.opcode, .payloadAnnounced f.payload.length] ++
    if f.opcode.toNat = 9 then [.pongSent f.payload.length] else []

/-- What reading a row of frames does. -/
def effect (frames : List ClientFrame) : Effect where
  data := frames.flatMap data
  output := (frames.flatMap replies).flatMap ServerFrame.bytes
  notices := frames.flatMap notices

theorem effect_append (a b : List ClientFrame) : effect (a ++ b) = effect a ++ effect b := by
  ext1 <;> simp [effect]

theorem purpose?_eq {f : ClientFrame} (h : f.opcode ≠ .close) :
    f.opcode.purpose? = some f.purpose := by
  unfold purpose
  cases hop : f.opcode with
  | close => exact absurd hop h
  | continuation | text | binary | ping | pong => rfl

/-- Where a reader stands after the first `n` bytes of a frame, of which there are two or more. -/
def reached (f : ClientFrame) (n : Nat) : Outcome FrameReader FrameReader.Verdict :=
  let start := f.header.length
  let got := n - (start + 4)
  if n < start then
    { state := if f.form = .twoBytes then .length16 f.purpose else .length64 f.purpose
      unread := (f.encode.take n).drop 2
      verdict := .pending
      effect := { notices := [.frameReceived f.opcode] } }
  else if n < start + 4 then
    { state := .maskKey f.purpose f.payload.length
      unread := (f.encode.take n).drop start
      verdict := .pending
      effect := { notices := [.frameReceived f.opcode] } }
  else
    { state :=
        .payload
          { purpose := f.purpose
            remaining := f.payload.length - got
            mask := { key := f.key, index := if f.purpose = .pong then 0 else Fin.ofNat 4 got }
            echo := if f.purpose = .ping then (f.payload.take got).toArray else #[] }
      unread := []
      verdict := .pending
      effect :=
        { data := f.data.take got
          notices := [.frameReceived f.opcode, .payloadAnnounced f.payload.length] } }

/-- In the middle of a frame a reader waits, and has sent nothing for it. -/
theorem reached_pending (f : ClientFrame) (n : Nat) :
    (f.reached n).verdict = .pending ∧ (f.reached n).effect.output = [] := by
  unfold reached
  dsimp only
  split
  · exact ⟨rfl, rfl⟩
  · split <;> exact ⟨rfl, rfl⟩

end ClientFrame

namespace FrameReader

/-- What reading comes to at a tail that does not begin with a whole frame. -/
inductive Ends : List UInt8 → Outcome FrameReader Verdict → Prop where
  | short {tail : List UInt8} (h : tail.length ≤ 1) :
      Ends tail { state := header, unread := tail, verdict := .pending }
  | inside {f : ClientFrame} {n : Nat} (hf : f.Readable) (htwo : 2 ≤ n)
      (hn : n < f.encode.length) : Ends (f.encode.take n) (f.reached n)
  | close {first : UInt8} (h : first.toNat % 16 = 8) (second : UInt8) (rest : List UInt8) :
      Ends (first :: second :: rest)
        { state := closed, unread := rest, verdict := .closed
          effect := { output := [0x88, 0x00], notices := [.frameReceived .close, .closeReceived] } }
  | unknown {first : UInt8} (h : first.toNat % 16 ∉ [0, 1, 2, 8, 9, 10]) (second : UInt8)
      (rest : List UInt8) :
      Ends (first :: second :: rest)
        { state := header, unread := rest
          verdict := .fault (.unknownOpcode (first.toNat % 16)) }
  | unmasked {first second : UInt8} {opcode : Opcode} (h : first.toNat % 16 = opcode.toNat)
      (hclose : opcode ≠ .close) (hmask : second.toNat < 128) (rest : List UInt8) :
      Ends (first :: second :: rest)
        { state := header, unread := rest, verdict := .fault .unmasked
          effect := { notices := [.frameReceived opcode] } }

/-! ## Whole frames -/

private theorem outcome_first {f : ClientFrame} {purpose : Purpose} (hfits : f.Fits)
    (hpurpose : f.opcode.purpose? = some purpose) (rest : List UInt8) :
    header.outcome (f.wire.first :: UInt8.ofNat (128 + f.form.code f.payload.length) :: rest) =
      ((afterHeader purpose (f.form.code f.payload.length)).outcome rest).after
        { notices := [.frameReceived f.opcode] } := by
  have hcode := LengthForm.code_lt hfits
  have hsecond := ClientFrame.toNat_second hfits
  have hmod : (128 + f.form.code f.payload.length) % 128 = f.form.code f.payload.length := by
    omega
  rw [outcome_header_masked f.ofByte?_first hpurpose (by rw [hsecond]; omega), hsecond, hmod]

private theorem outcome_extension {form : LengthForm} {length : Nat} (h : length < form.bound)
    (purpose : Purpose) (rest : List UInt8) :
    (afterHeader purpose (form.code length)).outcome (form.extension length ++ rest) =
      (maskKey purpose length).outcome rest := by
  rw [afterHeader, LengthForm.ofCode_code h]
  cases form with
  | short => rfl
  | twoBytes =>
    have hvalue : BigEndian.value (BigEndian.bytes 2 length) = length :=
      BigEndian.value_bytes_of_lt h
    have hlen : (BigEndian.bytes 2 length).toArray.size = 2 := by simp
    have hread := outcome_length16 purpose ⟨(BigEndian.bytes 2 length).toArray, hlen⟩ rest
    simp only [Vector.toList, hvalue] at hread
    exact hread
  | eightBytes =>
    have hvalue : BigEndian.value (BigEndian.bytes 8 length) = length :=
      BigEndian.value_bytes_of_lt h
    have hlen : (BigEndian.bytes 8 length).toArray.size = 8 := by simp
    have hread := outcome_length64 purpose ⟨(BigEndian.bytes 8 length).toArray, hlen⟩ rest
    simp only [Vector.toList, hvalue] at hread
    exact hread

/-- The state in which the payload of a frame begins. -/
private def start (f : ClientFrame) (purpose : Purpose) : PartialPayload :=
  { purpose, remaining := f.payload.length, mask := { key := f.key } }

private theorem outcome_prelude {f : ClientFrame} {purpose : Purpose} (hfits : f.Fits)
    (hpurpose : f.opcode.purpose? = some purpose) (rest : List UInt8) :
    header.outcome (f.header ++ (f.key.toList ++ rest)) =
      ((payload (start f purpose)).outcome rest).after
        { notices := [.frameReceived f.opcode, .payloadAnnounced f.payload.length] } := by
  rw [f.header_eq, List.cons_append, List.cons_append, outcome_first hfits hpurpose,
    outcome_extension hfits, outcome_maskKey, Outcome.after_after]
  rfl

private theorem outcome_frame {f : ClientFrame} (hf : f.Readable) (rest : List UInt8) :
    header.outcome (f.encode ++ rest) = (header.outcome rest).after (ClientFrame.effect [f]) := by
  have hlen : (Mask.apply { key := f.key } f.payload).length ≤ (start f f.purpose).remaining := by
    simp [start]
  have hzero :
      ((start f f.purpose).absorb (Mask.apply { key := f.key } f.payload)).remaining = 0 := by
    simp [PartialPayload.absorb, start]
  rw [ClientFrame.encode, List.append_assoc, List.append_assoc,
    outcome_prelude hf.2 (ClientFrame.purpose?_eq hf.1), outcome_payload_append hlen,
    outcome_payload_zero hzero, Outcome.after_after, Outcome.after_after]
  congr 1
  unfold ClientFrame.effect ClientFrame.data ClientFrame.replies ClientFrame.notices
    ClientFrame.purpose
  cases hop : f.opcode with
  | close => exact absurd hop hf.1
  | continuation | text | binary | ping | pong =>
    simp [hop, Opcode.toNat, PartialPayload.yield, PartialPayload.absorb, start, conclusion,
      ServerFrame.bytes_eq_encode, Effect.ext_iff]

theorem outcome_frames {frames : List ClientFrame} (h : ∀ f ∈ frames, f.Readable)
    (rest : List UInt8) :
    header.outcome (frames.flatMap ClientFrame.encode ++ rest) =
      (header.outcome rest).after (ClientFrame.effect frames) := by
  induction frames with
  | nil => rfl
  | cons f frames ih =>
    obtain ⟨hf, hframes⟩ := List.forall_mem_cons.mp h
    rw [List.flatMap_cons, List.append_assoc, outcome_frame hf, ih hframes, Outcome.after_after,
      ← ClientFrame.effect_append]
    rfl

/-! ## The tail -/

private theorem outcome_inside_length {f : ClientFrame} (hf : f.Readable) {digits : List UInt8}
    (h : digits.length < f.form.width) :
    header.outcome (f.wire.first :: UInt8.ofNat (128 + f.form.code f.payload.length) :: digits) =
      { state := if f.form = .twoBytes then .length16 f.purpose else .length64 f.purpose
        unread := digits, verdict := .pending
        effect := { notices := [.frameReceived f.opcode] } } := by
  rw [outcome_first hf.2 (ClientFrame.purpose?_eq hf.1), afterHeader, LengthForm.ofCode_code hf.2]
  cases hform : f.form with
  | short =>
    rw [hform] at h
    exact absurd h (Nat.not_lt_zero _)
  | twoBytes =>
    rw [hform] at h
    simp only [outcome_length16_of_lt h]
    rfl
  | eightBytes =>
    rw [hform] at h
    simp only [outcome_length64_of_lt h]
    rfl

private theorem outcome_inside_key {f : ClientFrame} (hf : f.Readable) {key : List UInt8}
    (h : key.length < 4) :
    header.outcome (f.header ++ key) =
      { state := maskKey f.purpose f.payload.length, unread := key, verdict := .pending
        effect := { notices := [.frameReceived f.opcode] } } := by
  rw [f.header_eq, List.cons_append, List.cons_append,
    outcome_first hf.2 (ClientFrame.purpose?_eq hf.1), outcome_extension hf.2,
    outcome_maskKey_of_lt h]
  rfl

private theorem outcome_inside_payload {f : ClientFrame} {got : Nat} (hf : f.Readable)
    (h : got < f.payload.length) :
    header.outcome
        (f.header ++ (f.key.toList ++ Mask.apply { key := f.key } (f.payload.take got))) =
      { state :=
          payload
            { purpose := f.purpose
              remaining := f.payload.length - got
              mask := { key := f.key, index := if f.purpose = .pong then 0 else Fin.ofNat 4 got }
              echo := if f.purpose = .ping then (f.payload.take got).toArray else #[] }
        unread := []
        verdict := .pending
        effect :=
          { data := f.data.take got
            notices := [.frameReceived f.opcode, .payloadAnnounced f.payload.length] } } := by
  have hlen : (Mask.apply { key := f.key } (f.payload.take got)).length = got := by
    rw [Mask.length_apply, List.length_take_of_le (Nat.le_of_lt h)]
  have hle : (Mask.apply { key := f.key } (f.payload.take got)).length ≤
      (start f f.purpose).remaining := by
    rw [hlen]
    exact Nat.le_of_lt h
  have hrest : ((start f f.purpose).absorb
      (Mask.apply { key := f.key } (f.payload.take got))).remaining ≠ 0 := by
    simp only [PartialPayload.absorb, start, hlen]
    omega
  have hread := outcome_payload_append hle []
  rw [List.append_nil, outcome_payload_nil hrest] at hread
  rw [outcome_prelude hf.2 (ClientFrame.purpose?_eq hf.1), hread, Outcome.after_after]
  unfold ClientFrame.data ClientFrame.purpose
  cases hop : f.opcode with
  | close => exact absurd hop hf.1
  | continuation | text | binary | ping | pong =>
    simp [Opcode.toNat, waiting, Outcome.after, PartialPayload.absorb, PartialPayload.yield, start,
      hlen, Mask.advance, Effect.ext_iff]

private theorem outcome_inside {f : ClientFrame} {n : Nat} (hf : f.Readable) (htwo : 2 ≤ n)
    (hn : n < f.encode.length) : header.outcome (f.encode.take n) = f.reached n := by
  have hheader := f.length_header
  have hkey : f.key.toList.length = 4 := by simp
  have hencode : f.encode =
      f.header ++ (f.key.toList ++ Mask.apply { key := f.key } f.payload) := by
    rw [ClientFrame.encode, List.append_assoc]
  have hlength : n < f.header.length + 4 + f.payload.length := f.length_encode ▸ hn
  unfold ClientFrame.reached
  dsimp only
  by_cases hext : n < f.header.length
  · obtain ⟨k, rfl⟩ : ∃ k, n = k + 2 := ⟨n - 2, by omega⟩
    have htake : f.encode.take (k + 2) = f.wire.first ::
        UInt8.ofNat (128 + f.form.code f.payload.length) ::
          (f.form.extension f.payload.length).take k := by
      rw [hencode, List.take_append_of_le_length (by omega), f.header_eq]
      rfl
    have hk : ((f.form.extension f.payload.length).take k).length < f.form.width := by
      rw [List.length_take]
      omega
    rw [if_pos hext, htake, outcome_inside_length hf hk]
    rfl
  rw [if_neg hext]
  by_cases hmask : n < f.header.length + 4
  · have htake : f.encode.take n = f.header ++ f.key.toList.take (n - f.header.length) := by
      rw [hencode, List.take_append, List.take_of_length_le (by omega),
        List.take_append_of_le_length (by omega)]
    have hk : (f.key.toList.take (n - f.header.length)).length < 4 := by
      rw [List.length_take]
      omega
    rw [if_pos hmask, htake, outcome_inside_key hf hk, List.drop_left]
  · have htake : f.encode.take n = f.header ++ (f.key.toList ++
        Mask.apply { key := f.key } (f.payload.take (n - (f.header.length + 4)))) := by
      rw [hencode, List.take_append, List.take_of_length_le (by omega), List.take_append,
        List.take_of_length_le (by omega), Mask.apply_take, hkey, Nat.sub_sub]
    rw [if_neg hmask, htake, outcome_inside_payload hf (by omega)]

theorem outcome_of_ends {tail : List UInt8} {o : Outcome FrameReader Verdict} (h : Ends tail o) :
    header.outcome tail = o := by
  cases h with
  | short h => exact outcome_header_of_lt (by omega)
  | inside hf htwo hn => exact outcome_inside hf htwo hn
  | @close first h second rest =>
    have hop : Opcode.ofByte? first = some .close := Opcode.ofByte?_eq_some_iff.mpr h
    rw [outcome_header_close hop rfl second rest, ← ServerFrame.bytes_eq_encode]
    rfl
  | unknown h second rest =>
    exact outcome_header_unknown (Opcode.ofByte?_eq_none_iff.mpr h) second rest
  | unmasked h hclose hmask rest =>
    obtain ⟨purpose, hpurpose⟩ :=
      Option.ne_none_iff_exists'.mp (mt Opcode.purpose?_eq_none_iff.mp hclose)
    exact outcome_header_unmasked (Opcode.ofByte?_eq_some_iff.mpr h) hpurpose hmask rest

private theorem not_ends_of_frame {f : ClientFrame} (hf : f.Readable) (rest : List UInt8)
    (o : Outcome FrameReader Verdict) : ¬ Ends (f.encode ++ rest) o := by
  intro h
  generalize hbytes : f.encode ++ rest = bytes at h
  have hbegin : f.wire.first :: UInt8.ofNat (128 + f.form.code f.payload.length) ::
      (f.form.extension f.payload.length ++ f.key.toList ++
        Mask.apply { key := f.key } f.payload ++ rest) = bytes := hbytes
  cases h with
  | short h =>
    rw [← hbegin] at h
    simp at h
  | @inside g n hg _ hn =>
    -- Both frames stand at the front of `g`, so they are the same, and `n` bytes are too few.
    have hwhole : f.encode ++ (rest ++ g.encode.drop n) = g.encode ++ [] := by
      rw [← List.append_assoc, hbytes, List.take_append_drop, List.append_nil]
    have hsame := ClientFrame.next?_encode_append hf (rest ++ g.encode.drop n)
    rw [hwhole, ClientFrame.next?_encode_append hg] at hsame
    have hnil : [] = rest ++ g.encode.drop n := congrArg Prod.snd (Option.some.inj hsame)
    have hdrop := (List.append_eq_nil_iff.mp hnil.symm).2
    rw [List.drop_eq_nil_iff] at hdrop
    omega
  | close h =>
    cases hbegin
    have hclose : Opcode.ofByte? f.wire.first = some .close := Opcode.ofByte?_eq_some_iff.mpr h
    rw [f.ofByte?_first] at hclose
    exact hf.1 (Option.some.inj hclose)
  | unknown h =>
    cases hbegin
    have hunknown := Opcode.ofByte?_eq_none_iff.mpr h
    rw [f.ofByte?_first] at hunknown
    cases hunknown
  | unmasked _ _ hmask =>
    cases hbegin
    rw [ClientFrame.toNat_second hf.2] at hmask
    omega

private theorem exists_ends_of_next? {tail : List UInt8} (h : ClientFrame.next? tail = none) :
    ∃ o, Ends tail o := by
  match tail with
  | [] => exact ⟨_, .short (by simp)⟩
  | [_] => exact ⟨_, .short (by simp)⟩
  | first :: second :: rest =>
    cases hop : Opcode.ofByte? first with
    | none => exact ⟨_, .unknown (Opcode.ofByte?_eq_none_iff.mp hop) second rest⟩
    | some opcode =>
      have hnibble := Opcode.ofByte?_eq_some_iff.mp hop
      by_cases hclose : opcode = .close
      · rw [hclose] at hnibble
        exact ⟨_, .close hnibble second rest⟩
      by_cases hmask : second.toNat < 128
      · exact ⟨_, .unmasked hnibble hclose hmask rest⟩
      -- The header announces a frame, which is not whole.
      obtain ⟨f, hf, hbegin⟩ :=
        ClientFrame.exists_frame_of_header hop hclose (Nat.le_of_not_lt hmask) rest
      have hwhole : ¬ f.encode <+: first :: second :: rest := by
        intro hprefix
        obtain ⟨more, hmore⟩ := hprefix
        rw [← hmore, ClientFrame.next?_encode_append hf] at h
        cases h
      have htake := List.prefix_iff_eq_take.mp (hbegin.resolve_right hwhole)
      have hlen : (first :: second :: rest).length < f.encode.length := by
        apply Nat.lt_of_not_le
        intro hle
        rw [List.take_of_length_le hle] at htake
        exact hwhole ⟨[], by rw [htake, List.append_nil]⟩
      rw [htake]
      exact ⟨_, .inside hf (by simp) hlen⟩

/-- A tail does not begin with a frame exactly when it is one of those at which reading ends. -/
theorem exists_ends_iff {tail : List UInt8} :
    (∃ o, Ends tail o) ↔ ClientFrame.next? tail = none := by
  constructor
  · intro hends
    obtain ⟨o, h⟩ := hends
    rw [Option.eq_none_iff_forall_ne_some]
    intro found hnext
    obtain ⟨f, rest⟩ := found
    obtain ⟨hf, rfl⟩ := ClientFrame.grammar.next?_eq_some_iff.mp hnext
    exact not_ends_of_frame hf rest o h
  · exact exists_ends_of_next?

/-- A stream is a row of whole frames and a tail at which reading ends. -/
structure Divides (stream : List UInt8) (frames : List ClientFrame) (tail : List UInt8)
    (ending : Outcome FrameReader Verdict) : Prop where
  readable : ∀ f ∈ frames, f.Readable
  bytes : stream = frames.flatMap ClientFrame.encode ++ tail
  ends : Ends tail ending

theorem Divides.split {stream tail : List UInt8} {frames : List ClientFrame}
    {ending : Outcome FrameReader Verdict} (h : Divides stream frames tail ending) :
    ClientFrame.grammar.split stream = (frames, tail) :=
  Grammar.split_eq_iff.mpr ⟨h.readable, h.bytes, exists_ends_iff.mp ⟨ending, h.ends⟩⟩

theorem Divides.outcome {stream tail : List UInt8} {frames : List ClientFrame}
    {ending : Outcome FrameReader Verdict} (h : Divides stream frames tail ending) :
    header.outcome stream = ending.after (ClientFrame.effect frames) := by
  rw [h.bytes, outcome_frames h.readable, outcome_of_ends h.ends]

theorem exists_divides (stream : List UInt8) :
    ∃ ending, Divides stream (ClientFrame.grammar.split stream).1
      (ClientFrame.grammar.split stream).2 ending := by
  obtain ⟨ending, hends⟩ := exists_ends_iff.mpr (ClientFrame.grammar.next?_split stream)
  exact ⟨ending, ClientFrame.grammar.forall_mem_split stream,
    ClientFrame.grammar.eq_append_split stream, hends⟩

/-- Every stream divides into frames and a tail in one way. Reading it delivers the data of the
frames in order, answers the pings among them, and then does what the tail calls for. -/
theorem decode_stream (stream : List UInt8) :
    ∃ frames tail ending,
      Divides stream frames tail ending ∧
        (∀ frames' tail' ending', Divides stream frames' tail' ending' →
          frames' = frames ∧ tail' = tail ∧ ending' = ending) ∧
        let progress := header.decode (({} : Channel).receive stream)
        (({} : ByteQueue).appendAll progress.delivered).toList =
            frames.flatMap ClientFrame.data ++ ending.effect.data ∧
          progress.channel.outgoing.toList =
            (frames.flatMap ClientFrame.replies).flatMap ServerFrame.bytes ++
              ending.effect.output ∧
          progress.trace.notices.toList =
            frames.flatMap ClientFrame.notices ++ ending.effect.notices ∧
          progress.channel.inbox.bytes = ending.unread ∧
          progress.reader = ending.state ∧
          progress.verdict = ending.verdict := by
  obtain ⟨ending, h⟩ := exists_divides stream
  refine ⟨_, _, ending, h, ?_, ?_⟩
  · intro frames' tail' ending' h'
    have hsplit := h'.split
    have hframes : frames' = (ClientFrame.grammar.split stream).1 := by rw [hsplit]
    have htail : tail' = (ClientFrame.grammar.split stream).2 := by rw [hsplit]
    refine ⟨hframes, htail, ?_⟩
    rw [← outcome_of_ends h'.ends, ← outcome_of_ends h.ends, htail]
  · have hout := h.outcome
    rw [Channel.receive_fresh]
    simp only [outcome, Outcome.ext_iff, Outcome.after, Effect.ext_iff, Effect.data_append,
      Effect.output_append, Effect.notices_append, ClientFrame.effect] at hout
    obtain ⟨hreader, hunread, hverdict, hdata, houtput, hnotices⟩ := hout
    refine ⟨?_, houtput, hnotices, hunread, hreader, hverdict⟩
    rw [ByteQueue.valid_empty.toList_appendAll]
    exact hdata

end FrameReader

end WebSocket
