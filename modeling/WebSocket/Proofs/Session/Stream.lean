import WebSocket.Proofs.Frame.Decoding
import WebSocket.Proofs.Handshake.Request
import WebSocket.Proofs.Session.Outcome

/-!
# What is said in return for a stream

What a fresh session sends for the bytes that are fed to it can be told from the bytes alone: a
response once the request is complete, and behind it the replies to the frames that follow.
-/

namespace WebSocket

/-- The key that the request is answered with and the lines behind the request, if it is complete
and all its keys have the right length; `first` is the key found so far. -/
def openingLines (first : Option (List UInt8)) :
    List (List UInt8) → Option (List UInt8 × List (List UInt8))
  | [] => none
  | line :: lines =>
    if line = [0x0D, 0x0A] then first.map fun key => (key, lines)
    else if IsKeyLine line then
      let key := Ascii.trim (line.drop 18)
      if key.length = 24 then openingLines (first.or (some key)) lines else none
    else openingLines first lines

/-- The key that a request is answered with and the bytes behind the request. -/
def opening? (bytes : List UInt8) : Option (List UInt8 × List UInt8) :=
  let (lines, tail) := lineGrammar.split bytes
  (openingLines none lines).map fun (key, after) => (key, after.flatten ++ tail)

/-- A close frame at the front of the bytes is answered in kind. -/
def closing : List UInt8 → List ServerFrame
  | first :: _ :: _ => if first.toNat % 16 = 8 then [.close] else []
  | _ => []

/-- The frames sent in return for a stream of frames. -/
def answers (stream : List UInt8) : List ServerFrame :=
  let (frames, tail) := ClientFrame.grammar.split stream
  frames.flatMap ClientFrame.replies ++ closing tail

/-- The frames sent in return for all that has been fed. -/
def replies (fed : List UInt8) : List ServerFrame :=
  match opening? fed with
  | none => []
  | some (_, stream) => answers stream

/-- The close frame of a session that is closed. -/
def farewell (status : Status) : List ServerFrame :=
  if status = .closed then [.close] else []

/-- The bytes of a server that was fed `fed` and sent these frames. -/
def spoken (fed : List UInt8) (frames : List ServerFrame) : List UInt8 :=
  match opening? fed with
  | none => []
  | some (key, _) =>
    (Response.text (acceptKey key)).toUTF8.data.toList ++ frames.flatMap ServerFrame.bytes

/-! ## The opening -/

theorem opening?_nil : opening? [] = none := by
  rw [opening?, Grammar.split_of_none (lineGrammar_next?_eq_none_iff.mpr List.not_mem_nil)]
  rfl

private theorem openingLines_passed {lines keys : List (List UInt8)} (h : Passed lines keys)
    (first : Option (List UInt8)) (rest : List (List UInt8)) :
    openingLines first (lines ++ rest) = openingLines (first.or keys.head?) rest := by
  induction h generalizing first with
  | nil => simp
  | other hend hlabel _ ih =>
    rw [List.cons_append, openingLines, if_neg hend, if_neg hlabel, ih]
  | @key line key lines keys hkey hlen _ ih =>
    have hvalue := Ascii.isCore_iff.mp hkey.value
    rw [List.cons_append, openingLines, if_neg hkey.label.ne_lineEnd, if_pos hkey.label]
    dsimp only
    rw [← hvalue, if_pos hlen, ih]
    cases first <;> rfl

/-- The bytes begin with a request that is answered with this key. -/
def Opens (bytes key stream : List UInt8) : Prop :=
  ∃ lines keys, (∀ line ∈ lines, IsLine line) ∧ Passed lines (key :: keys) ∧
    bytes = (lines ++ [[0x0D, 0x0A]]).flatten ++ stream

private theorem isLine_lineEnd : IsLine [0x0D, 0x0A] :=
  ⟨[0x0D], by decide, rfl⟩

theorem opening?_of_opens {bytes key stream : List UInt8} (h : Opens bytes key stream) :
    opening? bytes = some (key, stream) := by
  obtain ⟨lines, keys, hlines, hpassed, rfl⟩ := h
  have hall : ∀ line ∈ lines ++ [[0x0D, 0x0A]], IsLine line :=
    List.forall_mem_append.mpr ⟨hlines, List.forall_mem_singleton.mpr isLine_lineEnd⟩
  have hopen : openingLines none (lines ++ [[0x0D, 0x0A]] ++ (lineGrammar.split stream).1) =
      some (key, (lineGrammar.split stream).1) := by
    rw [List.append_assoc, openingLines_passed hpassed]
    rfl
  rw [opening?, split_lines_append hall]
  dsimp only
  rw [hopen, Option.map_some, ← eq_flatten_split]

theorem Opens.outcome {bytes key stream : List UInt8} (h : Opens bytes key stream) :
    ∃ notices, Negotiation.outcome {} bytes =
      { state := { accept := some (acceptKey key) }, unread := stream, verdict := .done
        effect :=
          { output := (Response.text (acceptKey key)).toUTF8.data.toList, notices } } := by
  obtain ⟨lines, keys, hlines, hpassed, rfl⟩ := h
  have hall : ∀ line ∈ lines ++ [[0x0D, 0x0A]], IsLine line :=
    List.forall_mem_append.mpr ⟨hlines, List.forall_mem_singleton.mpr isLine_lineEnd⟩
  exact ⟨_, Negotiation.outcome_of_decided (.done hpassed []) (by simp) hall stream⟩

/-- A request that is not answered leaves nothing said. -/
theorem opens_or_silent (bytes : List UInt8) :
    (∃ key stream, Opens bytes key stream) ∨
      opening? bytes = none ∧ (Negotiation.outcome {} bytes).verdict ≠ .done ∧
        (Negotiation.outcome {} bytes).effect.output = [] := by
  obtain ⟨read, after, tail, o, h⟩ := Negotiation.exists_reads bytes
  have hopen : opening? bytes = (openingLines none (read ++ after)).map
      fun (key, after) => (key, after.flatten ++ tail) := by
    rw [opening?, h.split]
  obtain ⟨hread, -⟩ := List.forall_mem_append.mp h.lines
  rw [h.outcome, hopen]
  have hwhole := h.whole
  cases h.judged with
  | waits hpassed =>
    right
    rw [openingLines_passed hpassed]
    exact ⟨rfl, by simp [Outcome.leaving], rfl⟩
  | keyLength hpassed hkey hlen =>
    right
    have hvalue := Ascii.isCore_iff.mp hkey.value
    rw [List.append_assoc, openingLines_passed hpassed, List.singleton_append, openingLines,
      if_neg hkey.label.ne_lineEnd, if_pos hkey.label, ← hvalue, if_neg hlen]
    exact ⟨rfl, by simp [Outcome.leaving], rfl⟩
  | missingKey hpassed =>
    right
    rw [List.append_assoc, openingLines_passed hpassed]
    exact ⟨rfl, by simp [Outcome.leaving], rfl⟩
  | done hpassed =>
    left
    obtain ⟨hlines, -⟩ := List.forall_mem_append.mp hread
    refine ⟨_, after.flatten ++ tail, _, _, hlines, hpassed, ?_⟩
    rw [hwhole, List.flatten_append, List.append_assoc]

theorem opening?_eq_some_iff {bytes key stream : List UInt8} :
    opening? bytes = some (key, stream) ↔ Opens bytes key stream := by
  constructor
  · intro h
    rcases opens_or_silent bytes with ⟨key', stream', hopens⟩ | ⟨hnone, -⟩
    · rw [opening?_of_opens hopens] at h
      cases h
      exact hopens
    · rw [hnone] at h
      cases h
  · exact opening?_of_opens

/-- What comes behind a request does not change how it is answered. -/
theorem opening?_append {bytes key stream : List UInt8} (h : opening? bytes = some (key, stream))
    (more : List UInt8) : opening? (bytes ++ more) = some (key, stream ++ more) := by
  obtain ⟨lines, keys, hlines, hpassed, rfl⟩ := opening?_eq_some_iff.mp h
  exact opening?_of_opens ⟨lines, keys, hlines, hpassed, List.append_assoc _ _ _⟩

/-! ## The frames behind the opening -/

private theorem closing_of_ends {tail : List UInt8} {o : Outcome FrameReader FrameReader.Verdict}
    (h : FrameReader.Ends tail o) :
    o.effect.output = (closing tail).flatMap ServerFrame.bytes ∧
      (o.verdict = .closed ↔ .close ∈ closing tail) := by
  cases h with
  | @short tail h =>
    match tail with
    | [] | [_] => simp [closing]
  | @inside f n hf htwo hn =>
    obtain ⟨k, rfl⟩ : ∃ k, n = k + 2 := ⟨n - 2, by omega⟩
    have hnibble := Opcode.ofByte?_eq_some_iff.mp f.ofByte?_first
    have hnil : closing (f.encode.take (k + 2)) = [] := by
      rw [ClientFrame.encode, f.header_eq]
      simp [closing, hnibble, Opcode.toNat_eq_eight_iff, hf.1]
    obtain ⟨hpending, hsilent⟩ := f.reached_pending (k + 2)
    rw [hnil, hpending, hsilent]
    simp
  | close h second rest => simp [closing, h, ServerFrame.bytes]
  | @unknown first h second rest =>
    have hnot : first.toNat % 16 ≠ 8 := by
      intro heq
      rw [heq] at h
      exact h (by decide)
    simp [closing, hnot]
  | unmasked h hclose hmask rest => simp [closing, h, Opcode.toNat_eq_eight_iff, hclose]

private theorem close_notMem_replies (frames : List ClientFrame) :
    .close ∉ frames.flatMap ClientFrame.replies := by
  simp only [List.mem_flatMap, not_exists, not_and]
  intro f _
  unfold ClientFrame.replies
  split <;> simp

theorem outcome_answers (stream : List UInt8) :
    (FrameReader.header.outcome stream).effect.output =
        (answers stream).flatMap ServerFrame.bytes ∧
      ((FrameReader.header.outcome stream).verdict = .closed ↔ .close ∈ answers stream) := by
  obtain ⟨ending, hdivides⟩ := FrameReader.exists_divides stream
  obtain ⟨houtput, hclosed⟩ := closing_of_ends hdivides.ends
  have hnotMem := close_notMem_replies (ClientFrame.grammar.split stream).1
  rw [hdivides.outcome]
  constructor
  · simp only [Outcome.after, Effect.output_append, ClientFrame.effect, houtput, answers,
      List.flatMap_append]
  · rw [answers, List.mem_append]
    simpa [Outcome.after, hnotMem] using hclosed

/-- A close frame is the last thing said. -/
theorem answers_eq_append (stream : List UInt8) :
    ∃ pongs, .close ∉ pongs ∧ (answers stream = pongs ∨ answers stream = pongs ++ [.close]) := by
  refine ⟨_, close_notMem_replies (ClientFrame.grammar.split stream).1, ?_⟩
  unfold answers closing
  dsimp only
  split
  · split
    · exact .inr rfl
    · exact .inl (List.append_nil _)
  · exact .inl (List.append_nil _)

private theorem closing_append {tail : List UInt8} (h : closing tail ≠ []) (more : List UInt8) :
    answers (tail ++ more) = closing tail := by
  match tail with
  | [] | [_] => exact absurd rfl h
  | first :: second :: rest =>
    by_cases hclose : first.toNat % 16 = 8
    · have hnext : ClientFrame.grammar.next? (first :: second :: (rest ++ more)) = none :=
        FrameReader.exists_ends_iff.mp ⟨_, .close hclose second (rest ++ more)⟩
      rw [answers, List.cons_append, List.cons_append, Grammar.split_of_none hnext]
      simp [closing, hclose]
    · simp [closing, hclose] at h

/-- Answers are never taken back. -/
theorem answers_append (stream more : List UInt8) :
    ∃ later, answers (stream ++ more) = answers stream ++ later := by
  have hwhole : answers (stream ++ more) =
      (ClientFrame.grammar.split stream).1.flatMap ClientFrame.replies ++
        answers ((ClientFrame.grammar.split stream).2 ++ more) := by
    simp [answers, ClientFrame.grammar.split_append stream more]
  have hstream : answers stream =
      (ClientFrame.grammar.split stream).1.flatMap ClientFrame.replies ++
        closing (ClientFrame.grammar.split stream).2 := rfl
  rw [hwhole, hstream]
  by_cases hclosing : closing (ClientFrame.grammar.split stream).2 = []
  · refine ⟨answers ((ClientFrame.grammar.split stream).2 ++ more), ?_⟩
    rw [hclosing, List.append_nil]
  · refine ⟨[], ?_⟩
    rw [closing_append hclosing, List.append_nil]

private theorem length_lt_of_mem_answers {stream : List UInt8} {f : ServerFrame}
    (h : f ∈ answers stream) : f.payload.length < 2 ^ 64 := by
  rcases List.mem_append.mp h with hreply | hclosing
  · obtain ⟨g, hg, hf⟩ := List.mem_flatMap.mp hreply
    have hfits := (ClientFrame.grammar.forall_mem_split stream g hg).2
    have hbound : g.form.bound ≤ 2 ^ 64 := by cases g.form <;> decide
    unfold ClientFrame.replies at hf
    split at hf
    · rw [List.mem_singleton.mp hf]
      exact Nat.lt_of_lt_of_le hfits hbound
    · cases hf
  · unfold closing at hclosing
    split at hclosing
    · split at hclosing
      · rw [List.mem_singleton.mp hclosing]
        exact Nat.two_pow_pos 64
      · cases hclosing
    · cases hclosing

/-! ## Everything fed so far -/

theorem length_lt_of_mem_replies {fed : List UInt8} {f : ServerFrame} (h : f ∈ replies fed) :
    f.payload.length < 2 ^ 64 := by
  unfold replies at h
  split at h
  · cases h
  · exact length_lt_of_mem_answers h

theorem replies_append (fed more : List UInt8) :
    ∃ later, replies (fed ++ more) = replies fed ++ later := by
  cases hopening : opening? fed with
  | none => exact ⟨replies (fed ++ more), by simp [replies, hopening]⟩
  | some found =>
    obtain ⟨key, stream⟩ := found
    obtain ⟨later, hlater⟩ := answers_append stream more
    refine ⟨later, ?_⟩
    simp only [replies, hopening, opening?_append hopening more, hlater]

/-- The frames that are said between two feeds do not bear on what the second adds. -/
theorem spoken_append {fed more new : List UInt8} {frames later : List ServerFrame}
    (hsilent : opening? fed = none → frames = [])
    (hlater : replies (fed ++ more) = replies fed ++ later)
    (hnew : spoken (fed ++ more) (replies (fed ++ more)) = spoken fed (replies fed) ++ new) :
    spoken fed frames ++ new = spoken (fed ++ more) (frames ++ later) := by
  cases hopening : opening? fed with
  | none =>
    have hnone : replies fed = [] := by simp [replies, hopening]
    rw [hlater, hnone, List.nil_append] at hnew
    rw [hsilent hopening, List.nil_append, hnew]
  | some found =>
    obtain ⟨key, stream⟩ := found
    simp only [spoken, hopening, opening?_append hopening more, hlater, List.flatMap_append,
      List.append_assoc, List.append_cancel_left_eq] at hnew ⊢
    rw [hnew]

namespace Session.Core

/-- What a fresh session says when the bytes are fed to it, and whether it is closed then. -/
theorem outcome_fresh (bytes : List UInt8) :
    (outcome {} bytes).effect.output = spoken bytes (replies bytes) ∧
      ((outcome {} bytes).state.status = .closed ↔ .close ∈ replies bytes) ∧
      ((outcome {} bytes).state.status = .established → opening? bytes ≠ none) := by
  have hnegotiate : outcome {} bytes = followNegotiation {} (Negotiation.outcome {} bytes) := rfl
  rw [hnegotiate]
  rcases opens_or_silent bytes with ⟨key, stream, hopens⟩ | ⟨hnone, hverdict, houtput⟩
  · obtain ⟨notices, hout⟩ := hopens.outcome
    have hopening := opening?_of_opens hopens
    obtain ⟨hanswers, hclosed⟩ := outcome_answers stream
    simp only [spoken, replies, hopening, hout, followNegotiation, readFrames, followReader]
    cases hread : (FrameReader.header.outcome stream).verdict with
    | pending =>
      rw [hread] at hclosed
      simpa [Outcome.after, hanswers] using hclosed
    | closed =>
      rw [hread] at hclosed
      simpa [Outcome.after, hanswers] using hclosed
    | fault error =>
      rw [hread] at hclosed
      simpa [Outcome.after, hanswers, fail] using hclosed
  · simp only [spoken, replies, hnone, followNegotiation]
    cases hout : (Negotiation.outcome {} bytes).verdict with
    | pending => simp [houtput]
    | done => exact absurd hout hverdict
    | fault error => simp [houtput, fail]

theorem replies_eq (fed : List UInt8) :
    ∃ pongs, .close ∉ pongs ∧
      replies fed = pongs ++ farewell (outcome {} fed).state.status := by
  obtain ⟨-, hclosed, -⟩ := outcome_fresh fed
  unfold farewell
  by_cases hclose : .close ∈ replies fed
  · rw [if_pos (hclosed.mpr hclose)]
    unfold replies at hclose ⊢
    split at hclose
    · cases hclose
    · rename_i stream hopening
      obtain ⟨pongs, hpongs, hanswers | hanswers⟩ := answers_eq_append stream
      · rw [hanswers] at hclose
        exact absurd hclose hpongs
      · exact ⟨pongs, hpongs, hanswers⟩
  · rw [if_neg (mt hclosed.mp hclose)]
    exact ⟨replies fed, hclose, (List.append_nil _).symm⟩

end Session.Core

end WebSocket
