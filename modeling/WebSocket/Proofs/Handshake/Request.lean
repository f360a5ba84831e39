import WebSocket.Proofs.Handshake.AcceptKey
import WebSocket.Proofs.Handshake.Outcome

/-!
# Requests line by line

The first line that is empty, or has a key of the wrong length, decides what becomes of a request.
A negotiation finds the same, however the request is cut on its way.
-/

namespace WebSocket

namespace Response

/-- What stands in front of the accept key. -/
def head : String :=
  "HTTP/1.1 101 Switching Protocols\r\nUpgrade: websocket\r\nConnection: Upgrade\r\n" ++
    "Sec-WebSocket-Accept: "

def text (accept : String) : String :=
  head ++ accept ++ "\r\n\r\n"

theorem bytes_eq (accept : String) :
    bytes accept = Ascii.bytes head ++ Ascii.bytes accept ++ Ascii.bytes "\r\n\r\n" := by
  have hhead : Ascii.bytes head =
      Ascii.bytes "HTTP/1.1 101 Switching Protocols" ++ Ascii.lineEnd ++
        (Ascii.bytes "Upgrade: websocket" ++ Ascii.lineEnd) ++
          (Ascii.bytes "Connection: Upgrade" ++ Ascii.lineEnd) ++
            Ascii.bytes "Sec-WebSocket-Accept: " := by decide
  have htail : Ascii.bytes "\r\n\r\n" = Ascii.lineEnd ++ (Ascii.bytes "" ++ Ascii.lineEnd) := by
    decide
  rw [hhead, htail, bytes, lines]
  simp only [List.flatMap_cons, List.flatMap_nil, Ascii.bytes_append, List.append_assoc,
    List.append_nil]

/-- What is sent is the text of the response. -/
theorem bytes_acceptKey (key : List UInt8) :
    bytes (acceptKey key) = (text (acceptKey key)).toUTF8.data.toList := by
  have hhead : Ascii.IsAscii head.toList := by decide +kernel
  have htail : Ascii.IsAscii "\r\n\r\n".toList := by decide +kernel
  have hascii : Ascii.IsAscii (text (acceptKey key)).toList := by
    rw [text, String.toList_append, String.toList_append]
    exact List.forall_mem_append.mpr
      ⟨List.forall_mem_append.mpr ⟨hhead, isAscii_acceptKey key⟩, htail⟩
  rw [bytes_eq, ← Ascii.bytes_append, ← Ascii.bytes_append]
  exact Ascii.bytes_eq_toUTF8 hascii

end Response

/-- The first eighteen bytes are the label, in letters of either case. -/
def IsKeyLine (line : List UInt8) : Prop :=
  Ascii.SameText (line.take 18) "Sec-WebSocket-Key:".toUTF8.data.toList

instance (line : List UInt8) : Decidable (IsKeyLine line) :=
  inferInstanceAs (Decidable (Ascii.SameText _ _))

private theorem isKeyLine_iff {line : List UInt8} :
    IsKeyLine line ↔ (line.take 18).map Ascii.toLower =
      RequestLine.keyLabel.map Ascii.toLower := by
  have hlabel : "Sec-WebSocket-Key:".toUTF8.data.toList = RequestLine.keyLabel := by decide +kernel
  rw [IsKeyLine, hlabel, Ascii.map_toLower_eq_iff]

theorem IsKeyLine.ne_lineEnd {line : List UInt8} (h : IsKeyLine line) :
    line ≠ [0x0D, 0x0A] := by
  intro hend
  rw [hend] at h
  exact absurd h (by decide)

structure HasKey (line value : List UInt8) : Prop where
  label : IsKeyLine line
  value : Ascii.IsCore (line.drop 18) value

/-- Lines of which none decides, and the keys among them. -/
inductive Passed : List (List UInt8) → List (List UInt8) → Prop where
  | nil : Passed [] []
  | other {line : List UInt8} {lines keys : List (List UInt8)} (hend : line ≠ [0x0D, 0x0A])
      (hlabel : ¬ IsKeyLine line) (h : Passed lines keys) : Passed (line :: lines) keys
  | key {line key : List UInt8} {lines keys : List (List UInt8)} (hkey : HasKey line key)
      (hlen : key.length = 24) (h : Passed lines keys) : Passed (line :: lines) (key :: keys)

/-- All keys but the first are noted as repeated. -/
def keyNotices : List (List UInt8) → List Notice
  | [] => []
  | _ :: keys => .keyReceived :: List.replicate keys.length .keyRepeated

namespace Negotiation

/-- What the lines of a request come to: the first line that decides is the last of those that are
read, and if none decides, all are. -/
inductive Judged : (read after : List (List UInt8)) → Outcome Negotiation Verdict → Prop where
  | waits {lines keys : List (List UInt8)} (h : Passed lines keys) :
      Judged lines []
        { state := { accept := keys.head?.map acceptKey }, unread := [], verdict := .pending
          effect := { notices := keyNotices keys } }
  | keyLength {lines keys : List (List UInt8)} {line key : List UInt8} (h : Passed lines keys)
      (hkey : HasKey line key) (hlen : key.length ≠ 24) (after : List (List UInt8)) :
      Judged (lines ++ [line]) after
        { state := { accept := keys.head?.map acceptKey }, unread := after.flatten
          verdict := .fault (.keyLength key.length), effect := { notices := keyNotices keys } }
  | missingKey {lines : List (List UInt8)} (h : Passed lines []) (after : List (List UInt8)) :
      Judged (lines ++ [[0x0D, 0x0A]]) after
        { state := {}, unread := after.flatten, verdict := .fault .missingKey }
  | done {lines keys : List (List UInt8)} {key : List UInt8} (h : Passed lines (key :: keys))
      (after : List (List UInt8)) :
      Judged (lines ++ [[0x0D, 0x0A]]) after
        { state := { accept := some (acceptKey key) }, unread := after.flatten, verdict := .done
          effect :=
            { output := (Response.text (acceptKey key)).toUTF8.data.toList
              notices := keyNotices (key :: keys) ++ [.responseSent] } }

/-- A byte string as the lines of a request, the last of which may not be complete. -/
structure Reads (bytes : List UInt8) (read after : List (List UInt8)) (tail : List UInt8)
    (o : Outcome Negotiation Verdict) : Prop where
  lines : ∀ line ∈ read ++ after, IsLine line
  last : 0x0A ∉ tail
  whole : bytes = (read ++ after).flatten ++ tail
  judged : Judged read after o

/-! ## The meaning of a line -/

private theorem ofBytes_of_hasKey {line key : List UInt8} (h : HasKey line key) :
    RequestLine.ofBytes line = .key key := by
  have hlabel : Ascii.afterLabel? RequestLine.keyLabel line = some (line.drop 18) :=
    if_pos (isKeyLine_iff.mp h.label)
  rw [RequestLine.ofBytes, Ascii.lineEnd, if_neg h.label.ne_lineEnd, hlabel,
    Ascii.isCore_iff.mp h.value]

private theorem ofBytes_of_other {line : List UInt8} (hend : line ≠ [0x0D, 0x0A])
    (hlabel : ¬ IsKeyLine line) : RequestLine.ofBytes line = .other := by
  have hnone : Ascii.afterLabel? RequestLine.keyLabel line = none :=
    if_neg (mt isKeyLine_iff.mpr hlabel)
  rw [RequestLine.ofBytes, Ascii.lineEnd, if_neg hend, hnone]

/-! ## Lines that do not decide -/

/-- A negotiation after these keys. -/
def hear (n : Negotiation) (keys : List (List UInt8)) : Negotiation where
  accept := n.accept.or (keys.head?.map acceptKey)

def noted (n : Negotiation) (keys : List (List UInt8)) : List Notice :=
  if n.accept.isSome then List.replicate keys.length .keyRepeated else keyNotices keys

private theorem outcome_passed {lines keys : List (List UInt8)} (h : Passed lines keys)
    (hlines : ∀ line ∈ lines, IsLine line) (n : Negotiation) (rest : List UInt8) :
    n.outcome (lines.flatten ++ rest) =
      ((n.hear keys).outcome rest).after { notices := n.noted keys } := by
  induction h generalizing n with
  | nil =>
    have hhear : n.hear [] = n := by simp [hear]
    have hnoted : n.noted [] = [] := by simp [noted, keyNotices]
    rw [hhear, hnoted]
    rfl
  | other hend hlabel _ ih =>
    obtain ⟨hline, hlines⟩ := List.forall_mem_cons.mp hlines
    rw [List.flatten_cons, List.append_assoc, outcome_line hline, ofBytes_of_other hend hlabel]
    exact ih hlines n
  | @key _ key _ keys hkey hlen _ ih =>
    obtain ⟨hline, hlines⟩ := List.forall_mem_cons.mp hlines
    have hvalid : ¬ key.length ≠ keyLength := not_not.mpr hlen
    rw [List.flatten_cons, List.append_assoc, outcome_line hline, ofBytes_of_hasKey hkey, step,
      if_neg hvalid]
    cases haccept : n.accept with
    | some accept =>
      have hhear : n.hear (key :: keys) = n.hear keys := by simp [hear, haccept]
      have hnoted : n.noted (key :: keys) = .keyRepeated :: n.noted keys := by
        simp [noted, haccept, List.replicate_succ]
      rw [hhear, hnoted, Option.isSome_some, if_pos rfl, followed, ih hlines, Outcome.after_after]
      rfl
    | none =>
      have hhear : n.hear (key :: keys) = hear { accept := some (acceptKey key) } keys := by
        simp [hear, haccept]
      have hnoted : n.noted (key :: keys) =
          .keyReceived :: noted { accept := some (acceptKey key) } keys := by
        simp [noted, haccept, keyNotices]
      rw [hhear, hnoted, Option.isSome_none, if_neg (by decide), followed, ih hlines,
        Outcome.after_after]
      rfl

private theorem exists_passed (lines : List (List UInt8)) :
    ∃ before after keys, lines = before ++ after ∧ Passed before keys ∧
      ∀ line rest, after = line :: rest →
        line = [0x0D, 0x0A] ∨ ∃ key, HasKey line key ∧ key.length ≠ 24 := by
  induction lines with
  | nil => exact ⟨[], [], [], rfl, .nil, by simp⟩
  | cons line lines ih =>
    obtain ⟨before, after, keys, rfl, hpassed, hafter⟩ := ih
    by_cases hend : line = [0x0D, 0x0A]
    · refine ⟨[], line :: (before ++ after), [], rfl, .nil, ?_⟩
      intro first rest hfirst
      cases hfirst
      exact .inl hend
    by_cases hlabel : IsKeyLine line
    · have hkey : HasKey line (Ascii.trim (line.drop 18)) := ⟨hlabel, Ascii.isCore_trim _⟩
      by_cases hlen : (Ascii.trim (line.drop 18)).length = 24
      · exact ⟨line :: before, after, _ :: keys, rfl, .key hkey hlen hpassed, hafter⟩
      · refine ⟨[], line :: (before ++ after), [], rfl, .nil, ?_⟩
        intro first rest hfirst
        cases hfirst
        exact .inr ⟨_, hkey, hlen⟩
    · exact ⟨line :: before, after, keys, rfl, .other hend hlabel hpassed, hafter⟩

private theorem exists_judged (lines : List (List UInt8)) :
    ∃ read after o, lines = read ++ after ∧ Judged read after o := by
  obtain ⟨before, after, keys, rfl, hpassed, hafter⟩ := exists_passed lines
  cases after with
  | nil => exact ⟨before, [], _, rfl, .waits hpassed⟩
  | cons line after =>
    rw [List.append_cons]
    rcases hafter line after rfl with rfl | ⟨key, hkey, hlen⟩
    · cases keys with
      | nil => exact ⟨_, after, _, rfl, .missingKey hpassed after⟩
      | cons key keys => exact ⟨_, after, _, rfl, .done hpassed after⟩
    · exact ⟨_, after, _, rfl, .keyLength hpassed hkey hlen after⟩

theorem exists_reads (bytes : List UInt8) :
    ∃ read after tail o, Reads bytes read after tail o := by
  obtain ⟨read, after, o, hsplit, hjudged⟩ := exists_judged (lineGrammar.split bytes).1
  refine ⟨read, after, (lineGrammar.split bytes).2, o, ?_, ?_, ?_, hjudged⟩
  · rw [← hsplit]
    exact lineGrammar.forall_mem_split bytes
  · exact lineGrammar_next?_eq_none_iff.mp (lineGrammar.next?_split bytes)
  · rw [← hsplit]
    exact eq_flatten_split bytes

theorem Reads.split {bytes tail : List UInt8} {read after : List (List UInt8)}
    {o : Outcome Negotiation Verdict} (h : Reads bytes read after tail o) :
    lineGrammar.split bytes = (read ++ after, tail) := by
  rw [h.whole, split_lines_append h.lines,
    Grammar.split_of_none (lineGrammar_next?_eq_none_iff.mpr h.last), List.append_nil]

/-! ## The line that decides -/

/-- Nothing behind the line that decides is looked at. -/
theorem outcome_of_decided {read after : List (List UInt8)}
    {o : Outcome Negotiation Verdict} (h : Judged read after o) (hverdict : o.verdict ≠ .pending)
    (hlines : ∀ line ∈ read, IsLine line) (rest : List UInt8) :
    outcome {} (read.flatten ++ rest) = { o with unread := rest } := by
  cases h with
  | waits => exact absurd rfl hverdict
  | @keyLength lines keys line key hpassed hkey hlen =>
    obtain ⟨hlines, hline⟩ := List.forall_mem_append.mp hlines
    have hlast := List.forall_mem_singleton.mp hline
    have hinvalid : key.length ≠ keyLength := hlen
    rw [List.flatten_concat, List.append_assoc, outcome_passed hpassed hlines, outcome_line hlast,
      ofBytes_of_hasKey hkey, step, if_pos hinvalid]
    simp [followed, Outcome.after, hear, noted]
  | @missingKey lines hpassed =>
    obtain ⟨hlines, hline⟩ := List.forall_mem_append.mp hlines
    have hlast := List.forall_mem_singleton.mp hline
    rw [List.flatten_concat, List.append_assoc, outcome_passed hpassed hlines, outcome_line hlast]
    rfl
  | @done lines keys key hpassed =>
    obtain ⟨hlines, hline⟩ := List.forall_mem_append.mp hlines
    have hlast := List.forall_mem_singleton.mp hline
    rw [List.flatten_concat, List.append_assoc, outcome_passed hpassed hlines, outcome_line hlast,
      ← Response.bytes_acceptKey]
    rfl

theorem Judged.unread_eq {read after : List (List UInt8)} {o : Outcome Negotiation Verdict}
    (h : Judged read after o) : o.unread = after.flatten := by
  cases h with
  | waits => rfl
  | keyLength | missingKey | done => rfl

theorem Reads.outcome {bytes tail : List UInt8} {read after : List (List UInt8)}
    {o : Outcome Negotiation Verdict} (h : Reads bytes read after tail o) :
    Negotiation.outcome {} bytes = o.leaving tail := by
  obtain ⟨hlines, htail, rfl, hjudged⟩ := h
  obtain ⟨hread, -⟩ := List.forall_mem_append.mp hlines
  by_cases hverdict : o.verdict = .pending
  · cases hjudged with
    | waits hpassed =>
      rw [List.append_nil, outcome_passed hpassed hread, outcome_tail htail]
      simp [waiting, Outcome.after, Outcome.leaving, hear, noted]
    | keyLength | missingKey | done => cases hverdict
  · rw [List.flatten_append, List.append_assoc, outcome_of_decided hjudged hverdict hread,
      Outcome.leaving, hjudged.unread_eq]

end Negotiation

end WebSocket
