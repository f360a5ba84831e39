import WebSocket.Proofs.Frame.Decoding
import WebSocket.Proofs.Handshake.Request
import WebSocket.Proofs.Session.Chunks

/-!
# What a session logs

The log can be told from the bytes of the client alone: what it says of the keys in the request, of
the response, of each frame and of the end. However the bytes are cut, the feeds of a fresh session
log that and nothing else (`log_of_stream`), and they warn once, at the end, of what made it fail.
-/

namespace WebSocket

/-- A line of the log. -/
structure LogLine where
  severity : Severity
  text : String
deriving DecidableEq, Repr

def Record.line (r : Record) : LogLine where
  severity := r.notice.severity
  text := r.message

namespace LogLine

/-- A line that names its session. -/
def named (severity : Severity) (id : UInt32) (text : String) : LogLine where
  severity := severity
  text := toString id.toNat ++ ": " ++ text

def fault (id : UInt32) (error : SessionError) : LogLine :=
  named .warn id error.message

def frame (id : UInt32) : Opcode → LogLine
  | .continuation => named .trace id "recv: Continue frame"
  | .text => named .trace id "recv: Text frame"
  | .binary => named .trace id "recv: Binary frame"
  | .close => named .trace id "recv: Close frame"
  | .ping => named .trace id "recv: Ping frame"
  | .pong => named .trace id "recv: Pong frame"

def payload (id : UInt32) (length : Nat) : LogLine :=
  named .trace id ("recv: payload of " ++ toString length ++ " bytes")

def pong (id : UInt32) (length : Nat) : LogLine :=
  named .trace id ("send: pong of " ++ toString length ++ " bytes")

end LogLine

/-! ## The log of a stream -/

/-- A line of a request that settles what becomes of it. -/
def Decides (line : List UInt8) : Prop :=
  line = [0x0D, 0x0A] ∨ IsKeyLine line ∧ (Ascii.trim (line.drop 18)).length ≠ 24

instance (line : List UInt8) : Decidable (Decides line) :=
  inferInstanceAs (Decidable (_ ∨ _))

/-- For so many valid keys. -/
def keyLog : Nat → List LogLine
  | 0 => []
  | repeated + 1 =>
    ⟨.debug, "received Sec-WebSocket-Key"⟩ ::
      List.replicate repeated ⟨.debug, "ignoring repeated Sec-WebSocket-Key header"⟩

def frameLog (id : UInt32) (f : ClientFrame) : List LogLine :=
  [.frame id f.opcode, .payload id f.payload.length] ++
    if f.opcode = .ping then [.pong id f.payload.length] else []

/-- The length that a frame declares, once its key is there as well; `bytes` are those behind the
second one. -/
def declared? (code : Nat) (bytes : List UInt8) : Option Nat :=
  let form := LengthForm.ofCode code
  if form.width + 4 ≤ bytes.length then some (form.value code (bytes.take form.width)) else none

/-- For a tail that does not begin with a whole frame. -/
def tailLog (id : UInt32) : List UInt8 → List LogLine
  | first :: second :: rest =>
    match Opcode.ofByte? first with
    | none => [.fault id (.frame (.unknownOpcode (first.toNat % 16)))]
    | some opcode =>
      .frame id opcode ::
        if opcode = .close then
          [.named .debug id "received close frame", .named .debug id "closed"]
        else if second.toNat < 128 then [.fault id (.frame .unmasked)]
        else (declared? (second.toNat % 128) rest).toList.map (.payload id)
  | _ => []

def streamLog (id : UInt32) (stream : List UInt8) : List LogLine :=
  let (frames, tail) := ClientFrame.grammar.split stream
  frames.flatMap (frameLog id) ++ tailLog id tail

/-- For the line that decides, with so many valid keys before it and `stream` behind it. -/
def decisionLog (id : UInt32) (keys : Nat) (line stream : List UInt8) : List LogLine :=
  if line ≠ [0x0D, 0x0A] then
    [.fault id (.handshake (.keyLength (Ascii.trim (line.drop 18)).length))]
  else if keys = 0 then [.fault id (.handshake .missingKey)]
  else
    ⟨.debug, "handshake response sent"⟩ :: .named .debug id "handshake complete" ::
      streamLog id stream

def sessionLog (id : UInt32) (bytes : List UInt8) : List LogLine :=
  let (lines, rest) := lineGrammar.split bytes
  let keys := ((lines.takeWhile (¬ Decides ·)).filter (IsKeyLine ·)).length
  keyLog keys ++
    match lines.dropWhile (¬ Decides ·) with
    | [] => []
    | line :: behind => decisionLog id keys line (behind.flatten ++ rest)

/-- The line that is logged for a notice. -/
def logged (id : UInt32) (notice : Notice) : LogLine :=
  Record.line { session := id, notice }

theorem logged_frameReceived (id : UInt32) (opcode : Opcode) :
    logged id (.frameReceived opcode) = .frame id opcode := by
  cases opcode <;> rfl

/-! ## Requests -/

private theorem map_keyNotices (id : UInt32) (keys : List (List UInt8)) :
    (keyNotices keys).map (logged id) = keyLog keys.length := by
  cases keys with
  | nil => rfl
  | cons key keys =>
    rw [keyNotices, List.map_cons, List.map_replicate, List.length_cons, keyLog]
    rfl

private theorem Passed.not_decides {lines keys : List (List UInt8)} (h : Passed lines keys) :
    ∀ line ∈ lines, ¬ Decides line := by
  induction h with
  | nil => exact fun _ hline => absurd hline List.not_mem_nil
  | other hend hlabel _ ih =>
    refine List.forall_mem_cons.mpr ⟨?_, ih⟩
    rintro (hline | ⟨hkey, -⟩)
    · exact hend hline
    · exact hlabel hkey
  | key hkey hlen _ ih =>
    refine List.forall_mem_cons.mpr ⟨?_, ih⟩
    rintro (hline | ⟨-, hinvalid⟩)
    · exact hkey.label.ne_lineEnd hline
    · rw [← Ascii.isCore_iff.mp hkey.value] at hinvalid
      exact hinvalid hlen

private theorem Passed.length_filter {lines keys : List (List UInt8)} (h : Passed lines keys) :
    (lines.filter (IsKeyLine ·)).length = keys.length := by
  induction h with
  | nil => rfl
  | other _ hlabel _ ih => rwa [List.filter_cons_of_neg (by simpa using hlabel)]
  | key hkey _ _ ih =>
    rw [List.filter_cons_of_pos (by simpa using hkey.label), List.length_cons, List.length_cons, ih]

private theorem Passed.span {lines keys : List (List UInt8)} (h : Passed lines keys)
    (rest : List (List UInt8)) :
    (lines ++ rest).takeWhile (¬ Decides ·) = lines ++ rest.takeWhile (¬ Decides ·) ∧
      (lines ++ rest).dropWhile (¬ Decides ·) = rest.dropWhile (¬ Decides ·) := by
  have hall : ∀ line ∈ lines, decide (¬ Decides line) = true := by
    intro line hline
    exact decide_eq_true (h.not_decides line hline)
  exact ⟨List.takeWhile_append_of_pos hall, List.dropWhile_append_of_pos hall⟩

private theorem sessionLog_passed {bytes rest : List UInt8} {lines keys : List (List UInt8)}
    (hsplit : lineGrammar.split bytes = (lines, rest)) (h : Passed lines keys) (id : UInt32) :
    sessionLog id bytes = keyLog keys.length := by
  obtain ⟨htake, hdrop⟩ := h.span []
  rw [List.append_nil] at htake hdrop
  simp only [sessionLog, hsplit, htake, hdrop, List.takeWhile_nil, List.dropWhile_nil,
    List.append_nil, h.length_filter]

private theorem sessionLog_decided {bytes rest line : List UInt8}
    {lines keys behind : List (List UInt8)}
    (hsplit : lineGrammar.split bytes = (lines ++ [line] ++ behind, rest)) (h : Passed lines keys)
    (hline : Decides line) (id : UInt32) :
    sessionLog id bytes =
      keyLog keys.length ++ decisionLog id keys.length line (behind.flatten ++ rest) := by
  obtain ⟨htake, hdrop⟩ := h.span (line :: behind)
  have hlast : (decide ¬ Decides line) = false := by simpa using hline
  simp only [List.takeWhile_cons, List.dropWhile_cons, hlast] at htake hdrop
  rw [if_neg (by decide), List.append_nil] at htake
  rw [if_neg (by decide)] at hdrop
  simp only [sessionLog, hsplit, List.append_assoc, List.singleton_append, htake, hdrop,
    h.length_filter]

/-! ## Frames -/

private theorem map_notices (id : UInt32) (f : ClientFrame) :
    f.notices.map (logged id) = frameLog id f := by
  unfold ClientFrame.notices frameLog
  cases f.opcode <;> rfl

private theorem declared?_take {f : ClientFrame} (hf : f.Fits) {k : Nat} (bytes : List UInt8)
    (hbytes : bytes = f.form.extension f.payload.length ++
      (f.key.toList ++ Mask.apply { key := f.key } f.payload))
    (hk : k ≤ bytes.length) :
    declared? (f.form.code f.payload.length) (bytes.take k) =
      if f.form.width + 4 ≤ k then some f.payload.length else none := by
  have hlength : (bytes.take k).length = k := List.length_take_of_le hk
  rw [declared?, LengthForm.ofCode_code hf, hlength]
  by_cases hkey : f.form.width + 4 ≤ k
  · have hdigits : (bytes.take k).take f.form.width = f.form.extension f.payload.length := by
      rw [List.take_take, Nat.min_eq_left (by omega), hbytes,
        List.take_left' (LengthForm.length_extension _ _)]
    rw [if_pos hkey, if_pos hkey, hdigits, LengthForm.value_extension hf]
  · rw [if_neg hkey, if_neg hkey]

private theorem tailLog_inside {f : ClientFrame} {n : Nat} (hf : f.Readable) (htwo : 2 ≤ n)
    (hn : n < f.encode.length) (id : UInt32) :
    tailLog id (f.encode.take n) =
      .frame id f.opcode ::
        if f.header.length + 4 ≤ n then [.payload id f.payload.length] else [] := by
  obtain ⟨k, rfl⟩ : ∃ k, n = k + 2 := ⟨n - 2, by omega⟩
  have hheader := f.length_header
  have hcode := LengthForm.code_lt hf.2
  have hsecond := ClientFrame.toNat_second hf.2
  have hmod : (128 + f.form.code f.payload.length) % 128 = f.form.code f.payload.length := by
    omega
  have hmasked : ¬ 128 + f.form.code f.payload.length < 128 := by omega
  have hencode : f.encode = f.wire.first :: UInt8.ofNat (128 + f.form.code f.payload.length) ::
      (f.form.extension f.payload.length ++
        (f.key.toList ++ Mask.apply { key := f.key } f.payload)) := by
    rw [ClientFrame.encode, f.header_eq, List.append_assoc]
    rfl
  have hk : k ≤ (f.form.extension f.payload.length ++
      (f.key.toList ++ Mask.apply { key := f.key } f.payload)).length := by
    rw [hencode, List.length_cons, List.length_cons] at hn
    omega
  rw [hencode, List.take_succ_cons, List.take_succ_cons]
  simp only [tailLog, f.ofByte?_first, if_neg hf.1, hsecond, hmod, if_neg hmasked]
  rw [declared?_take hf.2 _ rfl hk, hheader]
  by_cases hkey : f.form.width + 4 ≤ k
  · rw [if_pos hkey, if_pos (by omega)]
    rfl
  · rw [if_neg hkey, if_neg (by omega)]
    rfl

namespace Session.Core

private theorem map_notices_of_ends {tail : List UInt8}
    {o : Outcome FrameReader FrameReader.Verdict} (h : FrameReader.Ends tail o) (c : Core)
    (id : UInt32) : (c.followReader o).effect.notices.map (logged id) = tailLog id tail := by
  cases h with
  | @short tail h =>
    match tail with
    | [] | [_] => rfl
  | @inside f n hf htwo hn =>
    rw [tailLog_inside hf htwo hn, ← logged_frameReceived]
    unfold ClientFrame.reached
    dsimp only
    by_cases hkey : n < f.header.length + 4
    · rw [if_neg (Nat.not_le_of_lt hkey)]
      split <;> rfl
    · have hlength : ¬ n < f.header.length := by omega
      rw [if_neg hlength, if_neg hkey, if_pos (Nat.le_of_not_lt hkey)]
      rfl
  | @close first h second rest =>
    have hop : Opcode.ofByte? first = some .close := Opcode.ofByte?_eq_some_iff.mpr h
    simp only [tailLog, hop]
    rfl
  | unknown h second rest =>
    simp only [tailLog, Opcode.ofByte?_eq_none_iff.mpr h]
    rfl
  | unmasked h hclose hmask rest =>
    simp only [tailLog, Opcode.ofByte?_eq_some_iff.mpr h, if_neg hclose, if_pos hmask]
    rw [← logged_frameReceived]
    rfl

theorem map_notices_readFrames (c : Core) (hreader : c.reader = .header) (stream : List UInt8)
    (id : UInt32) : (c.readFrames stream).effect.notices.map (logged id) = streamLog id stream := by
  obtain ⟨ending, hdivides⟩ := FrameReader.exists_divides stream
  have htail := map_notices_of_ends hdivides.ends c id
  rw [readFrames, hreader, hdivides.outcome, followReader_after]
  simp only [Outcome.after, Effect.notices_append, ClientFrame.effect, List.map_append,
    List.map_flatMap, map_notices, htail, streamLog]

/-- The log of a fresh session to which the bytes are fed at once. -/
theorem map_notices_outcome (bytes : List UInt8) (id : UInt32) :
    (outcome {} bytes).effect.notices.map (logged id) = sessionLog id bytes := by
  obtain ⟨read, after, rest, o, h⟩ := Negotiation.exists_reads bytes
  have hsplit := h.split
  have hnegotiate : outcome {} bytes = followNegotiation {} (o.leaving rest) := by
    rw [← h.outcome]
    rfl
  rw [hnegotiate]
  cases h.judged with
  | waits hpassed =>
    rw [List.append_nil] at hsplit
    rw [sessionLog_passed hsplit hpassed, ← map_keyNotices id]
    rfl
  | @keyLength lines keys line key hpassed hkey hlen =>
    have hvalue := Ascii.isCore_iff.mp hkey.value
    have hdecides : Decides line := .inr ⟨hkey.label, by rwa [← hvalue]⟩
    rw [sessionLog_decided hsplit hpassed hdecides, decisionLog,
      if_pos hkey.label.ne_lineEnd, ← hvalue, ← map_keyNotices id]
    simp only [followNegotiation, Outcome.leaving, fail, Effect.notices_append, List.map_append]
    rfl
  | missingKey hpassed =>
    rw [sessionLog_decided hsplit hpassed (.inl rfl)]
    rfl
  | @done lines keys key hpassed =>
    have hread := map_notices_readFrames
      { status := .established, negotiation := { accept := some (acceptKey key) } } rfl
      (after.flatten ++ rest) id
    rw [sessionLog_decided hsplit hpassed (.inl rfl), ← map_keyNotices id]
    simp only [followNegotiation, Outcome.leaving, Outcome.after, Effect.notices_append,
      List.map_append, hread, List.append_assoc]
    rfl

end Session.Core

/-! ## Warnings -/

def Quiet (notices : List Notice) : Prop :=
  ∀ notice ∈ notices, notice.severity ≠ .warn

namespace Quiet

theorem append {a b : List Notice} (ha : Quiet a) (hb : Quiet b) : Quiet (a ++ b) :=
  List.forall_mem_append.mpr ⟨ha, hb⟩

private theorem nil : Quiet [] :=
  fun _ h => absurd h List.not_mem_nil

private theorem singleton {notice : Notice} (h : notice.severity ≠ .warn) : Quiet [notice] :=
  List.forall_mem_singleton.mpr h

private theorem keyNotices (keys : List (List UInt8)) : Quiet (keyNotices keys) := by
  cases keys with
  | nil => exact nil
  | cons key keys =>
    refine List.forall_mem_cons.mpr ⟨by decide, ?_⟩
    intro notice hnotice
    rw [List.eq_of_mem_replicate hnotice]
    decide

private theorem frame (f : ClientFrame) : Quiet f.notices := by
  intro notice hnotice
  unfold ClientFrame.notices at hnotice
  split at hnotice <;>
    simp only [List.mem_append, List.mem_cons, List.not_mem_nil, or_false] at hnotice
  · rcases hnotice with (rfl | rfl) | rfl <;> simp [Notice.severity]
  · rcases hnotice with rfl | rfl <;> simp [Notice.severity]

end Quiet

namespace FrameReader

private theorem quiet_of_ends {tail : List UInt8} {o : Outcome FrameReader Verdict}
    (h : Ends tail o) : Quiet o.effect.notices := by
  cases h with
  | short => exact .nil
  | @inside f n =>
    have hframe : Quiet [.frameReceived f.opcode] := .singleton (by simp [Notice.severity])
    unfold ClientFrame.reached
    dsimp only
    split
    · exact hframe
    · split
      · exact hframe
      · exact hframe.append (.singleton (by simp [Notice.severity]))
  | close => exact Quiet.append (.singleton (by decide)) (.singleton (by decide))
  | unknown => exact .nil
  | unmasked => exact .singleton (by simp [Notice.severity])

/-- Reading warns of nothing; a fault is its verdict. -/
theorem quiet_outcome (stream : List UInt8) : Quiet (header.outcome stream).effect.notices := by
  obtain ⟨ending, hdivides⟩ := exists_divides stream
  rw [hdivides.outcome]
  refine Quiet.append ?_ (quiet_of_ends hdivides.ends)
  intro notice hnotice
  obtain ⟨f, -, hf⟩ := List.mem_flatMap.mp hnotice
  exact Quiet.frame f notice hf

end FrameReader

theorem Negotiation.quiet_outcome (bytes : List UInt8) :
    Quiet (Negotiation.outcome {} bytes).effect.notices := by
  obtain ⟨read, after, rest, o, h⟩ := Negotiation.exists_reads bytes
  rw [h.outcome]
  cases h.judged with
  | waits | keyLength => exact .keyNotices _
  | missingKey => exact .nil
  | done => exact Quiet.append (.keyNotices _) (.singleton (by decide))

namespace Session

/-- A feed warns of the error that is its result, at the end, and of nothing else. -/
def Warns : Result → List Notice → Prop
  | .ok status, notices => status ≠ .failed ∧ Quiet notices
  | .error error, notices => ∃ before, notices = before ++ [.sessionFailed error] ∧ Quiet before

private theorem Warns.after {result : Result} {notices before : List Notice}
    (h : Warns result notices) (hbefore : Quiet before) : Warns result (before ++ notices) := by
  cases result with
  | ok status => exact ⟨h.1, hbefore.append h.2⟩
  | error error =>
    obtain ⟨quiet, rfl, hquiet⟩ := h
    exact ⟨before ++ quiet, (List.append_assoc _ _ _).symm, hbefore.append hquiet⟩

namespace Core

private theorem warns_followReader {c : Core} (hstatus : c.status ≠ .failed)
    {o : Outcome FrameReader FrameReader.Verdict} (h : Quiet o.effect.notices) :
    Warns (c.followReader o).verdict (c.followReader o).effect.notices := by
  unfold followReader
  cases o.verdict with
  | pending => exact ⟨hstatus, h⟩
  | closed => exact ⟨by decide, h.append (.singleton (by decide))⟩
  | fault error => exact ⟨_, rfl, h⟩

theorem warns_outcome (bytes : List UInt8) :
    Warns (outcome {} bytes).verdict (outcome {} bytes).effect.notices := by
  have hquiet := Negotiation.quiet_outcome bytes
  have hnegotiate : outcome {} bytes = followNegotiation {} (Negotiation.outcome {} bytes) := rfl
  rw [hnegotiate]
  unfold followNegotiation
  cases (Negotiation.outcome {} bytes).verdict with
  | pending => exact ⟨by decide, hquiet⟩
  | done =>
    apply Warns.after (warns_followReader (by simp) (FrameReader.quiet_outcome _))
    exact hquiet.append (.singleton (by decide))
  | fault error => exact ⟨_, rfl, hquiet⟩

end Core

private theorem exists_warns_feedAll (id : UInt32) (chunks : List (List UInt8)) :
    ∃ notices result,
      let run := feedAll { id } {} chunks
      run.records.toList = notices.map (Record.mk id) ∧
        notices.map (logged id) = sessionLog id chunks.flatten ∧ Warns result notices ∧
        run.session.status = Core.statusOf result ∧
        ∀ error, result = .error error → .error error ∈ run.results := by
  cases chunks with
  | nil =>
    have hsplit : lineGrammar.split [] = ([], []) :=
      Grammar.split_of_none (lineGrammar_next?_eq_none_iff.mpr List.not_mem_nil)
    have hlog := sessionLog_passed hsplit .nil id
    refine ⟨[], .ok .idle, rfl, hlog.symm, ⟨by decide, .nil⟩, rfl, ?_⟩
    intro error h
    cases h
  | cons chunk chunks =>
    obtain ⟨hrun, hresults⟩ :=
      feedAll_spec chunks (s := { id }) ByteQueue.valid_empty [] chunk #[]
    rw [List.nil_append] at hrun hresults
    have hstatus := congrArg Core.status hrun.core
    refine ⟨_, (Core.outcome {} (chunk :: chunks).flatten).verdict, hrun.records,
      Core.map_notices_outcome _ id, Core.warns_outcome _,
      hstatus.trans (Core.status_outcome _ _), ?_⟩
    intro error h
    have hfault : Splits (.error error) (feedAll { id } {} (chunk :: chunks)).results := h ▸ hresults
    obtain ⟨before, after, hbefore, -⟩ := hfault
    rw [hbefore]
    simp

/-- However a stream is cut, the feeds of a fresh session log what is to be said of it. Among the
lines there is a warning exactly when the session has failed, and then one: the last line, with the
message of the error that a feed gave as its result. -/
theorem log_of_stream (id : UInt32) (chunks : List (List UInt8)) :
    let run : Feeds := feedAll { id } {} chunks
    let log := run.records.toList.map Record.line
    log = sessionLog id chunks.flatten ∧
      (run.session.status = .failed ↔ ∃ line ∈ log, line.severity = .warn) ∧
      (run.session.status = .failed → ∃ before error,
        log = before ++ [.fault id error] ∧ (∀ line ∈ before, line.severity ≠ .warn) ∧
          .error error ∈ run.results) := by
  obtain ⟨notices, result, hrecords, hlog, hwarns, hstatus, hresults⟩ :=
    exists_warns_feedAll id chunks
  intro run log
  have hlines : log = notices.map (logged id) := by
    rw [show log = run.records.toList.map Record.line from rfl, hrecords, List.map_map]
    rfl
  rw [hstatus, hlines]
  refine ⟨hlog, ?_⟩
  cases result with
  | ok status =>
    obtain ⟨hstatus, hquiet⟩ := hwarns
    refine ⟨⟨fun h => absurd h hstatus, ?_⟩, fun h => absurd h hstatus⟩
    rintro ⟨line, hline, hwarn⟩
    obtain ⟨notice, hnotice, rfl⟩ := List.mem_map.mp hline
    exact absurd hwarn (hquiet notice hnotice)
  | error error =>
    obtain ⟨before, rfl, hquiet⟩ := hwarns
    have hlast : (before ++ [Notice.sessionFailed error]).map (logged id) =
        before.map (logged id) ++ [.fault id error] := List.map_append
    rw [hlast]
    refine ⟨⟨fun _ => ⟨.fault id error, by simp, rfl⟩, fun _ => rfl⟩, ?_⟩
    intro _
    refine ⟨_, error, rfl, ?_, hresults error rfl⟩
    intro line hline
    obtain ⟨notice, hnotice, rfl⟩ := List.mem_map.mp hline
    exact hquiet notice hnotice

/-- A request without a key, in two chunks. -/
theorem log_of_stream_keyless :
    let run : Feeds := feedAll { id := 7 } {} [[0x0D], [0x0A]]
    let log := run.records.toList.map Record.line
    run.session.status = .failed ∧
      log = [⟨.warn, "7: handshake error: Sec-WebSocket-Key header not found"⟩] ∧
        ∃ before error, log = before ++ [.fault 7 error] ∧
          (∀ line ∈ before, line.severity ≠ .warn) ∧ .error error ∈ run.results := by
  have hstatus : (feedAll { id := 7 } {} [[0x0D], [0x0A]]).session.status = .failed := by
    decide +kernel
  exact ⟨hstatus, by decide +kernel, (log_of_stream 7 [[0x0D], [0x0A]]).2.2 hstatus⟩

/-- A request, a ping, and a frame that is not masked. -/
example :
    let request := Ascii.bytes "sec-websocket-key: dGhlIHNhbXBsZSBub25jZQ==\r\n\r\n"
    sessionLog 7 (request ++ [0x89, 0x81, 1, 2, 3, 4, 0x60, 0x82, 0x05]) =
      [⟨.debug, "received Sec-WebSocket-Key"⟩, ⟨.debug, "handshake response sent"⟩,
        ⟨.debug, "7: handshake complete"⟩, ⟨.trace, "7: recv: Ping frame"⟩,
        ⟨.trace, "7: recv: payload of 1 bytes"⟩, ⟨.trace, "7: send: pong of 1 bytes"⟩,
        ⟨.trace, "7: recv: Binary frame"⟩,
        ⟨.warn, "7: protocol error: client frame is not masked"⟩] := by
  decide +kernel

end Session

end WebSocket
