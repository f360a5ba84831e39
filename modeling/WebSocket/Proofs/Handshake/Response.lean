import WebSocket.Proofs.Handshake.Request

/-!
# What a client can bring about in the response

Of what a client sends, a negotiation remembers nothing but an accept key (`Sound`), and an accept
key has neither a carriage return nor a line feed in it. So every response splits into the same five
lines, which differ in the twenty-eight characters of the accept key alone.
-/

namespace WebSocket

namespace Ascii

/-- The lines that carriage return and line feed end, and what follows the last of them. -/
def splitLines : List UInt8 → List (List UInt8) × List UInt8
  | a :: b :: rest =>
    if [a, b] = lineEnd then ([] :: (splitLines rest).1, (splitLines rest).2)
    else
      match splitLines (b :: rest) with
      | ([], tail) => ([], a :: tail)
      | (line :: lines, tail) => ((a :: line) :: lines, tail)
  | tail => ([], tail)

/-- Neither a carriage return nor a line feed is in it. -/
def Unbroken (line : List UInt8) : Prop :=
  ∀ b ∈ line, b ≠ 0x0D ∧ b ≠ 0x0A

instance (line : List UInt8) : Decidable (Unbroken line) :=
  inferInstanceAs (Decidable (∀ b ∈ line, b ≠ 0x0D ∧ b ≠ 0x0A))

theorem splitLines_append {line : List UInt8} (h : Unbroken line) (rest : List UInt8) :
    splitLines (line ++ lineEnd ++ rest) =
      (line :: (splitLines rest).1, (splitLines rest).2) := by
  induction line with
  | nil => rfl
  | cons a line ih =>
    obtain ⟨⟨hreturn, -⟩, hline⟩ := List.forall_mem_cons.mp h
    have hnotEnd (b : UInt8) : [a, b] ≠ lineEnd := by
      intro hend
      exact hreturn (List.cons.inj hend).1
    have hne : line ++ lineEnd ++ rest ≠ [] := by simp [lineEnd]
    obtain ⟨b, more, hmore⟩ := List.exists_cons_of_ne_nil hne
    have hsplit := ih hline
    rw [hmore] at hsplit
    rw [List.cons_append, List.cons_append, hmore, splitLines, if_neg (hnotEnd b), hsplit]

theorem splitLines_flatMap {lines : List (List UInt8)} (h : ∀ line ∈ lines, Unbroken line) :
    splitLines (lines.flatMap (· ++ lineEnd)) = (lines, []) := by
  induction lines with
  | nil => rfl
  | cons line lines ih =>
    obtain ⟨hline, hlines⟩ := List.forall_mem_cons.mp h
    rw [List.flatMap_cons, splitLines_append hline, ih hlines]

/-- A carriage return alone ends no line. -/
example : splitLines [0x61, 0x0D, 0x0D, 0x0A, 0x62] = ([[0x61, 0x0D]], [0x62]) := by decide

end Ascii

theorem IsAcceptKey.unbroken {key : List UInt8} {accept : String} (h : IsAcceptKey key accept) :
    Ascii.Unbroken (Ascii.bytes accept) := by
  obtain ⟨digits, haccept, -, hdigits⟩ := h.digits
  have hplain : Ascii.Unbroken (Base64.alphabet.map fun c => UInt8.ofNat c.toNat) := by
    decide +kernel
  intro b hb
  rw [Ascii.bytes, haccept, List.map_append, List.mem_append] at hb
  rcases hb with hdigit | hpadding
  · obtain ⟨c, hc, rfl⟩ := List.mem_map.mp hdigit
    exact hplain _ (List.mem_map_of_mem (hdigits c hc))
  · rw [List.mem_singleton.mp hpadding]
    decide

namespace Response

theorem unbroken_of_mem_lines {accept : String} (h : Ascii.Unbroken (Ascii.bytes accept)) :
    ∀ line ∈ (lines accept).map Ascii.bytes, Ascii.Unbroken line := by
  have haccept : Ascii.Unbroken (Ascii.bytes ("Sec-WebSocket-Accept: " ++ accept)) := by
    rw [Ascii.bytes_append]
    exact List.forall_mem_append.mpr ⟨by decide +kernel, h⟩
  simp only [lines, List.map_cons, List.map_nil, List.forall_mem_cons]
  exact ⟨by decide +kernel, by decide +kernel, by decide +kernel, haccept, by decide +kernel,
    List.forall_mem_nil _⟩

theorem splitLines_bytes {accept : String} (h : Ascii.Unbroken (Ascii.bytes accept)) :
    Ascii.splitLines (bytes accept) = ((lines accept).map Ascii.bytes, []) := by
  have hsplit := Ascii.splitLines_flatMap (unbroken_of_mem_lines h)
  rw [List.flatMap_map] at hsplit
  exact hsplit

end Response

theorem Channel.outgoing_of_takeLine? {ch rest : Channel} {line : List UInt8}
    (h : ch.takeLine? = some (line, rest)) : rest.outgoing = ch.outgoing := by
  obtain ⟨_, _, heq⟩ := Option.map_eq_some_iff.mp h
  cases heq
  rfl

namespace Negotiation

/-- The accept key of a key of the right length. -/
def IsOfKey (accept : String) : Prop :=
  ∃ key : List UInt8, key.length = 24 ∧ accept = acceptKey key

/-- Nothing but an accept key is remembered. -/
def Sound (n : Negotiation) : Prop :=
  ∀ accept ∈ n.accept, IsOfKey accept

/-- Nothing but an accept key is remembered or sent. -/
def Turn.Sound : Turn → Prop
  | .next later _ => later.Sound
  | .accept answer => IsOfKey answer
  | .refuse _ => True

theorem sound_fresh : Sound {} := by
  intro accept h
  cases h

theorem Sound.step {n : Negotiation} (h : n.Sound) (line : RequestLine) : (n.step line).Sound := by
  cases line with
  | other => exact h
  | key value =>
    rw [Negotiation.step]
    by_cases hlength : value.length = keyLength
    · rw [if_neg (fun hne => hne hlength)]
      by_cases hrepeated : n.accept.isSome
      · rw [if_pos hrepeated]
        exact h
      · rw [if_neg hrepeated]
        intro accept haccept
        cases haccept
        exact ⟨value, hlength, rfl⟩
    · rw [if_pos hlength]
      trivial
  | finish =>
    cases haccept : n.accept with
    | none =>
      simp only [Negotiation.step, haccept]
      trivial
    | some accept =>
      simp only [Negotiation.step, haccept]
      exact h accept haccept

theorem Sound.advance {n : Negotiation} (h : n.Sound) (ch : Channel) :
    (n.advance ch).negotiation.Sound ∧
      ((n.advance ch).verdict = .done →
        ∃ accept, IsOfKey accept ∧
          (n.advance ch).channel.outgoing.toList =
            ch.outgoing.toList ++ Response.bytes accept) := by
  induction hsize : ch.inbox.size using Nat.strongRecOn generalizing n ch with
  | ind size ih =>
    cases htake : ch.takeLine? with
    | none =>
      rw [advance_of_none htake]
      refine ⟨h, ?_⟩
      intro hdone
      cases hdone
    | some taken =>
      obtain ⟨line, rest⟩ := taken
      have hlt := hsize ▸ Channel.size_lt_of_takeLine? htake
      have hsent := Channel.outgoing_of_takeLine? htake
      have hturn := h.step (.ofBytes line)
      rw [advance_of_some htake]
      cases hstep : n.step (.ofBytes line) with
      | next later notices =>
        rw [hstep] at hturn
        rw [← hsent]
        exact ih _ hlt hturn rest rfl
      | accept accept =>
        rw [hstep] at hturn
        refine ⟨h, ?_⟩
        intro _
        refine ⟨accept, hturn, ?_⟩
        rw [← hsent]
        exact Channel.toList_outgoing_write rest _
      | refuse error =>
        refine ⟨h, ?_⟩
        intro hdone
        cases hdone

/-- One run of a negotiation, and the channel that it was run on. -/
structure Round where
  before : Channel
  progress : Progress

/-- What a run writes. -/
def Round.written (r : Round) : List UInt8 :=
  r.progress.channel.outgoing.toList.drop r.before.outgoing.toList.length

/-- One run after each chunk, whatever the runs before it came to. -/
def rounds (n : Negotiation) (ch : Channel) : List (List UInt8) → List Round
  | [] => []
  | chunk :: chunks =>
    let before := ch.receive chunk
    let progress := n.advance before
    { before, progress } :: progress.negotiation.rounds progress.channel chunks

/-- The response is the same for every client but for the accept key. -/
structure Round.Answers (r : Round) (accept : String) : Prop where
  appended : r.progress.channel.outgoing.toList = r.before.outgoing.toList ++ r.written
  written_eq : r.written =
    Ascii.bytes Response.head ++ Ascii.bytes accept ++ Ascii.bytes "\r\n\r\n"
  lines : Ascii.splitLines r.written =
    (["HTTP/1.1 101 Switching Protocols", "Upgrade: websocket", "Connection: Upgrade",
      "Sec-WebSocket-Accept: " ++ accept, ""].map Ascii.bytes, [])
  unbroken : ∀ line ∈ (Ascii.splitLines r.written).1, Ascii.Unbroken line

theorem Round.answers {r : Round} {accept : String} (haccept : Ascii.Unbroken (Ascii.bytes accept))
    (h : r.progress.channel.outgoing.toList =
      r.before.outgoing.toList ++ Response.bytes accept) : r.Answers accept := by
  have hwritten : r.written = Response.bytes accept := by
    rw [written, h, List.drop_left]
  have hsplit := Response.splitLines_bytes haccept
  constructor
  · rw [hwritten, h]
  · rw [hwritten, Response.bytes_eq]
  · rw [hwritten, hsplit]
    rfl
  · rw [hwritten, hsplit]
    exact Response.unbroken_of_mem_lines haccept

theorem Sound.answers {n : Negotiation} (h : n.Sound) (ch : Channel)
    (chunks : List (List UInt8)) :
    ∀ r ∈ n.rounds ch chunks, r.progress.verdict = .done →
      ∃ accept, IsOfKey accept ∧ r.Answers accept := by
  induction chunks generalizing n ch with
  | nil =>
    intro r hr
    cases hr
  | cons chunk chunks ih =>
    obtain ⟨hlater, hdone⟩ := h.advance (ch.receive chunk)
    intro r hr
    rcases List.mem_cons.mp hr with rfl | hr
    · intro hverdict
      obtain ⟨accept, ⟨key, hkey, rfl⟩, hsent⟩ := hdone hverdict
      have hshort : key.length < 2 ^ 60 := by omega
      have haccept := isAcceptKey_acceptKey hshort
      exact ⟨_, ⟨key, hkey, rfl⟩, Round.answers haccept.unbroken hsent⟩
    · exact ih hlater _ r hr

/-- An accept key is twenty-seven base 64 digits and one padding character that stand for the digest
of the client's key, and a response has nothing of the client in it but such an accept key. -/
theorem response_not_shaped :
    (∀ key : List UInt8, key.length < 2 ^ 60 → IsAcceptKey key (acceptKey key)) ∧
      ∀ (ch : Channel) (chunks : List (List UInt8)), ∀ r ∈ rounds {} ch chunks,
        r.progress.verdict = .done →
          ∃ key : List UInt8, key.length = 24 ∧ r.Answers (acceptKey key) := by
  refine ⟨fun key hkey => isAcceptKey_acceptKey hkey, ?_⟩
  intro ch chunks r hr hdone
  obtain ⟨accept, ⟨key, hkey, rfl⟩, hanswers⟩ := sound_fresh.answers ch chunks r hr hdone
  exact ⟨key, hkey, hanswers⟩

/-- A key with a carriage return and a byte outside ASCII in it, in a request that is cut in two;
and the accept key of the key that the protocol gives as a sample. -/
theorem response_not_shaped_unprintable :
    let key : List UInt8 := List.replicate 11 0x41 ++ [0x0D, 0xFF] ++ List.replicate 11 0x42
    let request := Ascii.bytes "Sec-WebSocket-Key: " ++ key ++ Ascii.lineEnd ++ Ascii.lineEnd
    let runs := rounds {} {} [request.take 30, request.drop 30]
    key.length < 2 ^ 60 ∧ IsAcceptKey key (acceptKey key) ∧
      runs.map (fun r => r.progress.verdict) = [.pending, .done] ∧
      (∃ r ∈ runs, r.progress.verdict = .done ∧
        ∃ key : List UInt8, key.length = 24 ∧ r.Answers (acceptKey key)) ∧
      acceptKey (Ascii.bytes "dGhlIHNhbXBsZSBub25jZQ==") = "s3pPLMBiTxaQ9kYGzzhZRbK+xOo=" := by
  intro key request runs
  have hkey : key.length < 2 ^ 60 := by decide
  have hverdicts : runs.map (fun r => r.progress.verdict) = [.pending, .done] := by decide +kernel
  have hmem : Verdict.done ∈ runs.map fun r => r.progress.verdict := by
    rw [hverdicts]
    decide
  obtain ⟨r, hr, hdone⟩ := List.mem_map.mp hmem
  have hanswers := response_not_shaped.2 {} _ r hr hdone
  exact ⟨hkey, response_not_shaped.1 key hkey, hverdicts, ⟨r, hr, hdone, hanswers⟩,
    by decide +kernel⟩

end Negotiation

end WebSocket
