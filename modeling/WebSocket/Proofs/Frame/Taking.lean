import WebSocket.Proofs.Frame.Resumption

/-!
# What is done with the bytes that were taken

However a channel rations its bytes, a reader takes some of them from the front, and all that it
does is what it would do if there were no others and no limits (`exists_uses_decode`). What the
bytes of a stream account for can so be told of any run that took them.
-/

namespace WebSocket

namespace Channel

theorem outgoing_of_takeExact? {ch rest : Channel} {n : Nat} {taken : Vector UInt8 n}
    (h : ch.takeExact? n = some (taken, rest)) : rest.outgoing = ch.outgoing := by
  obtain ⟨-, hread⟩ := takeExact?_eq_some_iff.mp h
  cases hread
  rfl

end Channel

namespace FrameReader

theorem exists_pair (taken : Vector UInt8 2) :
    ∃ first second, taken = #v[first, second] := by
  refine ⟨taken[0], taken[1], ?_⟩
  ext i hi
  have hcases : i = 0 ∨ i = 1 := by omega
  rcases hcases with rfl | rfl <;> rfl

/-- Work in two parts. -/
def Turn.then (first second : Turn) : Turn :=
  { second with
    delivered := first.delivered ++ second.delivered
    trace := first.trace ++ second.trace }

def Progress.turn (p : Progress) : Turn where
  reader := p.reader
  channel := p.channel
  verdict := some p.verdict
  delivered := p.delivered
  trace := p.trace

/-- What is seen of a turn on the channel. -/
structure Turn.Shows (t : Turn) (ch : Channel) (e : Effect) : Prop where
  data : t.delivered.toList.flatten = e.data
  output : t.channel.outgoing = ch.outgoing ++ e.output
  notices : t.trace.notices.toList = e.notices
  limits : t.channel.SameLimits ch

/-- A reader that takes this turn has taken these bytes, and has done with them what there is to do
with them: up to a verdict all, and before one a part that leaves nothing over. -/
structure Turn.Uses (t : Turn) (r : FrameReader) (ch : Channel) (taken : List UInt8) (e : Effect) :
    Prop extends t.Shows ch e where
  bytes : ch.inbox.bytes = taken ++ t.channel.inbox.bytes
  next : t.verdict = none → ∀ more, r.outcome (taken ++ more) = (t.reader.outcome more).after e
  last : ∀ verdict, t.verdict = some verdict →
    r.outcome taken = { state := t.reader, unread := [], verdict, effect := e }

/-! ## One turn -/

private theorem Turn.Shows.uses_next {t : Turn} {r : FrameReader} {ch : Channel} {e : Effect}
    {taken : List UInt8} (hshows : t.Shows ch e) (hverdict : t.verdict = none)
    (hbytes : ch.inbox.bytes = taken ++ t.channel.inbox.bytes)
    (h : ∀ more, r.outcome (taken ++ more) = (t.reader.outcome more).after e) :
    t.Uses r ch taken e where
  toShows := hshows
  bytes := hbytes
  next := fun _ => h
  last := by
    intro verdict hsome
    rw [hverdict] at hsome
    cases hsome

private theorem Turn.Shows.uses_last {t : Turn} {r : FrameReader} {ch : Channel} {e : Effect}
    {taken : List UInt8} {verdict : Verdict} (hshows : t.Shows ch e)
    (hverdict : t.verdict = some verdict)
    (hbytes : ch.inbox.bytes = taken ++ t.channel.inbox.bytes)
    (h : r.outcome taken = { state := t.reader, unread := [], verdict, effect := e }) :
    t.Uses r ch taken e where
  toShows := hshows
  bytes := hbytes
  next := by
    intro hnone
    rw [hverdict] at hnone
    cases hnone
  last := by
    intro verdict' hsome
    rw [hverdict] at hsome
    cases hsome
    exact h

private theorem uses_wait {t : Turn} {r : FrameReader} {ch : Channel} (hreader : t.reader = r)
    (hchannel : t.channel = ch) (hverdict : t.verdict = some .pending)
    (hdelivered : t.delivered = #[]) (hnotices : t.trace.notices = #[])
    (h : r.outcome [] = r.waiting []) : t.Uses r ch [] {} := by
  have hshows : t.Shows ch {} := by
    refine ⟨by simp [hdelivered], by simp [hchannel], by simp [hnotices], ?_⟩
    rw [hchannel]
    exact .refl ch
  apply hshows.uses_last hverdict
  · rw [hchannel]
    rfl
  · rw [hreader]
    exact h

private theorem uses_item {r next : FrameReader} {ch rest : Channel} {n : Nat}
    {taken : Vector UInt8 n} {trace : Trace} (htaken : ch.takeExact? n = some (taken, rest))
    (h : ∀ more, r.outcome (taken.toList ++ more) =
      (next.outcome more).after { notices := trace.notices.toList }) :
    Turn.Uses { reader := next, channel := rest, trace } r ch taken.toList
      { notices := trace.notices.toList } := by
  have hshows : Turn.Shows { reader := next, channel := rest, trace } ch
      { notices := trace.notices.toList } :=
    { data := rfl
      output := by simp [Channel.outgoing_of_takeExact? htaken]
      notices := rfl
      limits := Channel.sameLimits_of_takeExact? htaken }
  exact hshows.uses_next rfl (Channel.bytes_of_takeExact? htaken).symm h

private theorem exists_uses_header {ch rest : Channel} {first second : UInt8}
    (hbytes : ch.inbox.bytes = [first, second] ++ rest.inbox.bytes)
    (houtgoing : rest.outgoing = ch.outgoing) (hlimits : rest.SameLimits ch) :
    ∃ e, (readHeader first second rest).Uses header ch [first, second] e := by
  cases hop : Opcode.ofByte? first with
  | none =>
    simp only [readHeader, hop]
    refine ⟨{}, Turn.Shows.uses_last ⟨rfl, ?_, rfl, hlimits⟩ rfl hbytes ?_⟩
    · simp [houtgoing]
    · rw [outcome_header_unknown hop]
  | some opcode =>
    cases hpurpose : opcode.purpose? with
    | none =>
      simp only [readHeader, hop, hpurpose]
      refine ⟨{ output := ServerFrame.close.encode
                notices := [.frameReceived opcode, .closeReceived] },
        Turn.Shows.uses_last ⟨rfl, ?_, rfl, hlimits⟩ rfl hbytes ?_⟩
      · simp [houtgoing, Channel.write]
      · rw [outcome_header_close hop hpurpose]
    | some purpose =>
      by_cases hmask : second.toNat < 128
      · simp only [readHeader, hop, hpurpose, hmask, if_true]
        refine ⟨{ notices := [.frameReceived opcode] },
          Turn.Shows.uses_last ⟨rfl, ?_, rfl, hlimits⟩ rfl hbytes ?_⟩
        · simp [houtgoing]
        · rw [outcome_header_unmasked hop hpurpose hmask]
      · simp only [readHeader, hop, hpurpose, hmask, if_false]
        refine ⟨{ notices := [.frameReceived opcode] },
          Turn.Shows.uses_next ⟨rfl, ?_, rfl, hlimits⟩ rfl hbytes ?_⟩
        · simp [houtgoing]
        · exact outcome_header_masked hop hpurpose hmask

private theorem uses_finish {p : PartialPayload} (hzero : p.remaining = 0) (ch : Channel) :
    (finish p ch).Uses (payload p) ch [] (conclusion p) := by
  have hwhole := outcome_payload_zero hzero
  unfold finish
  cases hp : p.purpose with
  | data | pong =>
    simp only [conclusion, hp] at hwhole ⊢
    exact Turn.Shows.uses_next ⟨rfl, by simp, rfl, .refl ch⟩ rfl rfl hwhole
  | ping =>
    simp only [conclusion, hp] at hwhole ⊢
    exact Turn.Shows.uses_next ⟨rfl, rfl, rfl, .refl ch⟩ rfl rfl hwhole

private theorem uses_piece {p : PartialPayload} {ch : Channel} {n : Nat} {t : Turn}
    (hn : n ≤ p.remaining) (hverdict : t.verdict = none)
    (hreader : t.reader = payload (p.absorb (ch.inbox.bytes.take n)))
    (hchannel : t.channel = { ch with inbox := ch.inbox.drop n })
    (hdata : t.delivered.toList.flatten = p.yield (ch.inbox.bytes.take n))
    (hnotices : t.trace.notices = #[]) :
    t.Uses (payload p) ch (ch.inbox.bytes.take n) { data := p.yield (ch.inbox.bytes.take n) } := by
  have hle : (ch.inbox.bytes.take n).length ≤ p.remaining := by
    rw [List.length_take]
    omega
  refine Turn.Shows.uses_next ⟨hdata, ?_, ?_, ?_⟩ hverdict ?_ ?_
  · simp [hchannel]
  · simp [hnotices]
  · rw [hchannel]
    exact .refl ch
  · rw [hchannel]
    exact (List.take_append_drop n ch.inbox.bytes).symm
  · rw [hreader]
    exact outcome_payload_append hle

private theorem exists_uses_takePayload {p : PartialPayload} {ch : Channel} {count : Nat}
    (hpong : p.purpose ≠ .pong) (hzero : p.remaining ≠ 0) (hcount : count ≤ p.remaining) :
    ∃ taken e, (takePayload p count ch).Uses (payload p) ch taken e := by
  have hlen : (ch.read count).1.length = ch.readCount count := ch.length_read count
  by_cases hgiven : ch.readCount count = 0
  · have hrest : (ch.read count).2 = ch := by
      simp only [Channel.read, hgiven]
      rfl
    simp only [takePayload, hlen, hgiven, if_true, hrest]
    exact ⟨[], {}, uses_wait rfl rfl rfl rfl rfl (outcome_payload_nil hzero)⟩
  · have hle : ch.readCount count ≤ p.remaining := Nat.le_trans (ch.readCount_le count) hcount
    have hpiece : (ch.inbox.bytes.take (ch.readCount count)).length = ch.readCount count := hlen
    simp only [takePayload, hlen, hgiven, if_false]
    refine ⟨_, _, uses_piece hle rfl ?_ rfl ?_ rfl⟩
    · simp only [PartialPayload.absorb, hpong, hpiece, if_false]
      rfl
    · simp only [PartialPayload.yield]
      by_cases hdata : p.purpose = .data
      · simp [hdata, Channel.read]
      · simp [hdata]

private theorem exists_uses_payload (p : PartialPayload) (ch : Channel) :
    ∃ taken e, (readPayload p ch).Uses (payload p) ch taken e := by
  have havailable := ch.available_le
  unfold readPayload
  dsimp only
  by_cases hzero : p.remaining = 0
  · rw [if_pos hzero]
    exact ⟨_, _, uses_finish hzero ch⟩
  rw [if_neg hzero]
  by_cases hcount : min p.remaining ch.available = 0
  · rw [if_pos hcount]
    exact ⟨[], {}, uses_wait rfl rfl rfl rfl rfl (outcome_payload_nil hzero)⟩
  rw [if_neg hcount]
  have hle : min p.remaining ch.available ≤ p.remaining := Nat.min_le_left _ _
  by_cases hpong : p.purpose = .pong
  · rw [if_pos hpong]
    have hpiece : (ch.inbox.bytes.take (min p.remaining ch.available)).length =
        min p.remaining ch.available := by
      rw [List.length_take, ← ch.inbox.size_eq]
      omega
    refine ⟨_, _, uses_piece hle rfl ?_ rfl ?_ rfl⟩
    · simp [dropPayload, PartialPayload.absorb, hpong, hpiece]
    · simp [dropPayload, PartialPayload.yield, hpong]
  · rw [if_neg hpong]
    exact exists_uses_takePayload hpong hzero hle

/-- The only case analysis on the states of a reader. -/
theorem exists_uses_step (r : FrameReader) (ch : Channel) :
    ∃ taken e, (r.step ch).Uses r ch taken e := by
  cases r with
  | header =>
    simp only [step]
    cases htaken : ch.takeExact? 2 with
    | none => exact ⟨[], {}, uses_wait rfl rfl rfl rfl rfl (outcome_header_of_lt (by simp))⟩
    | some taken =>
      obtain ⟨pair, rest⟩ := taken
      obtain ⟨first, second, rfl⟩ := exists_pair pair
      exact ⟨_, exists_uses_header (Channel.bytes_of_takeExact? htaken).symm
        (Channel.outgoing_of_takeExact? htaken) (Channel.sameLimits_of_takeExact? htaken)⟩
  | length16 purpose =>
    simp only [step]
    cases htaken : ch.takeExact? 2 with
    | none =>
      exact ⟨[], {}, uses_wait rfl rfl rfl rfl rfl (outcome_length16_of_lt (by simp) purpose)⟩
    | some taken => exact ⟨_, _, uses_item htaken (outcome_length16 purpose taken.1)⟩
  | length64 purpose =>
    simp only [step]
    cases htaken : ch.takeExact? 8 with
    | none =>
      exact ⟨[], {}, uses_wait rfl rfl rfl rfl rfl (outcome_length64_of_lt (by simp) purpose)⟩
    | some taken => exact ⟨_, _, uses_item htaken (outcome_length64 purpose taken.1)⟩
  | maskKey purpose length =>
    simp only [step]
    cases htaken : ch.takeExact? 4 with
    | none =>
      exact ⟨[], {}, uses_wait rfl rfl rfl rfl rfl (outcome_maskKey_of_lt (by simp) purpose length)⟩
    | some taken => exact ⟨_, _, uses_item htaken (outcome_maskKey purpose length taken.1)⟩
  | payload p => exact exists_uses_payload p ch
  | closed =>
    refine ⟨[], {}, Turn.Shows.uses_last ⟨rfl, by simp [step], rfl, .refl ch⟩ rfl rfl ?_⟩
    exact outcome_closed _

/-! ## A run of turns -/

private theorem Turn.Uses.then {t u : Turn} {r : FrameReader} {ch : Channel} {e f : Effect}
    {taken later : List UInt8} (ht : t.Uses r ch taken e) (hverdict : t.verdict = none)
    (hu : u.Uses t.reader t.channel later f) : (t.then u).Uses r ch (taken ++ later) (e ++ f) where
  data := by simp [Turn.then, ht.data, hu.data]
  output := by
    rw [Turn.then, hu.output, ht.output]
    apply Array.toList_inj.mp
    simp
  notices := by simp [Turn.then, ht.notices, hu.notices]
  limits := hu.limits.trans ht.limits
  bytes := by
    rw [ht.bytes, hu.bytes, List.append_assoc]
    rfl
  next := by
    intro hnone more
    rw [List.append_assoc, ht.next hverdict, hu.next hnone, Outcome.after_after]
    rfl
  last := by
    intro verdict hsome
    rw [ht.next hverdict, hu.last verdict hsome]
    rfl

/-- What a run of steps does is what an unlimited one does with the bytes that it took. -/
theorem exists_uses_decode (r : FrameReader) (ch : Channel) :
    ∃ taken e, (r.decode ch).turn.Uses r ch taken e := by
  induction hw : r.weight ch using Nat.strongRecOn generalizing r ch with
  | ind w ih =>
    obtain ⟨taken, e, hstep⟩ := r.exists_uses_step ch
    cases hverdict : (r.step ch).verdict with
    | some verdict =>
      refine ⟨taken, e, ?_⟩
      rw [decode_of_some hverdict]
      simp only [Progress.turn, ← hverdict]
      exact hstep
    | none =>
      obtain ⟨later, f, hlater⟩ := ih _ (hw ▸ weight_step hverdict) _ _ rfl
      refine ⟨taken ++ later, e ++ f, ?_⟩
      rw [decode_of_none hverdict]
      exact hstep.then hverdict hlater

end FrameReader

end WebSocket
