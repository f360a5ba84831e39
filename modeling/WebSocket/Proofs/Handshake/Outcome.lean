import WebSocket.Handshake.Negotiation
import WebSocket.Proofs.Channel.Unlimited
import WebSocket.Proofs.Grammar
import WebSocket.Proofs.Outcome

/-!
# What a negotiation comes to

A request is a stream of lines, and a negotiation takes them one after another. Its outcome on a
byte string says all that a run on a channel does (`advance_holding`), and it may be taken up again
wherever it waits (`resumable`).
-/

namespace WebSocket

def IsLine (line : List UInt8) : Prop :=
  ∃ body : List UInt8, 0x0A ∉ body ∧ line = body ++ [0x0A]

/-- Lines with their line feeds; the tail is the line that is not complete. -/
def lineGrammar : Grammar (List UInt8) where
  Item := IsLine
  encode := id
  next? bytes := (Channel.holding bytes).inbox.takeLine?.map fun (line, rest) => (line, rest.bytes)
  next?_eq_some_iff := by
    intro bytes rest line
    simp only [Option.map_eq_some_iff, Prod.exists, Prod.mk.injEq]
    constructor
    · intro h
      obtain ⟨line', inbox, htake, rfl, rfl⟩ := h
      obtain ⟨body, hbody, hline, hbytes⟩ := Inbox.takeLine?_eq_some_iff.mp htake
      exact ⟨⟨body, hbody, hline⟩, hbytes⟩
    · intro h
      obtain ⟨⟨body, hbody, hline⟩, hbytes⟩ := h
      exact ⟨line, { bytes := rest },
        Inbox.takeLine?_eq_some_iff.mpr ⟨body, hbody, hline, hbytes⟩, rfl, rfl⟩
  encode_ne_nil := by
    intro line h
    obtain ⟨body, -, rfl⟩ := h
    exact List.append_ne_nil_of_right_ne_nil _ (List.cons_ne_nil _ _)

theorem lineGrammar_next?_eq_none_iff {bytes : List UInt8} :
    lineGrammar.next? bytes = none ↔ Ascii.newline ∉ bytes := by
  rw [lineGrammar, Option.map_eq_none_iff, Inbox.takeLine?_eq_none_iff, Channel.bytes_holding]

theorem split_lines_append {lines : List (List UInt8)} (h : ∀ line ∈ lines, IsLine line)
    (rest : List UInt8) :
    lineGrammar.split (lines.flatten ++ rest) =
      (lines ++ (lineGrammar.split rest).1, (lineGrammar.split rest).2) := by
  rw [← List.flatMap_id]
  exact Grammar.split_flatMap_append (g := lineGrammar) h rest

theorem eq_flatten_split (bytes : List UInt8) :
    bytes = (lineGrammar.split bytes).1.flatten ++ (lineGrammar.split bytes).2 := by
  rw [← List.flatMap_id]
  exact lineGrammar.eq_append_split bytes

theorem line_induction {motive : List UInt8 → Prop}
    (tail : ∀ bytes, Ascii.newline ∉ bytes → motive bytes)
    (line : ∀ line rest, IsLine line → motive rest → motive (line ++ rest))
    (bytes : List UInt8) : motive bytes :=
  lineGrammar.stream_induction
    (fun bytes h => tail bytes (lineGrammar_next?_eq_none_iff.mp h)) line bytes

namespace Channel

theorem takeLine?_holding_append {line : List UInt8} (h : IsLine line) (rest : List UInt8)
    (sent : Array UInt8) :
    (holding (line ++ rest) sent).takeLine? = some (line, holding rest sent) := by
  obtain ⟨body, hbody, hline⟩ := h
  have htake : (holding (line ++ rest) sent).inbox.takeLine? = some (line, { bytes := rest }) :=
    Inbox.takeLine?_eq_some_iff.mpr ⟨body, hbody, hline, rfl⟩
  rw [takeLine?, htake]
  rfl

theorem takeLine?_holding_of_notMem {bytes : List UInt8} (h : Ascii.newline ∉ bytes)
    (sent : Array UInt8) : (holding bytes sent).takeLine? = none := by
  rw [takeLine?, Option.map_eq_none_iff, Inbox.takeLine?_eq_none_iff]
  exact h

end Channel

namespace Negotiation

def outcome (n : Negotiation) (bytes : List UInt8) : Outcome Negotiation Verdict :=
  let progress := n.advance (.holding bytes)
  { state := progress.negotiation
    unread := progress.channel.inbox.bytes
    verdict := progress.verdict
    effect :=
      { output := progress.channel.outgoing.toList, notices := progress.trace.notices.toList } }

/-- A run in which every line has been taken. -/
def waiting (n : Negotiation) (tail : List UInt8) : Outcome Negotiation Verdict :=
  { state := n, unread := tail, verdict := .pending }

/-- What a turn comes to with `rest` behind its line. -/
def followed (n : Negotiation) (rest : List UInt8) : Turn → Outcome Negotiation Verdict
  | .next later notices => (later.outcome rest).after { notices := notices.toList }
  | .accept accept =>
    { state := n, unread := rest, verdict := .done
      effect := { output := Response.bytes accept, notices := [.responseSent] } }
  | .refuse error => { state := n, unread := rest, verdict := .fault error }

theorem outcome_tail {tail : List UInt8} (h : Ascii.newline ∉ tail) (n : Negotiation) :
    n.outcome tail = n.waiting tail := by
  simp only [outcome, advance_of_none (Channel.takeLine?_holding_of_notMem h #[])]
  rfl

theorem outcome_line {line : List UInt8} (h : IsLine line) (n : Negotiation) (rest : List UInt8) :
    n.outcome (line ++ rest) = n.followed rest (n.step (.ofBytes line)) := by
  have hadvance := advance_of_some (n := n) (Channel.takeLine?_holding_append h rest #[])
  rw [outcome, hadvance]
  cases n.step (.ofBytes line) with
  | next later notices => simp [followed, outcome, Outcome.after, Effect.ext_iff]
  | accept accept => simp [followed]
  | refuse error => simp [followed]

theorem advance_after (n : Negotiation) (ch : Channel) (sent : Array UInt8) :
    n.advance (ch.after sent) =
      { n.advance ch with channel := (n.advance ch).channel.after sent } := by
  induction hsize : ch.inbox.size using Nat.strongRecOn generalizing n ch with
  | ind size ih =>
    have hline := ch.takeLine?_after sent
    cases h : ch.takeLine? with
    | none =>
      rw [h] at hline
      rw [advance_of_none h, advance_of_none hline]
    | some taken =>
      obtain ⟨line, rest⟩ := taken
      have hlt := hsize ▸ Channel.size_lt_of_takeLine? h
      rw [h] at hline
      rw [advance_of_some h, advance_of_some hline]
      cases n.step (.ofBytes line) with
      | next later notices => simp only [ih _ hlt later rest rfl]
      | accept accept => simp only [Channel.write_after]
      | refuse error => rfl

/-- Earlier output does not bear on a run. -/
theorem advance_holding (n : Negotiation) (bytes : List UInt8) (sent : Array UInt8) :
    n.advance (.holding bytes sent) =
      { negotiation := (n.outcome bytes).state
        channel := .holding (n.outcome bytes).unread (sent ++ (n.outcome bytes).effect.output)
        verdict := (n.outcome bytes).verdict
        trace := (n.advance (.holding bytes)).trace } := by
  induction bytes using line_induction generalizing n with
  | tail bytes hnotMem =>
    rw [outcome_tail hnotMem, advance_of_none (Channel.takeLine?_holding_of_notMem hnotMem _),
      advance_of_none (Channel.takeLine?_holding_of_notMem hnotMem _)]
    simp [waiting]
  | line line rest h ih =>
    have hline := Channel.takeLine?_holding_append h rest
    rw [outcome_line h, advance_of_some (hline sent),
      advance_of_some (hline #[])]
    cases n.step (.ofBytes line) with
    | next later notices =>
      dsimp only
      rw [ih later]
      rfl
    | accept accept => rfl
    | refuse error => simp [followed]

theorem newline_notMem_unread {n : Negotiation} {bytes : List UInt8}
    (h : (n.outcome bytes).verdict = .pending) : Ascii.newline ∉ (n.outcome bytes).unread := by
  induction bytes using line_induction generalizing n with
  | tail bytes hnotMem =>
    rw [outcome_tail hnotMem]
    exact hnotMem
  | line line rest hline ih =>
    rw [outcome_line hline] at h ⊢
    cases hstep : n.step (.ofBytes line) with
    | next later notices =>
      rw [hstep] at h
      exact ih h
    | accept accept =>
      rw [hstep] at h
      cases h
    | refuse error =>
      rw [hstep] at h
      cases h

private theorem outcome_append_of_pending {n : Negotiation} {bytes : List UInt8}
    (h : (n.outcome bytes).verdict = .pending) (more : List UInt8) :
    n.outcome (bytes ++ more) =
      ((n.outcome bytes).state.outcome ((n.outcome bytes).unread ++ more)).after
        (n.outcome bytes).effect := by
  induction bytes using line_induction generalizing n with
  | tail bytes hnotMem =>
    rw [outcome_tail hnotMem]
    rfl
  | line line rest hline ih =>
    rw [outcome_line hline] at h ⊢
    rw [List.append_assoc, outcome_line hline]
    cases hstep : n.step (.ofBytes line) with
    | next later notices =>
      rw [hstep] at h
      simp only [followed, ih h, Outcome.after_after]
      rfl
    | accept accept =>
      rw [hstep] at h
      cases h
    | refuse error =>
      rw [hstep] at h
      cases h

private theorem outcome_append_of_stopped {n : Negotiation} {bytes : List UInt8}
    (h : (n.outcome bytes).verdict ≠ .pending) (more : List UInt8) :
    n.outcome (bytes ++ more) = (n.outcome bytes).leaving more := by
  induction bytes using line_induction generalizing n with
  | tail bytes hnotMem =>
    rw [outcome_tail hnotMem] at h
    exact absurd rfl h
  | line line rest hline ih =>
    rw [outcome_line hline] at h ⊢
    rw [List.append_assoc, outcome_line hline]
    cases hstep : n.step (.ofBytes line) with
    | next later notices =>
      rw [hstep] at h
      simp only [followed, ih h]
      rfl
    | accept accept => rfl
    | refuse error => rfl

theorem resumable : Resumable (· = .pending) outcome where
  resume := outcome_append_of_pending
  stop := outcome_append_of_stopped

end Negotiation

end WebSocket
