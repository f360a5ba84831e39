import WebSocket.Proofs.Handshake.Outcome

/-!
# What goes through a channel

Whatever is done to a channel, what arrived is what was taken and then what still waits, and what
was written is what was collected and then what is still there (`Keeps.run`). Taking is always from
the front (`takesFromFront`), and neither direction bears on the other (`sides_run`). Lines that are
taken as bytes arrive are the lines of all the bytes (`linesOnArrival_holding`), however these were
cut.
-/

namespace WebSocket

/-- A prefix that ends in a line feed, and no shorter one does. -/
structure IsFirstLine (line bytes : List UInt8) : Prop where
  isPrefix : line <+: bytes
  ends : line.getLast? = some 0x0A
  shortest : ∀ start, start <+: bytes → start.getLast? = some 0x0A →
    line.length ≤ start.length

theorem IsLine.isFirstLine {line : List UInt8} (h : IsLine line) (rest : List UInt8) :
    IsFirstLine line (line ++ rest) := by
  obtain ⟨body, hbody, rfl⟩ := h
  refine ⟨List.prefix_append _ _, List.getLast?_concat, ?_⟩
  intro start hstart hends
  by_contra hshort
  rw [List.length_append, List.length_singleton] at hshort
  have hlength : start.length ≤ body.length := by omega
  have hwithin : start <+: body := by
    apply List.prefix_of_prefix_length_le hstart _ hlength
    rw [List.append_assoc]
    exact List.prefix_append _ _
  exact hbody (hwithin.subset (List.mem_of_getLast? hends))

namespace Channel

/-! ## Lines as they arrive -/

theorem newline_notMem_split (bytes : List UInt8) :
    Ascii.newline ∉ (lineGrammar.split bytes).2 :=
  lineGrammar_next?_eq_none_iff.mp (lineGrammar.next?_split bytes)

/-- Takes lines until none is complete. -/
def takeLines (ch : Channel) : List (List UInt8) × Channel :=
  match _h : ch.takeLine? with
  | none => ([], ch)
  | some (line, rest) => (line :: rest.takeLines.1, rest.takeLines.2)
termination_by ch.inbox.size
decreasing_by all_goals exact size_lt_of_takeLine? _h

/-- Takes all complete lines after each arrival. -/
def linesOnArrival (ch : Channel) : List (List UInt8) → List (List UInt8) × Channel
  | [] => ([], ch)
  | chunk :: chunks =>
    let (now, rest) := (ch.receive chunk).takeLines
    let (later, last) := rest.linesOnArrival chunks
    (now ++ later, last)

theorem takeLines_of_none {ch : Channel} (h : ch.takeLine? = none) : ch.takeLines = ([], ch) := by
  rw [takeLines]
  split
  · rfl
  · rename_i heq
    rw [h] at heq
    cases heq

theorem takeLines_of_some {ch rest : Channel} {line : List UInt8}
    (h : ch.takeLine? = some (line, rest)) :
    ch.takeLines = (line :: rest.takeLines.1, rest.takeLines.2) := by
  rw [takeLines]
  split
  · rename_i heq
    rw [h] at heq
    cases heq
  · rename_i heq
    rw [h] at heq
    cases heq
    rfl

theorem takeLines_holding (bytes : List UInt8) (sent : Array UInt8) :
    (holding bytes sent).takeLines =
      ((lineGrammar.split bytes).1, holding (lineGrammar.split bytes).2 sent) := by
  induction bytes using line_induction with
  | tail bytes hnotMem =>
    rw [takeLines_of_none (takeLine?_holding_of_notMem hnotMem sent),
      Grammar.split_of_none (lineGrammar_next?_eq_none_iff.mpr hnotMem)]
  | line line rest hline ih =>
    have hsplit := Grammar.split_encode_append (g := lineGrammar) hline rest
    rw [takeLines_of_some (takeLine?_holding_append hline rest sent), ih]
    exact (congrArg (fun s => (s.1, holding s.2 sent)) hsplit).symm

theorem linesOnArrival_holding {tail : List UInt8} (h : Ascii.newline ∉ tail)
    (sent : Array UInt8) (chunks : List (List UInt8)) :
    (holding tail sent).linesOnArrival chunks =
      ((lineGrammar.split (tail ++ chunks.flatten)).1,
        holding (lineGrammar.split (tail ++ chunks.flatten)).2 sent) := by
  induction chunks generalizing tail with
  | nil =>
    rw [List.flatten_nil, List.append_nil,
      Grammar.split_of_none (lineGrammar_next?_eq_none_iff.mpr h)]
    rfl
  | cons chunk chunks ih =>
    rw [linesOnArrival, receive_holding, takeLines_holding]
    dsimp only
    rw [ih (newline_notMem_split _), List.flatten_cons, ← List.append_assoc,
      Grammar.split_append (tail ++ chunk)]

/-! ## Taking from the front -/

/-- The first `n` bytes, and the channel without them. -/
def front (ch : Channel) (n : Nat) : List UInt8 × Channel :=
  (ch.inbox.bytes.take n, { ch with inbox := ch.inbox.drop n })

private theorem exists_takeLine?_eq_front {ch : Channel} (h : Ascii.newline ∈ ch.inbox.bytes) :
    ∃ n, IsFirstLine (ch.front n).1 ch.inbox.bytes ∧ ch.takeLine? = some (ch.front n) := by
  obtain ⟨body, rest, hbytes, hbody⟩ := List.eq_append_cons_of_mem h
  rw [List.append_cons] at hbytes
  have hline : IsLine (body ++ [Ascii.newline]) := ⟨body, hbody, rfl⟩
  have hdrop : ch.inbox.drop (body ++ [Ascii.newline]).length = { bytes := rest } := by
    apply Inbox.ext_bytes
    rw [Inbox.bytes_drop, hbytes, List.drop_left]
  have hfront : ch.front (body ++ [Ascii.newline]).length =
      (body ++ [Ascii.newline], { ch with inbox := { bytes := rest } }) := by
    rw [front, hdrop, hbytes, List.take_left]
  have htake : ch.inbox.takeLine? = some (body ++ [Ascii.newline], { bytes := rest }) :=
    Inbox.takeLine?_eq_some_iff.mpr ⟨body, hbody, rfl, hbytes⟩
  refine ⟨(body ++ [Ascii.newline]).length, ?_, ?_⟩
  · rw [hfront, hbytes]
    exact hline.isFirstLine rest
  · rw [hfront, takeLine?, htake]
    rfl

/-- Each way of taking bytes takes them from the front, as many as asked for or as there are. -/
structure TakesFromFront (ch : Channel) : Prop where
  available_eq : ch.available = ch.inbox.bytes.length
  read : ∀ n, ch.read n = ch.front (min n ch.available)
  skip : ∀ n, ch.skip n = (ch.front (min n ch.available)).2
  exact : ∀ n ≤ ch.available,
    (ch.takeExact? n).map (fun (bytes, rest) => (bytes.toList, rest)) = some (ch.front n)
  line : 0x0A ∈ ch.inbox.bytes →
    ∃ n, IsFirstLine (ch.front n).1 ch.inbox.bytes ∧ ch.takeLine? = some (ch.front n)
  noLine : 0x0A ∉ ch.inbox.bytes → ch.takeLine? = none

theorem takesFromFront {ch : Channel} (h : ch.SameLimits {}) : ch.TakesFromFront := by
  obtain ⟨hwindow, hmaxRead⟩ := h
  have havailable : ch.available = ch.inbox.size := by
    rw [available, hwindow]
    rfl
  constructor
  · rw [havailable, ch.inbox.size_eq]
  · intro n
    have hcount : ch.readCount n = min n ch.available := by
      rw [readCount, hmaxRead, havailable]
      rfl
    rw [Channel.read, hcount]
    rfl
  · intro n
    have hdrop : ch.inbox.drop n = ch.inbox.drop (min n ch.available) := by
      apply Inbox.ext_bytes
      rw [Inbox.bytes_drop, Inbox.bytes_drop, havailable, ch.inbox.size_eq, ← List.drop_eq_drop_min]
    rw [Channel.skip, hdrop]
    rfl
  · intro n hn
    have hsize := Nat.le_trans hn ch.available_le
    have hlength : (ch.inbox.bytes.take n).length = n := by
      rw [List.length_take, ← ch.inbox.size_eq, Nat.min_eq_left hsize]
    have hbytes : (ch.readExact n).1.toList = ch.inbox.bytes.take n := by
      show (ch.inbox.bytes.take n).rightpad n 0 = ch.inbox.bytes.take n
      rw [List.rightpad, hlength, Nat.sub_self, List.replicate_zero, List.append_nil]
    rw [takeExact?, if_neg (Nat.not_lt_of_le hn), Option.map_some]
    dsimp only
    rw [hbytes]
    rfl
  · exact exists_takeLine?_eq_front
  · intro hnotMem
    rw [takeLine?, Inbox.takeLine?_eq_none_iff.mpr hnotMem]
    rfl

/-! ## Histories -/

inductive Operation where
  | arrive (bytes : List UInt8)
  | takeLine
  | takeExact (n : Nat)
  | read (n : Nat)
  | skip (n : Nat)
  | write (bytes : List UInt8)
  | flush
  | collect

namespace Operation

def arrived : Operation → List UInt8
  | arrive bytes => bytes
  | takeLine | takeExact _ | read _ | skip _ | write _ | flush | collect => []

def written : Operation → List UInt8
  | write bytes => bytes
  | arrive _ | takeLine | takeExact _ | read _ | skip _ | flush | collect => []

/-- The operations on what arrives; the others are on what is sent. -/
def comesIn : Operation → Bool
  | arrive _ | takeLine | takeExact _ | read _ | skip _ => true
  | write _ | flush | collect => false

end Operation

/-- A channel, and all that has been taken from it in either direction, one entry for each time. -/
structure History where
  channel : Channel := {}
  taken : List (List UInt8) := []
  collected : List (List UInt8) := []

namespace History

/-- Nothing changes where nothing was found. -/
def take (x : History) : Option (List UInt8 × Channel) → History
  | none => x
  | some (bytes, rest) => { x with channel := rest, taken := x.taken ++ [bytes] }

/-- An exact read of more than there is does not take place, and there is nothing to flush. -/
def step (x : History) : Operation → History
  | .arrive bytes => { x with channel := x.channel.receive bytes }
  | .takeLine => x.take x.channel.takeLine?
  | .takeExact n => x.take ((x.channel.takeExact? n).map fun (bytes, rest) => (bytes.toList, rest))
  | .read n => x.take (some (x.channel.read n))
  | .skip n => x.take (some (x.channel.inbox.bytes.take n, x.channel.skip n))
  | .write bytes => { x with channel := x.channel.write bytes }
  | .flush => x
  | .collect =>
    let (bytes, rest) := x.channel.collect
    { x with channel := rest, collected := x.collected ++ [bytes] }

def run (x : History) (ops : List Operation) : History :=
  ops.foldl step x

/-! ### What is kept -/

/-- The channel has no limits, and nothing is lost in either direction. -/
structure Keeps (x : History) (arrived written : List UInt8) : Prop where
  unlimited : x.channel.SameLimits {}
  incoming : x.taken.flatten ++ x.channel.inbox.bytes = arrived
  outgoing : x.collected.flatten ++ x.channel.outgoing.toList = written

variable {x : History} {arrived written : List UInt8}

theorem Keeps.front (h : x.Keeps arrived written) (n : Nat) :
    (x.take (some (x.channel.front n))).Keeps arrived written := by
  refine ⟨h.unlimited, ?_, h.outgoing⟩
  show (x.taken ++ [x.channel.inbox.bytes.take n]).flatten ++ x.channel.inbox.bytes.drop n = arrived
  rw [List.flatten_append, List.flatten_singleton, List.append_assoc, List.take_append_drop,
    h.incoming]

theorem Keeps.step (h : x.Keeps arrived written) (op : Operation) :
    (x.step op).Keeps (arrived ++ op.arrived) (written ++ op.written) := by
  have htakes := takesFromFront h.unlimited
  cases op with
  | arrive bytes =>
    refine ⟨h.unlimited, ?_, h.outgoing.trans (List.append_nil _).symm⟩
    show x.taken.flatten ++ (x.channel.inbox.bytes ++ bytes) = arrived ++ bytes
    rw [← List.append_assoc, h.incoming]
  | write bytes =>
    refine ⟨h.unlimited, h.incoming.trans (List.append_nil _).symm, ?_⟩
    show x.collected.flatten ++ (x.channel.write bytes).outgoing.toList = written ++ bytes
    rw [toList_outgoing_write, ← List.append_assoc, h.outgoing]
  | takeLine =>
    simp only [Operation.arrived, Operation.written, List.append_nil, History.step]
    by_cases hmem : Ascii.newline ∈ x.channel.inbox.bytes
    · obtain ⟨n, -, htake⟩ := htakes.line hmem
      rw [htake]
      exact h.front n
    · rw [htakes.noLine hmem]
      exact h
  | takeExact n =>
    simp only [Operation.arrived, Operation.written, List.append_nil, History.step]
    by_cases hn : n ≤ x.channel.available
    · rw [htakes.exact n hn]
      exact h.front n
    · rw [takeExact?_eq_none_iff.mpr (Nat.lt_of_not_le hn)]
      exact h
  | read n =>
    simp only [Operation.arrived, Operation.written, List.append_nil, History.step, htakes.read]
    exact h.front _
  | skip n =>
    simp only [Operation.arrived, Operation.written, List.append_nil]
    exact h.front n
  | flush =>
    simp only [Operation.arrived, Operation.written, List.append_nil]
    exact h
  | collect =>
    refine ⟨h.unlimited, h.incoming.trans (List.append_nil _).symm, ?_⟩
    show (x.collected ++ [x.channel.outgoing.toList]).flatten ++ [] = written ++ []
    rw [List.flatten_append, List.flatten_singleton, h.outgoing]

theorem Keeps.run (h : x.Keeps arrived written) (ops : List Operation) :
    (x.run ops).Keeps (arrived ++ ops.flatMap Operation.arrived)
      (written ++ ops.flatMap Operation.written) := by
  induction ops generalizing x arrived written with
  | nil =>
    rw [List.flatMap_nil, List.flatMap_nil, List.append_nil, List.append_nil]
    exact h
  | cons op ops ih =>
    rw [List.flatMap_cons, List.flatMap_cons, ← List.append_assoc, ← List.append_assoc]
    exact ih (h.step op)

theorem keeps_fresh : Keeps {} [] [] :=
  ⟨.refl _, rfl, rfl⟩

/-! ### The two directions -/

/-- Nothing but what has to do with what arrives. -/
def incoming (x : History) : History :=
  { x with channel := { x.channel with outgoing := #[] }, collected := [] }

/-- Nothing but what has to do with what is sent. -/
def outgoing (x : History) : History :=
  { x with channel := { x.channel with inbox := {} }, taken := [] }

theorem sides_step_of_comesIn (x : History) {op : Operation} (h : op.comesIn = true) :
    (x.step op).incoming = x.incoming.step op ∧ (x.step op).outgoing = x.outgoing := by
  cases op with
  | arrive bytes => exact ⟨rfl, rfl⟩
  | takeLine =>
    simp only [step, takeLine?, incoming]
    cases x.channel.inbox.takeLine? with
    | none => exact ⟨rfl, rfl⟩
    | some found => exact ⟨rfl, rfl⟩
  | takeExact n =>
    by_cases hn : x.channel.available < n
    · have hn' : x.incoming.channel.available < n := hn
      simp only [step, takeExact?, if_pos hn, if_pos hn']
      exact ⟨rfl, rfl⟩
    · have hn' : ¬ x.incoming.channel.available < n := hn
      simp only [step, takeExact?, if_neg hn, if_neg hn']
      exact ⟨rfl, rfl⟩
  | read n => exact ⟨rfl, rfl⟩
  | skip n => exact ⟨rfl, rfl⟩
  | write | flush | collect => cases h

theorem sides_step_of_not_comesIn (x : History) {op : Operation} (h : op.comesIn = false) :
    (x.step op).incoming = x.incoming ∧ (x.step op).outgoing = x.outgoing.step op := by
  cases op with
  | arrive | takeLine | takeExact | read | skip => cases h
  | write bytes => exact ⟨rfl, rfl⟩
  | flush => exact ⟨rfl, rfl⟩
  | collect => exact ⟨rfl, rfl⟩

/-- Each side of a history is the history of its own operations. -/
theorem sides_run (x : History) (ops : List Operation) :
    (x.run ops).incoming = x.incoming.run (ops.filter Operation.comesIn) ∧
      (x.run ops).outgoing = x.outgoing.run (ops.filter fun op => !op.comesIn) := by
  induction ops generalizing x with
  | nil => exact ⟨rfl, rfl⟩
  | cons op ops ih =>
    obtain ⟨hincoming, houtgoing⟩ := ih (x.step op)
    cases hop : op.comesIn with
    | true =>
      obtain ⟨hin, hout⟩ := sides_step_of_comesIn x hop
      rw [List.filter_cons_of_pos hop, List.filter_cons_of_neg (by simp [hop])]
      rw [hin] at hincoming
      rw [hout] at houtgoing
      exact ⟨hincoming, houtgoing⟩
    | false =>
      obtain ⟨hin, hout⟩ := sides_step_of_not_comesIn x hop
      rw [List.filter_cons_of_neg (by simp [hop]), List.filter_cons_of_pos (by simp [hop])]
      rw [hin] at hincoming
      rw [hout] at houtgoing
      exact ⟨hincoming, houtgoing⟩

/-- After any operations nothing is lost, neither direction has touched the other, bytes are taken
from the front, and lines come as if all bytes had arrived at once. -/
theorem conserved (ops : List Operation) :
    let past := run {} ops
    past.taken.flatten ++ past.channel.inbox.bytes = ops.flatMap Operation.arrived ∧
      past.collected.flatten ++ past.channel.outgoing.toList = ops.flatMap Operation.written ∧
      past.incoming = run {} (ops.filter Operation.comesIn) ∧
      past.outgoing = run {} (ops.filter fun op => !op.comesIn) ∧
      past.channel.TakesFromFront ∧
      past.channel.takeLines.2.takeLine? = none ∧
      (0x0A ∉ past.channel.inbox.bytes →
        ∀ chunks chunks' : List (List UInt8), chunks.flatten = chunks'.flatten →
          past.channel.linesOnArrival chunks = past.channel.linesOnArrival chunks') := by
  intro past
  have hkeeps : past.Keeps (ops.flatMap Operation.arrived) (ops.flatMap Operation.written) :=
    keeps_fresh.run ops
  obtain ⟨hwindow, hmaxRead⟩ := hkeeps.unlimited
  have hchannel := eq_holding hwindow hmaxRead
  obtain ⟨hincoming, houtgoing⟩ := sides_run {} ops
  refine ⟨hkeeps.incoming, hkeeps.outgoing, hincoming, houtgoing,
    takesFromFront hkeeps.unlimited, ?_, ?_⟩
  · rw [hchannel, takeLines_holding]
    exact takeLine?_holding_of_notMem (newline_notMem_split _) _
  · intro hnotMem chunks chunks' hflatten
    rw [hchannel, linesOnArrival_holding hnotMem, linesOnArrival_holding hnotMem, hflatten]

/-- A line has been taken and half of the next one is there; its end comes whole, or in two
parts. -/
theorem conserved_midline :
    let past := run {} [.arrive [0x61, 0x0A, 0x62], .takeLine, .write [1], .read 0, .collect]
    0x0A ∉ past.channel.inbox.bytes ∧
      past.taken.flatten ++ past.channel.inbox.bytes = [0x61, 0x0A, 0x62] ∧
      past.channel.linesOnArrival [[0x63, 0x0A]] =
        past.channel.linesOnArrival [[0x63], [], [0x0A]] := by
  intro past
  have hnotMem : 0x0A ∉ past.channel.inbox.bytes := by decide
  obtain ⟨hincoming, -, -, -, -, -, hsegmented⟩ :=
    conserved [.arrive [0x61, 0x0A, 0x62], .takeLine, .write [1], .read 0, .collect]
  exact ⟨hnotMem, hincoming, hsegmented hnotMem _ _ rfl⟩

end History

end Channel

end WebSocket
