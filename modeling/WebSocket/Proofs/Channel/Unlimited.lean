import Mathlib.Data.List.Basic
import WebSocket.Channel

/-!
# Channels without limits

A channel that rations nothing is given by the bytes it holds and the bytes written to it. What has
been written never bears on what is read: `after` puts earlier output in front of it, and every way
of taking bytes is the same with and without.
-/

namespace WebSocket.Channel

def holding (bytes : List UInt8) (sent : Array UInt8 := #[]) : Channel :=
  { inbox := { bytes }, outgoing := sent }

/-- The same channel, had `sent` been written to it before. -/
def after (ch : Channel) (sent : Array UInt8) : Channel :=
  { ch with outgoing := sent ++ ch.outgoing }

@[simp] theorem bytes_holding (bytes : List UInt8) (sent : Array UInt8) :
    (holding bytes sent).inbox.bytes = bytes := rfl

@[simp] theorem outgoing_holding (bytes : List UInt8) (sent : Array UInt8) :
    (holding bytes sent).outgoing = sent := rfl

@[simp] theorem available_holding (bytes : List UInt8) (sent : Array UInt8) :
    (holding bytes sent).available = bytes.length := rfl

theorem eq_holding {ch : Channel} (hw : ch.window = none) (hm : ch.maxRead = none) :
    ch = holding ch.inbox.bytes ch.outgoing := by
  obtain ⟨inbox, outgoing, window, maxRead⟩ := ch
  cases hw
  cases hm
  simp only [holding, mk.injEq, and_true]
  exact Inbox.ext_bytes rfl

@[simp] theorem receive_holding (bytes chunk : List UInt8) (sent : Array UInt8) :
    (holding bytes sent).receive chunk = holding (bytes ++ chunk) sent :=
  eq_holding rfl rfl

theorem receive_fresh (bytes : List UInt8) : ({} : Channel).receive bytes = holding bytes :=
  eq_holding rfl rfl

@[simp] theorem write_holding (bytes : List UInt8) (sent : Array UInt8) (out : List UInt8) :
    (holding bytes sent).write out = holding bytes (sent ++ out) := rfl

theorem holding_append (bytes : List UInt8) (sent : Array UInt8) (a b : List UInt8) :
    holding bytes (sent ++ a ++ b) = holding bytes (sent ++ (a ++ b)) := by
  congr 1
  apply Array.toList_inj.mp
  simp

@[simp] theorem after_holding (bytes : List UInt8) (sent before : Array UInt8) :
    (holding bytes sent).after before = holding bytes (before ++ sent) := rfl

@[simp] theorem skip_holding (bytes : List UInt8) (sent : Array UInt8) (n : Nat) :
    (holding bytes sent).skip n = holding (bytes.drop n) sent :=
  eq_holding rfl rfl

theorem read_holding (bytes : List UInt8) (sent : Array UInt8) {n : Nat} (h : n ≤ bytes.length) :
    (holding bytes sent).read n = (bytes.take n, holding (bytes.drop n) sent) := by
  have hcount : (holding bytes sent).readCount n = n := Nat.min_eq_left h
  simp only [read, hcount, Prod.mk.injEq]
  exact ⟨rfl, eq_holding rfl rfl⟩

theorem readExact_holding_append {n : Nat} (taken : Vector UInt8 n) (rest : List UInt8)
    (sent : Array UInt8) :
    (holding (taken.toList ++ rest) sent).readExact n = (taken, holding rest sent) := by
  have hlength : taken.toList.length = n := taken.length_toList
  have hfront : (taken.toList ++ rest).take n = taken.toList := List.take_left' hlength
  have hbytes : (((taken.toList ++ rest).take n).rightpad n 0) = taken.toList := by
    rw [hfront, List.rightpad, hlength, Nat.sub_self, List.replicate_zero, List.append_nil]
  have hrest : { holding (taken.toList ++ rest) sent with
      inbox := (holding (taken.toList ++ rest) sent).inbox.drop n } = holding rest sent := by
    apply (eq_holding rfl rfl).trans
    simp [Inbox.bytes_drop, List.drop_left' hlength]
  exact Prod.ext (Vector.toList_inj.mp hbytes) hrest

theorem takeExact?_holding_append {n : Nat} (taken : Vector UInt8 n) (rest : List UInt8)
    (sent : Array UInt8) :
    (holding (taken.toList ++ rest) sent).takeExact? n = some (taken, holding rest sent) :=
  takeExact?_eq_some_iff.mpr ⟨by simp, readExact_holding_append taken rest sent⟩

theorem takeExact?_holding_of_lt {bytes : List UInt8} {n : Nat} (h : bytes.length < n)
    (sent : Array UInt8) : (holding bytes sent).takeExact? n = none :=
  takeExact?_eq_none_iff.mpr h

theorem takeExact?_after (ch : Channel) (sent : Array UInt8) (n : Nat) :
    (ch.after sent).takeExact? n =
      (ch.takeExact? n).map fun (taken, rest) => (taken, rest.after sent) := by
  have havailable : (ch.after sent).available = ch.available := rfl
  unfold takeExact?
  rw [havailable]
  split <;> rfl

theorem takeLine?_after (ch : Channel) (sent : Array UInt8) :
    (ch.after sent).takeLine? = ch.takeLine?.map fun (line, rest) => (line, rest.after sent) := by
  simp only [takeLine?, after, Option.map_map]
  rfl

/-- The channels ration what they hand out in the same way. -/
def SameLimits (a b : Channel) : Prop :=
  a.window = b.window ∧ a.maxRead = b.maxRead

theorem SameLimits.refl (ch : Channel) : ch.SameLimits ch :=
  ⟨rfl, rfl⟩

theorem SameLimits.trans {a b c : Channel} (hab : a.SameLimits b) (hbc : b.SameLimits c) :
    a.SameLimits c :=
  ⟨hab.1.trans hbc.1, hab.2.trans hbc.2⟩

theorem sameLimits_of_takeExact? {ch rest : Channel} {n : Nat} {bytes : Vector UInt8 n}
    (h : ch.takeExact? n = some (bytes, rest)) : rest.SameLimits ch := by
  obtain ⟨-, hread⟩ := takeExact?_eq_some_iff.mp h
  cases hread
  exact .refl ch

theorem write_after (ch : Channel) (sent : Array UInt8) (out : List UInt8) :
    (ch.after sent).write out = (ch.write out).after sent := by
  have h : sent ++ ch.outgoing ++ out = sent ++ (ch.outgoing ++ out) := by
    apply Array.toList_inj.mp
    simp
  simp only [write, after, h]

end WebSocket.Channel
