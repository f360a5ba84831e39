/-!
# ASCII text in byte strings

Bytes of an ASCII text, the blank bytes and their trimming, and prefixes compared without regard to
case. Bytes outside ASCII are neither letters nor blanks.
-/

namespace WebSocket.Ascii

/-- One byte per character; meant for texts of ASCII characters only. -/
def bytes (text : String) : List UInt8 :=
  text.toList.map fun c => UInt8.ofNat c.toNat

@[simp] theorem bytes_append (s t : String) : bytes (s ++ t) = bytes s ++ bytes t := by
  simp [bytes]

/-- The line feed. -/
def newline : UInt8 := 0x0A

/-- Carriage return and line feed. -/
def lineEnd : List UInt8 := [0x0D, 0x0A]

/-- Space, tab, line feed, form feed and carriage return; the vertical tab is not blank. -/
def isBlank (b : UInt8) : Bool :=
  b == 0x20 || b == 0x09 || b == 0x0A || b == 0x0C || b == 0x0D

def toLower (b : UInt8) : UInt8 :=
  if 0x41 ≤ b ∧ b ≤ 0x5A then b + 0x20 else b

/-- Without the blanks at both ends. -/
def trim (bs : List UInt8) : List UInt8 :=
  ((bs.dropWhile isBlank).reverse.dropWhile isBlank).reverse

/-- What follows `label` at the front of `bs`, where letters match in either case. -/
def afterLabel? (label bs : List UInt8) : Option (List UInt8) :=
  if (bs.take label.length).map toLower = label.map toLower then some (bs.drop label.length)
  else none

end WebSocket.Ascii
