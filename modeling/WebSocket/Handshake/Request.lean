import WebSocket.Ascii

/-!
# Lines of an opening request

Of the lines that a client sends, the server heeds those with its key and the empty one at the end.
-/

namespace WebSocket

inductive RequestLine where
  | finish
  /-- The client's key, without the blanks around it. -/
  | key (value : List UInt8)
  | other
deriving DecidableEq, Repr

namespace RequestLine

def keyLabel : List UInt8 := Ascii.bytes "Sec-WebSocket-Key:"

/-- The meaning of a line that still has its line feed. -/
def ofBytes (line : List UInt8) : RequestLine :=
  if line = Ascii.lineEnd then finish
  else
    match Ascii.afterLabel? keyLabel line with
    | some rest => key (Ascii.trim rest)
    | none => other

end RequestLine

/-- Sixteen bytes in base 64. -/
def keyLength : Nat := 24

end WebSocket
