import WebSocket.Ascii
import WebSocket.Base64
import WebSocket.Sha1

/-!
# Accept keys

A server shows that it understood an opening request by sending back a digest of the client's key.
-/

namespace WebSocket

/-- Joined to every key before the digest is taken. -/
def acceptGuid : String := "258EAFA5-E914-47DA-95CA-C5AB0DC85B11"

def acceptKey (key : List UInt8) : String :=
  String.ofList (Base64.encode (Sha1.digest (key ++ Ascii.bytes acceptGuid)))

example : acceptKey (Ascii.bytes "dGhlIHNhbXBsZSBub25jZQ==") = "s3pPLMBiTxaQ9kYGzzhZRbK+xOo=" := by
  decide +kernel

end WebSocket
