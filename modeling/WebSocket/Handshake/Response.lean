import WebSocket.Ascii

/-!
# The response to an opening request

Only the accept key depends on the request.
-/

namespace WebSocket.Response

/-- The status line, the header lines and the empty line. -/
def lines (accept : String) : List String :=
  ["HTTP/1.1 101 Switching Protocols", "Upgrade: websocket", "Connection: Upgrade",
    "Sec-WebSocket-Accept: " ++ accept, ""]

def bytes (accept : String) : List UInt8 :=
  (lines accept).flatMap fun line => Ascii.bytes line ++ Ascii.lineEnd

end WebSocket.Response
