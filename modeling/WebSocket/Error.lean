/-!
# Why a conversation fails

A frame or an opening request that breaks the rules ends the session; an error names the rule and
the value that broke it, and `message` is its text.
-/

namespace WebSocket

inductive FrameError where
  /-- The low four bits of the first byte have no meaning. -/
  | unknownOpcode (code : Nat)
  | unmasked
deriving DecidableEq, Repr

def FrameError.message : FrameError → String
  | unknownOpcode code => "unknown opcode: " ++ toString code
  | unmasked => "client frame is not masked"

inductive HandshakeError where
  /-- The request ended without a key. -/
  | missingKey
  | keyLength (length : Nat)
deriving DecidableEq, Repr

def HandshakeError.message : HandshakeError → String
  | missingKey => "Sec-WebSocket-Key header not found"
  | keyLength length => "Sec-WebSocket-Key has invalid length " ++ toString length

inductive SessionError where
  | handshake (error : HandshakeError)
  | frame (error : FrameError)
deriving DecidableEq, Repr

def SessionError.message : SessionError → String
  | handshake error => "handshake error: " ++ error.message
  | frame error => "protocol error: " ++ error.message

end WebSocket
