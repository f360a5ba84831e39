/-!
# The other end of a byte stream

A peer is given by what it does at each call that is made on it: the data it has for a read, how
much it accepts of a write, and the calls at which it fails. After the last read event the stream is
at its end; after the last of the others everything succeeds.
-/

namespace WebSocket

/-- Why a call on a byte stream fails. -/
inductive Fault where
  | unexpectedEof
  | writeZero
  | brokenPipe
  | connectionAborted
  | connectionReset
  | interrupted
  | timedOut
deriving DecidableEq, Repr

def Fault.message : Fault → String
  | unexpectedEof => "unexpected end of file"
  | writeZero => "write zero"
  | brokenPipe => "broken pipe"
  | connectionAborted => "connection aborted"
  | connectionReset => "connection reset"
  | interrupted => "operation interrupted"
  | timedOut => "timed out"

inductive ReadEvent where
  /-- Given to one read or, piece by piece, to several; no bytes are the end of the stream, once. -/
  | data (bytes : List UInt8)
  | fault (fault : Fault)
deriving DecidableEq, Repr

inductive WriteEvent where
  | accept (most : Nat)
  | fault (fault : Fault)
deriving DecidableEq, Repr

/-- A call made on a peer. -/
inductive PeerCall where
  /-- The size of the buffer to be filled. -/
  | read (size : Nat)
  /-- All the bytes that were offered. -/
  | write (bytes : List UInt8)
  | flush
deriving DecidableEq, Repr

structure Peer where
  reads : List ReadEvent := []
  writes : List WriteEvent := []
  /-- The fault of each flush, if it fails. -/
  flushes : List (Option Fault) := []
  accepted : Array UInt8 := #[]

namespace Peer

/-- No bytes mean that the stream is at its end. -/
def read (p : Peer) (size : Nat) : Except Fault (List UInt8) × Peer :=
  match p.reads with
  | [] => (.ok [], p)
  | .fault fault :: reads => (.error fault, { p with reads })
  | .data bytes :: reads =>
    match bytes.drop size with
    | [] => (.ok bytes, { p with reads })
    | rest => (.ok (bytes.take size), { p with reads := .data rest :: reads })

/-- The outcome of offering bytes until all are accepted or a call fails. -/
structure Offer where
  fault : Option Fault
  writes : List WriteEvent
  accepted : Array UInt8
  calls : Array PeerCall

/-- A call that accepts nothing of what is left is a failure. -/
def offer : List WriteEvent → List UInt8 → Array UInt8 → Array PeerCall → Offer
  | writes, [], accepted, calls => { fault := none, writes, accepted, calls }
  | [], bytes, accepted, calls =>
    { fault := none, writes := [], accepted := accepted ++ bytes
      calls := calls.push (.write bytes) }
  | .accept most :: writes, bytes, accepted, calls =>
    let calls := calls.push (.write bytes)
    if most = 0 then { fault := some .writeZero, writes, accepted, calls }
    else offer writes (bytes.drop most) (accepted ++ bytes.take most) calls
  | .fault fault :: writes, bytes, accepted, calls =>
    { fault := some fault, writes, accepted, calls := calls.push (.write bytes) }

def flush (p : Peer) : Option Fault × Peer :=
  match p.flushes with
  | [] => (none, p)
  | fault :: flushes => (fault, { p with flushes })

/-- Writes all of `bytes` and flushes; the first call that fails is the last. -/
def send (p : Peer) (bytes : List UInt8) : Option Fault × Peer × Array PeerCall :=
  let offered := offer p.writes bytes p.accepted #[]
  let p := { p with writes := offered.writes, accepted := offered.accepted }
  match offered.fault with
  | some fault => (some fault, p, offered.calls)
  | none =>
    let (fault, p) := p.flush
    (fault, p, offered.calls.push .flush)

end Peer

end WebSocket
