import EntryServer.Net.Protocol

/-! # Connections

The bytes of a peer arrive in parts, and the cuts between them are an accident of the network. A connection
is told plain or encrypted by what arrives first. Those bytes are held and given back to whoever reads
next, so a reader sees every byte once and in order, whatever the parts were. -/
namespace EntryServer.Net
set_option autoImplicit false

structure Stream where
  /-- What is still to arrive, in its parts. -/
  arriving : List Bytes
  sent : Bytes
  deriving DecidableEq, Repr

namespace Stream

/-- At most `n` bytes of the next part that is not empty, and what is left. There is no such part at the
end. -/
def take (n : Nat) : List Bytes → Bytes × List Bytes
  | [] => ([], [])
  | [] :: rest => take n rest
  | part :: rest => (part.take n, part.drop n :: rest)

/-- Reads at most `n` bytes. No byte for a positive `n` is the end of the stream. -/
def read (s : Stream) (n : Nat) : Bytes × Stream :=
  let (bytes, arriving) := take n s.arriving
  (bytes, { s with arriving := arriving })

/-- Reads at most `n` bytes of what has arrived together with the bytes read last, without waiting for more. -/
def readArrived (s : Stream) (n : Nat) : Bytes × Stream :=
  match s.arriving with
  | [] => ([], s)
  | part :: rest => (part.take n, { s with arriving := part.drop n :: rest })

def write (s : Stream) (bytes : Bytes) : Stream := { s with sent := s.sent ++ bytes }

def unread (s : Stream) : Bytes := s.arriving.flatten

end Stream

/-- Bytes that are given back piece by piece, with the number of those that have been. -/
structure Held where
  bytes : Bytes
  given : Nat
  deriving DecidableEq, Repr

namespace Held

instance : Coe Bytes Held := ⟨fun bytes => ⟨bytes, 0⟩⟩

def rest (h : Held) : Bytes := h.bytes.drop h.given

/-- Gives back at most `n` bytes. Once all have been, none are held any more. -/
def give (h : Held) (n : Nat) : Bytes × Held :=
  let piece := h.rest.take n
  let given := h.given + piece.length
  (piece, if given = h.bytes.length then ⟨[], 0⟩ else ⟨h.bytes, given⟩)

end Held

/-- A stream with bytes that were taken from it and go before all others. -/
structure Replay where
  held : Held
  stream : Stream
  deriving DecidableEq, Repr

namespace Replay

/-- Reads from the held bytes while there are any, and from the stream after them. -/
def read (r : Replay) (n : Nat) : Bytes × Replay :=
  if r.held.given < r.held.bytes.length then
    let (bytes, held) := r.held.give n
    (bytes, { r with held := held })
  else
    let (bytes, stream) := r.stream.read n
    (bytes, { r with stream := stream })

def write (r : Replay) (bytes : Bytes) : Replay := { r with stream := r.stream.write bytes }

def unread (r : Replay) : Bytes := r.held.rest ++ r.stream.unread

end Replay

/-! ## Dispatch -/

/-- Waits for the first byte and takes it with whatever has arrived by then, up to the length that is looked at.
There is nothing to take from a stream that ends at once. -/
def sniff (s : Stream) : Option Replay :=
  match s.read 1 with
  | ([], _) => none
  | (first, s) =>
    let (more, s) := s.readArrived (sniffLength - 1)
    some ⟨first ++ more, s⟩

inductive DispatchError
  /-- It ended before its first byte. -/
  | ended
  /-- It is encrypted, and there is no certificate. -/
  | tlsUnavailable
  deriving DecidableEq, Repr

def DispatchError.message : DispatchError → String
  | ended => "Failed to read connection prefix: early eof"
  | tlsUnavailable => "TLS client but TLS is not configured"

/-- Tells what a connection speaks. The stream that goes with it replays the bytes that were looked at. -/
def dispatch (tlsAvailable : Bool) (s : Stream) : Except DispatchError (Protocol × Replay) :=
  match sniff s with
  | none => .error .ended
  | some r =>
    match classify r.held.bytes with
    | .http => .ok (.http, r)
    | .tls => if tlsAvailable then .ok (.tls, r) else .error .tlsUnavailable

end EntryServer.Net
