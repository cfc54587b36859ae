import EntryServer.Net.SocketAddress

/-! # Listening

A listener has a slot for each connection that may be open at a time. A connection holds its slot as long as
it is open, and while no slot is free nothing is accepted. -/
namespace EntryServer.Net
set_option autoImplicit false

structure Listener where
  /-- How many connections may be open at a time. -/
  max : Nat
  free : Nat
  deriving DecidableEq, Repr

namespace Listener

inductive BindError
  | invalidAddress
  /-- More slots were asked for than can be counted. -/
  | tooManySlots
  deriving DecidableEq, Repr

def BindError.message : BindError → String
  | invalidAddress => "Failed to bind: invalid socket address syntax"
  | tooManySlots => "Failed to bind: too many connection slots"

def slotLimit : Nat := Nat.pow 2 61 - 1

def bind (address : Text) (max : Nat) : Except BindError Listener :=
  if !isSocketAddress address then .error .invalidAddress
  else if slotLimit < max then .error .tooManySlots
  else .ok ⟨max, max⟩

def take? (l : Listener) : Option Listener :=
  if l.free = 0 then none else some { l with free := l.free - 1 }

def release (l : Listener) : Listener := { l with free := l.free + 1 }

end Listener
end EntryServer.Net
