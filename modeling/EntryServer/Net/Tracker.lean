import EntryServer.Text.Ascii

/-! # Counting connections

Every served connection is counted from the moment it is admitted until its guard is given back, and has an
identifier. Count and identifiers are words of 64 bits and wrap; they are kept as their values. At the end of the
service open connections are waited for. -/
namespace EntryServer.Net
set_option autoImplicit false

structure Tracker where
  active : Nat
  nextId : Nat
  deriving DecidableEq, Repr

namespace Tracker

/-- How many values a counter has. -/
def wordSize : Nat := Nat.pow 2 64

def new : Tracker := ⟨0, 1⟩

/-- Counts a connection. Its guard is known by its identifier. -/
def track (t : Tracker) : Nat × Tracker :=
  (t.nextId, ⟨(t.active + 1) % wordSize, (t.nextId + 1) % wordSize⟩)

/-- Counts a connection no more when its guard is given back. From zero there is no count to go to: the counter
would wrap. -/
def release? (t : Tracker) : Option Tracker :=
  if t.active = 0 then none else some { t with active := t.active - 1 }

/-- Waits for the end of all connections: looks at the tracker time after time until none is active. The
wait is in vain if all looks up to the deadline find some. -/
def drains (looks : List Tracker) : Bool := looks.any (·.active = 0)

def display (id : Nat) : Text := "conn-".toList ++ (toString id).toList

end Tracker
end EntryServer.Net
