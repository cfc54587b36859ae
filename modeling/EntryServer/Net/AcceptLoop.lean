import EntryServer.Net.Listener
import EntryServer.Net.Tracker

/-! # The accept loop

How slots and guards change hands while connections are accepted and served. To accept, the loop first takes
a slot and then waits for a peer; it may fail or be abandoned at either point, and gives the slot back then.
An accepted connection is counted and gets a task of its own, which holds the slot and the guard. A task that
comes to its end gives the guard back first and the slot after it. A task that is broken off, because it panics or
is cancelled, loses the slot first: its own variables go before those that it was started with. -/
namespace EntryServer.Net
set_option autoImplicit false

inductive Accepting
  /-- It waits for a free slot. -/
  | unslotted
  /-- It has a slot and waits for a peer. -/
  | slotted
  /-- A peer is there, and the connection is not yet counted. -/
  | accepted
  deriving DecidableEq, Repr

inductive Holding
  | slotAndGuard
  /-- The task comes to its end. -/
  | slot
  /-- The task was broken off. -/
  | guard
  deriving DecidableEq, Repr

namespace Holding

def hasSlot : Holding → Bool
  | slotAndGuard | slot => true
  | guard => false

def hasGuard : Holding → Bool
  | slotAndGuard | guard => true
  | slot => false

end Holding

structure AcceptLoop where
  listener : Listener
  tracker : Tracker
  accepting : Accepting
  /-- The tasks by the identifiers of their connections, in any order. -/
  tasks : List (Nat × Holding)
  deriving DecidableEq, Repr

namespace AcceptLoop

inductive Event
  | takeSlot
  | peerArrives
  /-- Accepting fails after a slot was taken. -/
  | fail
  /-- Accepting is given up, wherever it stands. -/
  | abandon
  /-- The accepted connection is counted and gets its task. -/
  | spawn
  /-- The task of a connection gives its guard back. -/
  | dropGuard (id : Nat)
  /-- The task of a connection gives its slot back and ends. -/
  | dropSlot (id : Nat)
  /-- The task of a connection panics or is cancelled, and loses its slot. -/
  | breakOff (id : Nat)
  /-- The task of a connection that was broken off loses its guard. -/
  | loseGuard (id : Nat)
  deriving DecidableEq, Repr

def start (l : Listener) : AcceptLoop := ⟨l, .new, .unslotted, []⟩

def giveUp (s : AcceptLoop) : AcceptLoop :=
  { s with
    listener := if s.accepting = .unslotted then s.listener else s.listener.release
    accepting := .unslotted }

/-- What an event leads to, if it can happen. -/
def step? (s : AcceptLoop) : Event → Option AcceptLoop
  | .takeSlot =>
    if s.accepting = .unslotted then
      s.listener.take?.map fun l => { s with listener := l, accepting := .slotted }
    else none
  | .peerArrives => if s.accepting = .slotted then some { s with accepting := .accepted } else none
  | .fail => if s.accepting = .slotted then some s.giveUp else none
  | .abandon => if s.accepting = .accepted then none else some s.giveUp
  | .spawn =>
    if s.accepting = .accepted then
      let (id, tracker) := s.tracker.track
      some { s with tracker := tracker, accepting := .unslotted, tasks := (id, .slotAndGuard) :: s.tasks }
    else none
  | .dropGuard id =>
    if (id, .slotAndGuard) ∈ s.tasks then
      s.tracker.release?.map fun tracker =>
        { s with tracker := tracker, tasks := (id, .slot) :: s.tasks.erase (id, .slotAndGuard) }
    else none
  | .dropSlot id =>
    if (id, .slot) ∈ s.tasks then
      some { s with listener := s.listener.release, tasks := s.tasks.erase (id, .slot) }
    else none
  | .breakOff id =>
    if (id, .slotAndGuard) ∈ s.tasks then
      some { s with
        listener := s.listener.release
        tasks := (id, .guard) :: s.tasks.erase (id, .slotAndGuard) }
    else none
  | .loseGuard id =>
    if (id, .guard) ∈ s.tasks then
      s.tracker.release?.map fun tracker =>
        { s with tracker := tracker, tasks := s.tasks.erase (id, .guard) }
    else none

def run? (s : AcceptLoop) (events : List Event) : Option AcceptLoop := events.foldlM step? s

/-- How many slots are held: by tasks, and by the accept under way. -/
def heldSlots (s : AcceptLoop) : Nat :=
  s.tasks.countP (·.2.hasSlot) + if s.accepting = .unslotted then 0 else 1

def heldGuards (s : AcceptLoop) : Nat := s.tasks.countP (·.2.hasGuard)

/-- How many tasks were broken off and still have their guards. -/
def brokenOff (s : AcceptLoop) : Nat := s.tasks.countP (·.2 = .guard)

/-- Accepts a waiting peer to the end, if a slot is free. Otherwise nothing changes. -/
def acceptOne (s : AcceptLoop) : AcceptLoop := (s.run? [.takeSlot, .peerArrives, .spawn]).getD s

/-- Lets a connection come to its end, if it is served. Otherwise nothing changes. -/
def finish (s : AcceptLoop) (id : Nat) : AcceptLoop := (s.run? [.dropGuard id, .dropSlot id]).getD s

end AcceptLoop
end EntryServer.Net
