/-! # The shutdown signal

The signal goes to everyone who is subscribed when it is given. The channel keeps one signal: a receiver
that has missed an older one is told so once, and then gets the one that is kept. A signal that is given
when nobody is subscribed is gone. -/
namespace EntryServer.Shutdown
set_option autoImplicit false

structure Channel where
  /-- How many signals have been kept so far. -/
  sent : Nat
  receivers : Nat
  deriving DecidableEq, Repr

/-- A subscription, with the number of the next signal for it. -/
structure Receiver where
  next : Nat
  deriving DecidableEq, Repr

inductive Received
  | signal
  | empty
  /-- Older signals are lost. -/
  | lagged
  deriving DecidableEq, Repr

namespace Channel

def new : Channel := ⟨0, 0⟩

def subscribe (c : Channel) : Receiver × Channel := (⟨c.sent⟩, { c with receivers := c.receivers + 1 })

def leave (c : Channel) : Channel := { c with receivers := c.receivers - 1 }

def trigger (c : Channel) : Channel :=
  if c.receivers = 0 then c else { c with sent := c.sent + 1 }

/-- Looks for a signal without waiting. -/
def receive (c : Channel) (r : Receiver) : Received × Receiver :=
  if r.next = c.sent then (.empty, r)
  else if r.next + 1 = c.sent then (.signal, ⟨c.sent⟩)
  else (.lagged, ⟨c.sent - 1⟩)

end Channel
end EntryServer.Shutdown
