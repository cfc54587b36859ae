import EntryServer.Shutdown.Channel

/-! # Who hears of the shutdown

The order in which the service, the task that waits for a termination signal, the accept loop and the
connections come to the shutdown channel. The task may give the signal at any time after it was started.
The accept loop subscribes when it begins, subscribes each connection when it is accepted, and ends when it
has heard the signal. A connection may end at any time, and its subscription ends with it. -/
namespace EntryServer.Shutdown
set_option autoImplicit false

/-- A subscription with what has become of it. -/
structure Subscription where
  receiver : Receiver
  /-- Has the receiver found a signal, or heard of a lost one? -/
  informed : Bool
  deriving DecidableEq, Repr

structure Service where
  channel : Channel
  /-- Does the task wait for a termination signal? -/
  watching : Bool
  triggered : Bool
  /-- The subscription of the accept loop, once it has begun. -/
  loop : Option Subscription
  /-- The subscriptions of the open connections, in the order in which they were accepted. -/
  connections : List Subscription
  deriving DecidableEq, Repr

inductive Event
  /-- The task that waits for a termination signal starts. -/
  | watch
  | trigger
  | serve
  | accept
  | loopReceives
  | connectionReceives (i : Nat)
  | connectionEnds (i : Nat)
  deriving DecidableEq, Repr

/-- A receiver looks for a signal. -/
def Subscription.receive (c : Channel) (l : Subscription) : Subscription :=
  match c.receive l.receiver with
  | (.empty, r) => ⟨r, l.informed⟩
  | (_, r) => ⟨r, true⟩

/-- Does the receiver have a signal to find? -/
def Subscription.isPending (c : Channel) (l : Subscription) : Bool := (c.receive l.receiver).1 ≠ .empty

namespace Service

def start : Service := ⟨.new, false, false, none, []⟩

def step? (s : Service) : Event → Option Service
  | .watch => if s.watching then none else some { s with watching := true }
  | .trigger =>
    if s.watching && !s.triggered then some { s with channel := s.channel.trigger, triggered := true }
    else none
  | .serve =>
    if s.watching && s.loop.isNone then
      let (r, c) := s.channel.subscribe
      some { s with channel := c, loop := some ⟨r, false⟩ }
    else none
  | .accept =>
    match s.loop with
    | some ⟨_, false⟩ =>
      let (r, c) := s.channel.subscribe
      some { s with channel := c, connections := s.connections ++ [⟨r, false⟩] }
    | _ => none
  | .loopReceives => s.loop.map fun l => { s with loop := some (l.receive s.channel) }
  | .connectionReceives i =>
    if i < s.connections.length then
      some { s with connections := s.connections.modify i (Subscription.receive s.channel) }
    else none
  | .connectionEnds i =>
    if i < s.connections.length then
      some { s with channel := s.channel.leave, connections := s.connections.eraseIdx i }
    else none

def run? (s : Service) (events : List Event) : Option Service := events.foldlM step? s

/-- Everybody who is to hear of the shutdown. -/
def subscriptions (s : Service) : List Subscription := s.loop.toList ++ s.connections

end Service
end EntryServer.Shutdown
