import EntryServer.Http.Service
import EntryServer.Proofs.Auth.Calls
import EntryServer.Proofs.Http.Handling

/-! # Answers in time

Where the work on a request is done in time, no draw fails and the clock does not fail, the service answers as the
server does. A run that starts with a cache which the clock can represent goes on with such caches, so this holds of
any number of requests. A request that is cut off is answered without a challenge. -/
namespace EntryServer.Http.Service
set_option autoImplicit false
open Server (State Visit addressed finished)

variable {v : Service} {r : Request} {o : Occasion} {state : State}

/-- Is the work on a request done before it is cut off? -/
def InTime (v : Service) (o : Occasion) : Prop := o.takes ≤ v.timeout

instance (v : Service) (o : Occasion) : Decidable (v.InTime o) := inferInstanceAs (Decidable (_ ≤ _))

/-! ## One request -/

/-- What the authenticator says of a request, unless the clock fails it. -/
def verdict? (v : Service) (r : Request) (o : Occasion) (state : State) : Option (Auth.Verdict × Auth.Cache) :=
  Auth.authenticateDrawn? v.server.authenticator state.files
    (Server.authRequest (addressed r) (Target.parse r.target) r) o.now o.keys state.cache

theorem handle_late (hsize : v.server.announcesTooMuch r = false) (hlate : ¬ v.InTime o) :
    v.handle r o state = some (finished r o.identifier (Response.empty .requestTimeout), [], o.left) := by
  simp only [handle, withinTime, hsize, Bool.false_eq_true, if_false, if_pos (Nat.not_le.mp hlate), Option.map_some]

/-- A request that reaches the authenticator in time is answered as it decides. -/
theorem handle_decided (hsize : v.server.announcesTooMuch r = false)
    (hsealed : Acl.isSealed (addressed r).entry = false) (htime : v.InTime o)
    {decision : Auth.Verdict × Auth.Cache} (h : v.verdict? r o state = some decision) :
    v.handle r o state = some
      (finished r o.identifier (v.server.decided (addressed r) (Target.parse r.target) r state decision).1,
        (v.server.decided (addressed r) (Target.parse r.target) r state decision).2) := by
  rw [verdict?, addressed] at h
  rw [addressed] at hsealed
  simp only [handle, withinTime, work, hsize, hsealed, Bool.false_eq_true, if_false, if_neg (Nat.not_lt.mpr htime), h,
    Option.map_some]
  rfl

/-- Without failures the service answers as the server does. -/
theorem handle_eq_serve {draw : Nat → Auth.Keys} (htime : v.InTime o) (hkeys : o.keys = fun i => some (draw i))
    (hclock : state.cache.fitsClock = true) :
    v.handle r o state = some (v.server.serve r o.now draw o.identifier state) := by
  have hverdict : v.verdict? r o state = some _ := Auth.authenticateDrawn?_of_fits hclock
  rw [verdict?, addressed, hkeys] at hverdict
  simp only [handle, withinTime, work, Server.serve, Server.guarded, if_neg (Nat.not_lt.mpr htime)]
  split
  · rfl
  · split
    · rfl
    · rw [hkeys, hverdict]
      rfl

/-! ## Requests in turn -/

/-- The state after requests, the first one at the head of the list, unless the clock fails. -/
def after? (v : Service) (state : State) : List (Request × Occasion) → Option State
  | [] => some state
  | x :: later => (v.handle x.1 x.2 state).bind fun y => v.after? y.2.2 later

def responses? (v : Service) (state : State) : List (Request × Occasion) → Option (List Response)
  | [] => some []
  | x :: later => (v.handle x.1 x.2 state).bind fun y => (v.responses? y.2.2 later).map (y.1 :: ·)

/-- A request on an occasion is a visit that is done in time, without a draw that fails. -/
structure Carries (v : Service) (w : Visit) (x : Request × Occasion) : Prop where
  request : x.1 = w.request
  now : x.2.now = w.now
  keys : x.2.keys = fun i => some (w.draw i)
  identifier : x.2.identifier = w.identifier
  time : v.InTime x.2

theorem Carries.handle {w : Visit} {x : Request × Occasion} (h : v.Carries w x)
    (hclock : state.cache.fitsClock = true) :
    v.handle x.1 x.2 state = some (v.server.attend state w) := by
  rw [handle_eq_serve h.time h.keys hclock, h.request, h.now, h.identifier]
  rfl

/-- A visit leaves nonces that the clock can represent. -/
theorem fitsClock_attend {s : Server} {w : Visit} (hclock : state.cache.fitsClock = true)
    (hlimit : w.now + s.authenticator.validity < Auth.Cache.clockLimit) :
    (s.attend state w).2.2.cache.fitsClock = true := by
  rw [Server.attend, Server.serve_state]
  split
  · exact hclock
  · cases hsealed : Acl.isSealed (addressed w.request).entry with
    | true =>
      rw [Server.guarded_sealed hsealed]
      exact hclock
    | false =>
      rw [Server.guarded_unsealed hsealed]
      exact Auth.fitsClock_authenticateDrawn hclock hlimit

/-- Visits in time are all answered, and as the server answers them. -/
theorem responses?_eq {visits : List Visit} {requests : List (Request × Occasion)}
    (h : List.Forall₂ v.Carries visits requests) (hclock : state.cache.fitsClock = true)
    (hlimit : ∀ w ∈ visits, w.now + v.server.authenticator.validity < Auth.Cache.clockLimit) :
    v.responses? state requests = some (v.server.responses state visits) := by
  induction h generalizing state with
  | nil => rfl
  | cons hx _ ih =>
    obtain ⟨hw, hrest⟩ := List.forall_mem_cons.mp hlimit
    rw [responses?, hx.handle hclock, Option.bind_some, ih (fitsClock_attend hclock hw) hrest]
    rfl

end EntryServer.Http.Service
