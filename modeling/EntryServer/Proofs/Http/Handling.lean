import EntryServer.Http.Server
import EntryServer.Proofs.Store.Operations

/-! # Runs of requests

What each handler comes to, as an answer or failure with the files after it, and how the server leads a
request to its handler. -/
namespace EntryServer.Http
set_option autoImplicit false
open Store (run_bind)

namespace Entry

theorem run_onStore {α : Type} (action : StoreM α) (t : FileTree) : (onStore action).run.run t =
    match action.run.run t with
    | (.ok a, t') => (.ok a, t')
    | (.error e, t') => (.error (.store e), t') := by
  have hget : (getThe FileTree : HandlerM FileTree).run.run t = (.ok t, t) := rfl
  simp only [onStore, run_bind, hget]
  cases action.run.run t with
  | mk r t' =>
    cases r with
    | ok a => rfl
    | error e => rfl

theorem run_delete (p : EntryPath) (t : FileTree) : (delete p).run.run t =
    match (Store.deleteAll p).run.run t with
    | (.ok (), t') => (.ok (Response.empty .noContent), t')
    | (.error e, t') => (.error (.store e), t') := by
  simp only [delete, run_bind, run_onStore]
  cases (Store.deleteAll p).run.run t with
  | mk r t' =>
    cases r with
    | ok u => rfl
    | error e => rfl

/-- The last step of a replacement stores the announced type, if there is one. -/
def storeType (p : EntryPath) (contentType : Option Bytes) : HandlerM PUnit :=
  match contentType with
  | none => pure ()
  | some value => onStore (Store.write ((headersOf p).child "content-type".toList) value)

theorem run_put (p : EntryPath) (contentType : Option Bytes) (body : Body) (t : FileTree) :
    (put p contentType body).run.run t =
      match (Store.create p).run.run t with
      | (.error e, t₁) => (.error (.store e), t₁)
      | (.ok w, t₁) =>
        if !body.complete then (.error .body, (appendAll w t₁ body.chunks).2)
        else match (appendAll w t₁ body.chunks).1.commit.run.run (appendAll w t₁ body.chunks).2 with
          | (.error e, t₂) => (.error (.store e), t₂)
          | (.ok (), t₂) =>
            match (Store.deleteAll (headersOf p)).run.run t₂ with
            | (.error e, t₃) => (.error (.store e), t₃)
            | (.ok (), t₃) =>
              match (storeType p contentType).run.run t₃ with
              | (.error e, t₄) => (.error e, t₄)
              | (.ok _, t₄) => (.ok (Response.empty (if Store.hasData t p then .noContent else .created)), t₄) := by
  have hget : ∀ t : FileTree, (getThe FileTree : HandlerM FileTree).run.run t = (.ok t, t) := fun _ => rfl
  have hset : ∀ t t' : FileTree, (set t' : HandlerM PUnit).run.run t = (.ok (), t') := fun _ _ => rfl
  simp only [put, run_bind, run_onStore, hget]
  cases (Store.create p).run.run t with
  | mk r t₁ =>
    cases r with
    | error e => rfl
    | ok w =>
      simp only [hset]
      cases body.complete with
      | false => rfl
      | true =>
        simp only [Bool.not_true, Bool.false_eq_true, if_false, run_bind, run_onStore]
        cases (appendAll w t₁ body.chunks).1.commit.run.run (appendAll w t₁ body.chunks).2 with
        | mk r t₂ =>
          cases r with
          | error e => rfl
          | ok u =>
            simp only
            cases (Store.deleteAll (headersOf p)).run.run t₂ with
            | mk r t₃ =>
              cases r with
              | error e => rfl
              | ok u =>
                cases contentType with
                | none => rfl
                | some value =>
                  simp only [storeType, run_bind]
                  cases (onStore (Store.write ((headersOf p).child "content-type".toList) value)).run.run t₃ with
                  | mk r t₄ =>
                    cases r with
                    | error e => rfl
                    | ok u => rfl

theorem run_handle (p : EntryPath) (method : Text) (contentType : Option Bytes) (body : Body) (t : FileTree) :
    (handle p method contentType body).run.run t =
      if method = "GET".toList ∨ method = "HEAD".toList then
        match get t p with
        | .ok r => (.ok r, t)
        | .error f => (.error f, t)
      else if method = "PUT".toList then (put p contentType body).run.run t
      else if method = "DELETE".toList then (delete p).run.run t
      else (.ok (Response.empty .methodNotAllowed), t) := by
  have hget : (getThe FileTree : HandlerM FileTree).run.run t = (.ok t, t) := rfl
  unfold handle
  split
  · simp only [run_bind, hget]
    cases get t p with
    | ok r => rfl
    | error f => rfl
  · split
    · rfl
    · split
      · rfl
      · rfl

end Entry

namespace Server

/-- The entry that a request addresses, with its site. -/
def addressed (r : Request) : Addressed := Addressed.resolve (r.headers.first? "host") (Target.parse r.target)

/-- What the authenticator says of a request. -/
def verdict (s : Server) (r : Request) (now : Nat) (draw : Nat → Auth.Keys) (state : State) : Auth.Verdict :=
  (Auth.authenticate s.authenticator state.files (authRequest (addressed r) (Target.parse r.target) r) now draw
    state.cache).1

theorem decided_eq (s : Server) (found : Addressed) (target : Target) (r : Request) (state : State)
    (decision : Auth.Verdict × Auth.Cache) : s.decided found target r state decision =
      (challenged decision.1.challenges
        (if decision.1.authorized then (s.answer found.entry target r state.files).1
        else Response.empty .unauthorized),
      decision.1.challenges,
      ⟨if decision.1.authorized then (s.answer found.entry target r state.files).2 else state.files, decision.2⟩) := by
  obtain ⟨⟨authorized, challenges⟩, cache⟩ := decision
  cases authorized with
  | true => rfl
  | false => rfl

theorem guarded_sealed {s : Server} {r : Request} {now : Nat} {draw : Nat → Auth.Keys} {state : State}
    (h : Acl.isSealed (addressed r).entry = true) :
    s.guarded r now draw state = (Response.empty .forbidden, [], state) := by
  rw [addressed] at h
  simp only [guarded, h, if_true]

/-- A request that passes the seal is answered as the authenticator says, and brings the cache forward. -/
theorem guarded_unsealed {s : Server} {r : Request} {now : Nat} {draw : Nat → Auth.Keys} {state : State}
    (h : Acl.isSealed (addressed r).entry = false) :
    s.guarded r now draw state =
      (challenged (s.verdict r now draw state).challenges
        (if (s.verdict r now draw state).authorized then
          (s.answer (addressed r).entry (Target.parse r.target) r state.files).1
        else Response.empty .unauthorized),
      (s.verdict r now draw state).challenges,
      ⟨if (s.verdict r now draw state).authorized then
          (s.answer (addressed r).entry (Target.parse r.target) r state.files).2
        else state.files,
        (Auth.authenticate s.authenticator state.files (authRequest (addressed r) (Target.parse r.target) r) now draw
          state.cache).2⟩) := by
  rw [addressed] at h
  simp only [guarded, h, Bool.false_eq_true, if_false]
  exact decided_eq s _ _ r state _

theorem guarded_authorized {s : Server} {r : Request} {now : Nat} {draw : Nat → Auth.Keys} {state : State}
    (h : Acl.isSealed (addressed r).entry = false) (ha : (s.verdict r now draw state).authorized = true) :
    (s.guarded r now draw state).1 = challenged (s.verdict r now draw state).challenges
      (s.answer (addressed r).entry (Target.parse r.target) r state.files).1 ∧
    (s.guarded r now draw state).2.2.files =
      (s.answer (addressed r).entry (Target.parse r.target) r state.files).2 := by
  rw [guarded_unsealed h, ha]
  exact ⟨rfl, rfl⟩

theorem guarded_unauthorized {s : Server} {r : Request} {now : Nat} {draw : Nat → Auth.Keys} {state : State}
    (h : Acl.isSealed (addressed r).entry = false) (ha : (s.verdict r now draw state).authorized = false) :
    (s.guarded r now draw state).2.2.files = state.files := by
  rw [guarded_unsealed h, ha]
  rfl

theorem serve_state (s : Server) (r : Request) (now : Nat) (draw : Nat → Auth.Keys) (identifier : Bytes)
    (state : State) : (s.serve r now draw identifier state).2.2 =
      if s.announcesTooMuch r then state else (s.guarded r now draw state).2.2 := by
  unfold serve
  cases s.announcesTooMuch r with
  | true => rfl
  | false => rfl

theorem serve_status (s : Server) (r : Request) (now : Nat) (draw : Nat → Auth.Keys) (identifier : Bytes)
    (state : State) : (s.serve r now draw identifier state).1.status =
      if s.announcesTooMuch r then .payloadTooLarge else (s.guarded r now draw state).1.status := by
  unfold serve
  cases s.announcesTooMuch r with
  | true => rfl
  | false => rfl

theorem finished_body (r : Request) (identifier : Bytes) (x : Response) :
    (finished r identifier x).body = if r.method = "HEAD".toList then [] else x.body := by
  simp only [finished, Response.completed, decide_eq_true_eq]

theorem serve_body (s : Server) (r : Request) (now : Nat) (draw : Nat → Auth.Keys) (identifier : Bytes)
    (state : State) : (s.serve r now draw identifier state).1.body =
      if r.method = "HEAD".toList then [] else if s.announcesTooMuch r then Ascii.bytes "length limit exceeded"
      else (s.guarded r now draw state).1.body := by
  unfold serve
  cases s.announcesTooMuch r with
  | true => exact finished_body r identifier tooLarge
  | false => exact finished_body r identifier _

theorem serve_challenges (s : Server) (r : Request) (now : Nat) (draw : Nat → Auth.Keys) (identifier : Bytes)
    (state : State) : (s.serve r now draw identifier state).2.1 =
      if s.announcesTooMuch r then [] else (s.guarded r now draw state).2.1 := by
  unfold serve
  cases s.announcesTooMuch r with
  | true => rfl
  | false => rfl

theorem answer_files (s : Server) (entry : EntryPath) (target : Target) (r : Request) (files : FileTree) :
    (s.answer entry target r files).2 = if target.path.head? = some '/' then
      ((Entry.handle entry r.method (r.headers.first? "content-type") (s.received r)).run.run files).2
      else files := by
  unfold answer
  split
  · simp only
    split
    · next h => rw [h]
    · next h => rw [h]
  · rfl

/-- Where the guard gives the same answer, the request is answered alike. -/
theorem serve_congr {s : Server} {r : Request} {now : Nat} {draw : Nat → Auth.Keys} {identifier : Bytes}
    {state state' : State} (h : s.announcesTooMuch r = false →
      (s.guarded r now draw state').1 = (s.guarded r now draw state).1) :
    (s.serve r now draw identifier state').1 = (s.serve r now draw identifier state).1 := by
  unfold serve
  cases hsize : s.announcesTooMuch r with
  | true => rfl
  | false => simp only [Bool.false_eq_true, if_false, h hsize]

/-! ## Visits in turn -/

/-- A request with what the server takes from its surroundings to answer it. -/
structure Visit where
  request : Request
  now : Nat
  draw : Nat → Auth.Keys
  identifier : Bytes

def attend (s : Server) (state : State) (v : Visit) : Response × List Auth.Challenge × State :=
  s.serve v.request v.now v.draw v.identifier state

/-- The state after visits, the first one at the head of the list. -/
def after (s : Server) (state : State) : List Visit → State
  | [] => state
  | v :: later => s.after (s.attend state v).2.2 later

def responses (s : Server) (state : State) : List Visit → List Response
  | [] => []
  | v :: later => (s.attend state v).1 :: s.responses (s.attend state v).2.2 later

end Server
end EntryServer.Http
