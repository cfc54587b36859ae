import EntryServer.Proofs.Acl.Users
import EntryServer.Proofs.Auth.Agreement
import EntryServer.Proofs.Auth.Client

/-! # Users that are not revealed

A candidate that does not answer its nonce is passed over in the same way whether its user has another secret, has
none that can be read, or is unknown. All else that a call asks for is the same in stores that differ in their users
only. So a client that knows no secret cannot tell which users there are. -/
namespace EntryServer.Auth
set_option autoImplicit false
open EntryPath

/-! ## Candidates that do not answer -/

/-- The response that is expected of a candidate with a nonce, if the user it names has a secret. -/
def expected? (t : FileTree) (r : Request) (n : Nonce) (c : Credentials) : Option Text :=
  match Acl.secret t r.entry n.domain scheme (paramOf c "username") with
  | .ok (some secret) => some (expectedResponse n.realm secret r.method c)
  | _ => none

/-- No candidate has the response that is expected of it. -/
def Unmatched (t : FileTree) (r : Request) (cache : Cache) : Prop :=
  ∀ c ∈ candidates r.authorization, ∀ n, (paramOf c "nonce", n) ∈ cache →
    expected? t r n c ≠ some (paramOf c "response")

theorem unmatched_iff {t : FileTree} {r : Request} {cache : Cache} : Unmatched t r cache ↔
    ∀ c ∈ candidates r.authorization, ∀ kn ∈ cache, kn.1 = paramOf c "nonce" →
      expected? t r kn.2 c ≠ some (paramOf c "response") := by
  refine forall₂_congr fun c _ => ⟨fun h kn hkn hkey => h kn.2 ?_, fun h n hn => h _ hn rfl⟩
  rw [← hkey]
  exact hkn

instance (t : FileTree) (r : Request) (cache : Cache) : Decidable (Unmatched t r cache) :=
  decidable_of_iff _ unmatched_iff.symm

section Loop
variable {t t' : FileTree} {r : Request} {now : Nat} {cache : Cache}

theorem Unmatched.unproven (h : Unmatched t r cache) {c : Credentials} (hc : c ∈ candidates r.authorization)
    {n : Nonce} (hn : (keyOf c, n) ∈ cache) : proves t r n c = false := by
  rw [Bool.eq_false_iff]
  intro hproves
  obtain ⟨-, -, secret, hsecret, hresponse⟩ := proves_iff.mp hproves
  exact h c hc n hn (by rw [expected?, hsecret, hresponse])

theorem mem_of_lookup {key : Text} {n : Nonce} (h : cache.lookup key = some n) : (key, n) ∈ cache := by
  obtain ⟨before, after, rfl, -⟩ := List.lookup_eq_some_iff.mp h
  simp

theorem find_of_unproven {c : Credentials} (h : ∀ n, (keyOf c, n) ∈ cache → proves t r n c = false)
    (h' : ∀ n, (keyOf c, n) ∈ cache → proves t' r n c = false) : find t' r now cache c = find t r now cache c := by
  rw [find, find, examine, examine, ← keyOf]
  cases hlookup : cache.lookup (keyOf c) with
  | none => rfl
  | some n =>
    have hn := mem_of_lookup hlookup
    simp only [h n hn, h' n hn, Bool.false_eq_true, if_false]

/-- Where nothing is proven, the loop finds the same, whatever secrets there are. -/
theorem findings_of_unproven {cs : List Credentials}
    (h : ∀ c ∈ cs, ∀ n, (keyOf c, n) ∈ cache → proves t r n c = false)
    (h' : ∀ c ∈ cs, ∀ n, (keyOf c, n) ∈ cache → proves t' r n c = false) :
    findings t' r now cache cs = findings t r now cache cs := by
  induction cs generalizing cache with
  | nil => rfl
  | cons c rest ih =>
    obtain ⟨hc, hrest⟩ := List.forall_mem_cons.mp h
    obtain ⟨hc', hrest'⟩ := List.forall_mem_cons.mp h'
    have herase : ∀ {kn : Text × Nonce}, kn ∈ cache.erase (keyOf c) → kn ∈ cache := List.mem_of_mem_filter
    rw [findings, findings, find_of_unproven hc hc', ih (fun d hd n hn => hrest d hd n (herase hn))
      fun d hd n hn => hrest' d hd n (herase hn)]

theorem Unmatched.findings (h : Unmatched t r cache) (h' : Unmatched t' r cache) :
    findingsIn t' r now cache = findingsIn t r now cache :=
  findings_of_unproven
    (fun _ hc _ hn => h.unproven hc (Cache.mem_withoutExpired.mp hn).1)
    (fun _ hc _ hn => h'.unproven hc (Cache.mem_withoutExpired.mp hn).1)

end Loop

/-! ## Fresh keys -/

/-- What a challenge says apart from its keys. -/
def Challenge.unkeyed (ch : Challenge) : Challenge := { ch with keys := ⟨[], []⟩ }

/-- Two calls come to the same up to the keys of their challenges, by which the new nonces are remembered. -/
structure SameButKeys (a : Authenticator) (now : Nat) (x x' : Verdict × Cache) : Prop where
  authorized : x'.1.authorized = x.1.authorized
  challenges : x'.1.challenges.map Challenge.unkeyed = x.1.challenges.map Challenge.unkeyed
  cache : ∃ (kept : Cache) (names : List Text),
    x.2 = kept.insertAll ((names.zip x.1.challenges).map (remembered a now)) ∧
    x'.2 = kept.insertAll ((names.zip x'.1.challenges).map (remembered a now))

section Calls
variable {a : Authenticator} {t t' : FileTree} {r : Request} {now : Nat} {cache : Cache}

theorem issue_unkeyed (t : FileTree) (r : Request) (now : Nat) (stale : Bool) (draw : Nat → Keys) (drawn : Nat)
    (cache : Cache) (names : List Text) : (issue a t r now stale draw drawn cache names).1.map Challenge.unkeyed =
      names.map fun name => (challengeFor a t r now stale ⟨[], []⟩ name).1 := by
  induction names generalizing drawn cache with
  | nil => rfl
  | cons name rest ih =>
    rw [issue_cons]
    exact congrArg₂ List.cons rfl (ih _ _)

theorem authenticate_draws (t : FileTree) (r : Request) (now : Nat) (cache : Cache) (draw draw' : Nat → Keys) :
    SameButKeys a now (authenticate a t r now draw cache) (authenticate a t r now draw' cache) := by
  rw [authenticate_eq, authenticate_eq]
  exact ⟨rfl, by rw [issue_unkeyed, issue_unkeyed], _, _, issue_cache .., issue_cache ..⟩

/-- Two stores that differ in the users of scopes only cannot be told apart by a request that answers no nonce, in
its verdict and in the nonces that are remembered after it. The method and the domain that is open to everybody are
single names, as requests and configurations have them. -/
theorem users_are_not_revealed (hsame : Acl.SameButUsers "Digest".toList t t')
    (hnames : Acl.Slashless t) (hopen : IsSegment a.anonymous) (hmethod : '/' ∉ r.method)
    (hentry : r.entry.Canonical) (hsealed : Acl.isSealed r.entry = false) (h : Unmatched t r cache)
    (h' : Unmatched t' r cache) :
    (∀ draw, authenticate a t' r now draw cache = authenticate a t r now draw cache) ∧
    ∀ draw draw', SameButKeys a now (authenticate a t r now draw cache) (authenticate a t' r now draw' cache) := by
  have hfindings : findingsIn t' r now cache = findingsIn t r now cache := h.findings h'
  have hconclusion : conclusion t' r now cache = conclusion t r now cache := by
    rw [conclusion, conclusion, hfindings]
  have hdomains := hsame.domains (by decide) hentry hsealed a.anonymous
  have hanonymous : ∀ check, checkAnonymous t' a.anonymous r check = checkAnonymous t a.anonymous r check :=
    fun check => by
      rw [checkAnonymous, checkAnonymous, hsame.permission (by decide) hentry hsealed hopen hmethod]
  have hlisted : ∀ name ∈ (Acl.domains t a.anonymous r.entry).1,
      Acl.domain t' r.entry name = Acl.domain t r.entry name := by
    intro name hname
    obtain ⟨b, -, hb⟩ := Acl.exists_of_mem_domains hname
    exact hsame.domain (by decide) hentry hsealed ((Acl.mem_namesAt_iff hnames).mp hb).1
  have hequal : ∀ draw, authenticate a t' r now draw cache = authenticate a t r now draw cache := by
    intro draw
    rw [authenticate_eq, authenticate_eq, hconclusion, hanonymous, hfindings, hdomains, issue_cache, issue_cache,
      issue_congr hlisted]
  refine ⟨hequal, fun draw draw' => ?_⟩
  rw [hequal draw']
  exact authenticate_draws t r now cache draw draw'

end Calls

/-! ## A guess -/

/-- The host whose only user has been forgotten. -/
def deserted : FileTree :=
  admitting.eraseBranch (Acl.configured challengedHost ["admin".toList, Acl.usersFolder "Digest".toList]).place.children

/-- An answer of the user with another secret. -/
def guessed : Request :=
  { asked.request with authorization := [Utf8.encode
    (answerTo question.credentials "alice".toList (Ascii.bytes "guess") "GET".toList "/".toList).text] }

def guessedAt : Cache := cacheAfter ⟨Acl.anonymous, 1000⟩ [asked]

theorem guess_reveals_nothing :
    Unmatched admitting guessed guessedAt ∧ Unmatched deserted guessed guessedAt ∧
    ∀ draw, authenticate ⟨Acl.anonymous, 1000⟩ deserted guessed 500 draw guessedAt =
      authenticate ⟨Acl.anonymous, 1000⟩ admitting guessed 500 draw guessedAt := by
  have hknown : Unmatched admitting guessed guessedAt := by decide +kernel
  have hunknown : Unmatched deserted guessed guessedAt := by decide +kernel
  have hsame : Acl.SameButUsers "Digest".toList admitting deserted :=
    Acl.sameButUsers_eraseBranch "Digest".toList admitting (by decide) (by decide)
  exact ⟨hknown, hunknown, (users_are_not_revealed hsame (by decide +kernel) (by decide) (by decide) (by decide)
    (by decide) hknown hunknown).1⟩

end EntryServer.Auth
