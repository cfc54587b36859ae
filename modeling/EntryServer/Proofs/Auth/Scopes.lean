import EntryServer.Proofs.Auth.Challenges
import EntryServer.Proofs.EntryPath.Urls

/-! # What the path of a challenge covers

The path of a challenge is the URL of the scope at which the climb for its domain ended. The scope is met on the climb
from the entry, and all URLs on that climb are beginnings of the URL of the entry. So a client that presents the
credentials for the path presents them for the entry as well. -/
namespace EntryServer.Auth
set_option autoImplicit false
open EntryPath (Canonical Covered)

section Scopes
variable {t : FileTree} {p s site x : EntryPath} {name own : Text}

/-- The scope of a domain is met on the climb. -/
theorem scope_of_domainAlong {realm : Option Text} {scope : Option EntryPath} {way : List EntryPath}
    (h : (Acl.domainAlong t name realm scope way).2 = some s) : scope = some s ∨ s ∈ way := by
  induction way generalizing realm scope with
  | nil => exact Or.inl h
  | cons p above ih =>
    rw [Acl.domainAlong] at h
    split at h
    · split at h
      · rcases ih h with hself | habove
        · exact Or.inr (List.mem_cons.mpr (Or.inl (Option.some.inj hself).symm))
        · exact Or.inr (List.mem_cons_of_mem p habove)
      · exact Or.inr (List.mem_cons.mpr (Or.inl (Option.some.inj h).symm))
    · exact (ih h).imp_right (List.mem_cons_of_mem p)

theorem scope_mem_ancestors (h : (Acl.domain t p name).scope = some s) : s ∈ p.ancestors :=
  (scope_of_domainAlong h).resolve_left (by simp)

/-- The path of a challenge is a beginning of a URL that covers the climb. -/
theorem path_covered (hx : Covered site x own) :
    ((Acl.domain t x name).scope.bind (·.urlPathUnder site)).getD ['/'] <+: own := by
  cases hscope : (Acl.domain t x name).scope with
  | none => exact EntryPath.slash_of_url hx.self
  | some s =>
    cases hurl : s.urlPathUnder site with
    | none =>
      rw [Option.bind_some, hurl]
      exact EntryPath.slash_of_url hx.self
    | some url =>
      rw [Option.bind_some, hurl]
      exact hx.climb s (scope_mem_ancestors hscope) url hurl

/-- Every challenge of a call shows the path of the scope of some domain. -/
theorem path_of_challenge {a : Authenticator} {r : Request} {now : Nat} {draw : Nat → Keys} {cache : Cache}
    {ch : Challenge} (h : ch ∈ (authenticate a t r now draw cache).1.challenges) :
    ∃ name, ch.path = ((Acl.domain t r.entry name).scope.bind (·.urlPathUnder r.site)).getD ['/'] := by
  rw [authenticate_eq, issue_challenges] at h
  obtain ⟨i, hi, rfl⟩ := List.mem_mapIdx.mp h
  exact ⟨_, rfl⟩

end Scopes

/-- Below a container, be it a site or any other one, a name leads to an entry whose URL leads back to it. The URL is
also that of what is reached from the entry through metadata. All URLs on the climb from there are beginnings of it,
and nothing but what is above the container has none. So is the path of each challenge for a request that is about what
is reached there, as the server issues it and as a client reads it. -/
theorem challenges_cover_request (site : EntryPath) (hsite : site.Canonical) (hcontainer : site.isContainer = true)
    (q : Text) (names : List Text) :
    ∃ own, (site.child q).urlPathUnder site = some own ∧ site.child own = site.child q ∧
      Covered site ((site.child q).through names) own ∧
      ∀ a t method target authorization now draw cache, ∀ ch ∈ (authenticate a t
          ⟨site, (site.child q).through names, method, target, authorization⟩ now draw cache).1.challenges,
        ch.path <+: own ∧ (ch.keys.Spelled → ∃ c, Credentials.parse (Utf8.encode ch.text) = .ok [c] ∧
          c.param? "domain".toList = some ch.path) := by
  obtain ⟨own, hown, hback⟩ := EntryPath.exists_url_child hsite q
  have hcovered := EntryPath.covered_through hsite hcontainer hown names
  refine ⟨own, hown, hback, hcovered, fun a t method target authorization now draw cache ch hch =>
    ⟨?_, fun hkeys => ⟨ch.credentials, parse_spelled hkeys, rfl⟩⟩⟩
  obtain ⟨name, hpath⟩ := path_of_challenge hch
  rw [hpath]
  exact path_covered hcovered

/-- Documents in the site of the host, with a domain of their own. -/
def documents : EntryPath := (EntryPath.root.child "host/".toList).child "docs/".toList

def documented : FileTree :=
  ((Store.write ((Acl.scopeOf documents "staff".toList).child Acl.realmKey) (Ascii.bytes "Staff")).run.run
    (FileTree.empty "data/".toList)).2

theorem challenges_cover_request_documents :
    let site := EntryPath.root.child "host/".toList
    let plan := (site.child "docs/old/../plan".toList).through ["notes/".toList, "first".toList]
    site.Canonical ∧ site.isContainer = true ∧ Covered site plan "/docs/plan".toList ∧
    (authenticate ⟨Acl.anonymous, 1000⟩ documented ⟨site, plan, "GET".toList, "/docs/plan".toList, []⟩ 0
      (fun _ => awkwardKeys) []).1.challenges = [⟨"Staff".toList, "/docs/".toList, awkwardKeys, false⟩] := by
  intro site plan
  have hsite : site.Canonical := EntryPath.canonical_root.child _
  obtain ⟨own, hown, -, hcovered, -⟩ := challenges_cover_request site hsite (by decide +kernel)
    "docs/old/../plan".toList ["notes/".toList, "first".toList]
  have hurl : (site.child "docs/old/../plan".toList).urlPathUnder site = some "/docs/plan".toList := by decide +kernel
  rw [hurl] at hown
  obtain rfl := Option.some.inj hown
  exact ⟨hsite, by decide +kernel, hcovered, by decide +kernel⟩

end EntryServer.Auth
