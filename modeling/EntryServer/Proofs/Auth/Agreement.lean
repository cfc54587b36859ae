import EntryServer.Proofs.Auth.Calls

/-! # Calls that cannot tell two states apart

A call asks a store what applies to the entry of its request, and a cache for the nonces that the request names. So
it comes to the same in two states that answer these questions alike, and leaves caches behind that differ in the
nonces in which they differed before. -/
namespace EntryServer.Auth
set_option autoImplicit false

/-! ## Caches that differ in some nonces -/

namespace Cache

theorem mem_used_iff {used : List Text} {kn : Text × Nonce} : (!used.contains kn.1) = true ↔ kn.1 ∉ used := by
  rw [Bool.not_eq_true', ← Bool.not_eq_true, List.contains_iff_mem]

theorem filter_comm (cache : Cache) (keep keep' : Text × Nonce → Bool) :
    (cache.filter keep).filter keep' = (cache.filter keep').filter keep := by
  simp only [List.filter_filter, Bool.and_comm]

theorem filter_of_imp (cache : Cache) {keep keep' : Text × Nonce → Bool}
    (h : ∀ kn, keep' kn = true → keep kn = true) : (cache.filter keep).filter keep' = cache.filter keep' := by
  rw [List.filter_filter]
  refine List.filter_congr fun kn _ => ?_
  cases hkept : keep' kn with
  | false => rfl
  | true => rw [h kn hkept, Bool.and_self]

theorem erase_eq_without (cache : Cache) (key : Text) : cache.erase key = cache.without [key] := by
  have hnone := without_erase cache key []
  rwa [without_nil] at hnone

theorem without_comm (cache : Cache) (used used' : List Text) :
    (cache.without used).without used' = (cache.without used').without used := filter_comm ..

theorem without_of_subset (cache : Cache) {used used' : List Text} (h : used ⊆ used') :
    (cache.without used).without used' = cache.without used' :=
  filter_of_imp cache fun _ hkn => mem_used_iff.mpr fun hused => mem_used_iff.mp hkn (h hused)

theorem without_withoutExpired (cache : Cache) (used : List Text) (now : Nat) :
    (cache.without used).withoutExpired now = (cache.withoutExpired now).without used := filter_comm ..

theorem withoutExpired_later (cache : Cache) {start now : Nat} (h : start ≤ now) :
    (cache.withoutExpired start).withoutExpired now = cache.withoutExpired now := by
  refine filter_of_imp cache fun kn hkn => ?_
  rw [Bool.not_eq_true', Nonce.isLive_iff] at hkn ⊢
  exact Nat.le_trans h hkn

theorem lookup_without (cache : Cache) {used : List Text} {key : Text} (h : key ∉ used) :
    (cache.without used).lookup key = cache.lookup key := by
  induction cache with
  | nil => rfl
  | cons kn cache ih =>
    rw [without, List.filter_cons]
    by_cases hkey : key = kn.1
    · rw [if_pos (mem_used_iff.mpr (hkey ▸ h)), List.lookup_cons, List.lookup_cons, hkey, beq_self_eq_true]
    · have hbeq : (key == kn.1) = false := beq_eq_false_iff_ne.mpr hkey
      split
      · rw [List.lookup_cons, List.lookup_cons, hbeq]
        exact ih
      · rw [List.lookup_cons, hbeq]
        exact ih

theorem without_insert (cache : Cache) (used : List Text) (key : Text) (n : Nonce) :
    (cache.insert key n).without used =
      if key ∈ used then cache.without used else (cache.without used).insert key n := by
  have happend : (cache.insert key n).without used = (cache.erase key).without used ++ Cache.without [(key, n)] used :=
    List.filter_append ..
  rw [happend, erase_eq_without]
  by_cases hused : key ∈ used
  · have hgone : Cache.without [(key, n)] used = [] :=
      List.filter_eq_nil_iff.mpr fun kn hkn => by simp [List.mem_singleton.mp hkn, hused]
    rw [hgone, List.append_nil, without_of_subset _ (by simpa using hused), if_pos hused]
  · have hkept : Cache.without [(key, n)] used = [(key, n)] :=
      List.filter_eq_self.mpr fun kn hkn => by simp [List.mem_singleton.mp hkn, hused]
    rw [hkept, without_comm, if_neg hused, insert, erase_eq_without]

/-- Two caches hold the same nonces, apart from some. -/
def SameBut (used : List Text) (cache cache' : Cache) : Prop := cache'.without used = cache.without used

namespace SameBut
variable {used : List Text} {cache cache' : Cache}

theorem lookup (h : SameBut used cache cache') {key : Text} (hkey : key ∉ used) :
    cache'.lookup key = cache.lookup key := by
  rw [← lookup_without cache' hkey, ← lookup_without cache hkey, h]

theorem without (h : SameBut used cache cache') (more : List Text) :
    SameBut used (cache.without more) (cache'.without more) := by
  rw [SameBut, without_comm, h, without_comm]

theorem withoutExpired (h : SameBut used cache cache') (now : Nat) :
    SameBut used (cache.withoutExpired now) (cache'.withoutExpired now) := by
  rw [SameBut, ← without_withoutExpired, ← without_withoutExpired, h]

theorem insertAll (h : SameBut used cache cache') (more : List (Text × Nonce)) :
    SameBut used (cache.insertAll more) (cache'.insertAll more) := by
  induction more generalizing cache cache' with
  | nil => exact h
  | cons kn more ih =>
    refine ih ?_
    rw [SameBut, without_insert, without_insert, h]

end SameBut

/-- Nonces with keys that do not count make no difference. -/
theorem insertAll_sameBut {used : List Text} (cache : Cache) {more : List (Text × Nonce)}
    (h : ∀ kn ∈ more, kn.1 ∈ used) : SameBut used cache (cache.insertAll more) := by
  induction more generalizing cache with
  | nil => rfl
  | cons kn more ih =>
    obtain ⟨hkn, hmore⟩ := List.forall_mem_cons.mp h
    have hrest := ih (cache.insert kn.1 kn.2) hmore
    rw [SameBut, without_insert, if_pos hkn] at hrest
    exact hrest

/-- Two caches come to the same from a time on, apart from some nonces. -/
def SameFrom (start : Nat) (used : List Text) (cache cache' : Cache) : Prop :=
  SameBut used (cache.withoutExpired start) (cache'.withoutExpired start)

theorem SameFrom.later {start now : Nat} {used : List Text} {cache cache' : Cache}
    (h : SameFrom start used cache cache') (hnow : start ≤ now) :
    SameBut used (cache.withoutExpired now) (cache'.withoutExpired now) := by
  have hlive := SameBut.withoutExpired h now
  rwa [withoutExpired_later _ hnow, withoutExpired_later _ hnow] at hlive

end Cache

/-! ## Calls -/

/-- Two stores tell the authenticator the same about an entry. -/
structure SameChecks (open_ : Text) (t t' : FileTree) (y : EntryPath) : Prop where
  listed : (Acl.domains t' open_ y).1 = (Acl.domains t open_ y).1
  domain : ∀ name, Acl.domain t' y name = Acl.domain t y name
  secret : ∀ name user, Acl.secret t' y name scheme user = Acl.secret t y name scheme user
  permission : ∀ name method, Acl.permission t' y name method = Acl.permission t y name method

section Calls
variable {a : Authenticator} {t t' : FileTree} {r : Request} {now start : Nat} {draw : Nat → Keys}
  {used : List Text} {cache cache' : Cache}

theorem find_congr (h : SameChecks a.anonymous t t' r.entry) {c : Credentials}
    (hlookup : cache'.lookup (keyOf c) = cache.lookup (keyOf c)) : find t' r now cache' c = find t r now cache c := by
  have hproves : ∀ n, proves t' r n c = proves t r n c := fun n => by rw [proves, proves, h.secret]
  rw [keyOf] at hlookup
  rw [find, find, examine, examine, hlookup]
  cases cache.lookup (paramOf c "nonce") with
  | none => rfl
  | some n => simp only [hproves, h.permission]

theorem findings_congr (h : SameChecks a.anonymous t t' r.entry) {cs : List Credentials}
    (hcache : Cache.SameBut used cache cache') (hkeys : ∀ c ∈ cs, keyOf c ∉ used) :
    findings t' r now cache' cs = findings t r now cache cs := by
  induction cs generalizing cache cache' with
  | nil => rfl
  | cons c rest ih =>
    obtain ⟨hc, hrest⟩ := List.forall_mem_cons.mp hkeys
    have herase := hcache.without [keyOf c]
    rw [← Cache.erase_eq_without, ← Cache.erase_eq_without] at herase
    rw [findings, findings, find_congr h (hcache.lookup hc), ih herase hrest]

/-- Challenges are the same if the domains that are challenged are. -/
theorem issue_congr {names : List Text}
    (h : ∀ name ∈ names, Acl.domain t' r.entry name = Acl.domain t r.entry name) (stale : Bool) (drawn : Nat) :
    (issue a t' r now stale draw drawn cache' names).1 = (issue a t r now stale draw drawn cache names).1 := by
  induction names generalizing drawn cache cache' with
  | nil => rfl
  | cons name rest ih =>
    obtain ⟨hname, hrest⟩ := List.forall_mem_cons.mp h
    rw [issue_cons, issue_cons]
    simp only [challengeFor, hname]
    exact congrArg _ (ih hrest _)

/-- A call that asks for none of the nonces in which the caches differ comes to the same. -/
theorem authenticate_congr (draw : Nat → Keys) (h : SameChecks a.anonymous t t' r.entry)
    (hcache : Cache.SameFrom start used cache cache') (hnow : start ≤ now)
    (hkeys : ∀ c ∈ candidates r.authorization, keyOf c ∉ used) :
    (authenticate a t' r now draw cache').1 = (authenticate a t r now draw cache).1 ∧
      Cache.SameFrom start used (authenticate a t r now draw cache).2 (authenticate a t' r now draw cache').2 := by
  have hlive := hcache.later hnow
  have hfindings : findingsIn t' r now cache' = findingsIn t r now cache := findings_congr h hlive hkeys
  have hconclusion : conclusion t' r now cache' = conclusion t r now cache := by
    rw [conclusion, conclusion, hfindings]
  have hanonymous : ∀ check, checkAnonymous t' a.anonymous r check = checkAnonymous t a.anonymous r check :=
    fun check => by rw [checkAnonymous, checkAnonymous, h.permission]
  rw [authenticate_eq, authenticate_eq, hconclusion, hanonymous, hfindings, h.listed]
  have hissue : ∀ name ∈ (Acl.domains t a.anonymous r.entry).1,
      Acl.domain t' r.entry name = Acl.domain t r.entry name := fun name _ => h.domain name
  refine ⟨by rw [issue_congr hissue], ?_⟩
  rw [issue_cache, issue_cache, issue_congr hissue]
  exact ((hlive.without _).insertAll _).withoutExpired start

/-- A call changes the cache only in the nonces that its request names and in those that it issues. -/
theorem authenticate_sameFrom (hnamed : ∀ c ∈ candidates r.authorization, keyOf c ∈ used)
    (hissued : ∀ ch ∈ (authenticate a t r now draw cache).1.challenges, ch.keys.nonce ∈ used) :
    Cache.SameFrom now used cache (authenticate a t r now draw cache).2 := by
  have hreached : ((findingsIn t r now cache).map Prod.fst).map keyOf ⊆ used := by
    intro key hkey
    obtain ⟨c, hc, rfl⟩ := List.mem_map.mp hkey
    obtain ⟨x, hx, rfl⟩ := List.mem_map.mp hc
    obtain ⟨before, after, hsplit⟩ := List.append_of_mem hx
    obtain ⟨-, rest, hcandidates⟩ := find_of_split hsplit
    exact hnamed _ (hcandidates ▸ List.mem_append_right _ (List.mem_cons_self ..))
  rw [authenticate_eq] at hissued ⊢
  rw [issue_cache]
  refine Eq.trans (Cache.SameBut.withoutExpired (Cache.insertAll_sameBut _ fun kn hkn => ?_) now) ?_
  · obtain ⟨⟨name, ch⟩, hzip, rfl⟩ := List.mem_map.mp hkn
    exact hissued ch (List.of_mem_zip hzip).2
  · rw [Cache.without_withoutExpired, Cache.withoutExpired_later _ (Nat.le_refl _), Cache.without_of_subset _ hreached]

end Calls

end EntryServer.Auth
