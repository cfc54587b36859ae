import EntryServer.Auth.Authenticator

/-! # Looking at the candidates

The candidates of a request are looked at in turn, and the first one that is allowed ends it. What the loop
comes to is read off the findings: whether one of them is allowed, tells of a rule or is stale, and which
nonces the looks have taken out of the cache. A candidate is proven exactly if it names a live nonce that no
earlier candidate names, and answers it with the secret of a user. -/
namespace EntryServer.Auth
set_option autoImplicit false

/-! ## Caches -/

theorem Nonce.isExpired_iff {n : Nonce} {now : Nat} : n.isExpired now = true ↔ n.created + n.validity < now :=
  decide_eq_true_iff

theorem Nonce.isLive_iff {n : Nonce} {now : Nat} : n.isExpired now = false ↔ now ≤ n.created + n.validity := by
  rw [← Bool.not_eq_true, isExpired_iff, Nat.not_lt]

namespace Cache

def keys (cache : Cache) : List Text := cache.map Prod.fst

/-- The cache without the nonces that have these keys. -/
def without (cache : Cache) (used : List Text) : Cache := cache.filter fun kn => !used.contains kn.1

theorem mem_without {cache : Cache} {used : List Text} {k : Text} {n : Nonce} :
    (k, n) ∈ cache.without used ↔ (k, n) ∈ cache ∧ k ∉ used := by
  rw [without, List.mem_filter, Bool.not_eq_true', ← Bool.not_eq_true, List.contains_iff_mem]

theorem mem_withoutExpired {cache : Cache} {now : Nat} {k : Text} {n : Nonce} :
    (k, n) ∈ cache.withoutExpired now ↔ (k, n) ∈ cache ∧ now ≤ n.created + n.validity := by
  rw [withoutExpired, List.mem_filter, Bool.not_eq_true', Nonce.isLive_iff]

theorem without_nil (cache : Cache) : cache.without [] = cache := by
  simp [without]

theorem without_erase (cache : Cache) (key : Text) (used : List Text) :
    (cache.erase key).without used = cache.without (key :: used) := by
  rw [erase, without, without, List.filter_filter]
  congr 1
  funext kn
  by_cases h : kn.1 = key <;> simp [h]

theorem mem_keys_erase {cache : Cache} {key k : Text} : k ∈ (cache.erase key).keys ↔ k ∈ cache.keys ∧ k ≠ key := by
  simp only [keys, erase, List.mem_map, List.mem_filter, decide_eq_true_eq]
  constructor
  · rintro ⟨kn, ⟨hkn, hne⟩, rfl⟩
    exact ⟨⟨kn, hkn, rfl⟩, hne⟩
  · rintro ⟨⟨kn, hkn, rfl⟩, hne⟩
    exact ⟨kn, ⟨hkn, hne⟩, rfl⟩

/-- Taking nonces out of a cache leaves its keys distinct. -/
theorem nodup_keys_filter {cache : Cache} (h : cache.keys.Nodup) (keep : Text × Nonce → Bool) :
    Cache.keys (cache.filter keep) |>.Nodup :=
  h.sublist ((List.filter_sublist).map Prod.fst)

theorem lookup_eq_some_iff {cache : Cache} (h : cache.keys.Nodup) {key : Text} {n : Nonce} :
    cache.lookup key = some n ↔ (key, n) ∈ cache := by
  induction cache with
  | nil => simp
  | cons kn rest ih =>
    obtain ⟨k, m⟩ := kn
    obtain ⟨hk, hrest⟩ := List.nodup_cons.mp h
    rw [List.lookup_cons]
    by_cases heq : key = k
    · subst heq
      have hout : (key, n) ∉ rest := fun hm => hk (List.mem_map.mpr ⟨_, hm, rfl⟩)
      simp [hout, eq_comm]
    · have hb : (key == k) = false := beq_eq_false_iff_ne.mpr heq
      simp [hb, heq, ih hrest]

theorem lookup_eq_none_iff {cache : Cache} {key : Text} : cache.lookup key = none ↔ key ∉ cache.keys := by
  rw [List.lookup_eq_none_iff, keys, List.mem_map]
  constructor
  · rintro h ⟨kn, hm, rfl⟩
    simpa using h kn hm
  · intro h kn hm
    exact bne_iff_ne.mpr fun heq => h ⟨kn, hm, heq.symm⟩

end Cache

/-! ## One candidate -/

/-- The key that a candidate looks up: that of the nonce it names, and the empty text if it names none. -/
def keyOf (c : Credentials) : Text := paramOf c "nonce"

theorem keyOf_eq_iff {k : Text} (hk : k ≠ []) {c : Credentials} :
    keyOf c = k ↔ c.param? "nonce".toList = some k := by
  rw [keyOf, paramOf]
  cases c.param? "nonce".toList with
  | none => simp [hk.symm]
  | some v => simp

namespace Finding

def isAllowed : Finding → Bool
  | proven (.ok .allow) => true
  | _ => false

/-- Does it tell of a rule, or of one that cannot be read? -/
def isRuled : Finding → Bool
  | proven (.ok .unset) => false
  | proven _ => true
  | _ => false

def isStale : Finding → Bool
  | stale => true
  | _ => false

def isProven : Finding → Bool
  | proven _ => true
  | _ => false

end Finding

section Looks
variable (t : FileTree) (r : Request) (now : Nat)

/-- What a look at a candidate finds. -/
def find (cache : Cache) (c : Credentials) : Finding := (examine t r now cache c).1

theorem examine_cache (cache : Cache) (c : Credentials) :
    (examine t r now cache c).2 = cache.erase (keyOf c) := by
  rw [examine, keyOf]
  cases h : cache.lookup (paramOf c "nonce") with
  | none =>
    refine (List.filter_eq_self.mpr fun kn hm => ?_).symm
    exact decide_eq_true fun heq => Cache.lookup_eq_none_iff.mp h (heq ▸ List.mem_map_of_mem hm)
  | some n => rfl

/-- The findings of the loop, each with its candidate. -/
def findings : Cache → List Credentials → List (Credentials × Finding)
  | _, [] => []
  | cache, c :: rest =>
    (c, find t r now cache c) ::
      if (find t r now cache c).isAllowed then [] else findings (cache.erase (keyOf c)) rest

/-- The candidates that the loop reaches. -/
def reached (cache : Cache) (cs : List Credentials) : List Credentials := (findings t r now cache cs).map Prod.fst

/-- The loop comes to what its findings tell, and has used up the nonces of the candidates it reached. -/
theorem checkCandidates_eq (check : Check) (cache : Cache) (cs : List Credentials) :
    checkCandidates t r now check cache cs =
      (⟨check.authorized || (findings t r now cache cs).any (·.2.isAllowed),
        check.foundRule || (findings t r now cache cs).any (·.2.isRuled),
        check.stale || (findings t r now cache cs).any (·.2.isStale)⟩,
      cache.without ((reached t r now cache cs).map keyOf)) := by
  induction cs generalizing check cache with
  | nil => simp [checkCandidates, findings, reached, Cache.without_nil]
  | cons c rest ih =>
    have hcache := examine_cache t r now cache c
    have hreached : ∀ more : List (Credentials × Finding),
        cache.without ((((c, find t r now cache c) :: more).map Prod.fst).map keyOf) =
          (cache.erase (keyOf c)).without ((more.map Prod.fst).map keyOf) := fun more =>
      (cache.without_erase ..).symm
    rw [checkCandidates, reached, findings, hreached, find]
    cases hx : examine t r now cache c with
    | mk finding cache' =>
      obtain rfl : cache' = cache.erase (keyOf c) := by rw [← hcache, hx]
      cases finding with
      | stale => simp [ih, reached, Finding.isAllowed, Finding.isRuled, Finding.isStale]
      | unproven => simp [ih, reached, Finding.isAllowed, Finding.isRuled, Finding.isStale]
      | proven result =>
        cases result with
        | error e => simp [ih, reached, Finding.isAllowed, Finding.isRuled, Finding.isStale]
        | ok permission =>
          cases permission with
          | allow => simp [Finding.isAllowed, Finding.isRuled, Finding.isStale, Cache.without_nil]
          | deny => simp [ih, reached, Finding.isAllowed, Finding.isRuled, Finding.isStale]
          | unset => simp [ih, reached, Finding.isAllowed, Finding.isRuled, Finding.isStale]

variable {t r now}

/-! ## Places in the loop -/

/-- A finding is made in the cache without the nonces of the candidates before it. -/
theorem find_of_split {cache : Cache} {cs : List Credentials} {before after : List (Credentials × Finding)}
    {c : Credentials} {finding : Finding} (h : findings t r now cache cs = before ++ (c, finding) :: after) :
    finding = find t r now (cache.without ((before.map Prod.fst).map keyOf)) c ∧
      ∃ rest, cs = before.map Prod.fst ++ c :: rest := by
  induction before generalizing cache cs with
  | nil =>
    cases cs with
    | nil => cases h
    | cons x rest =>
      rw [findings] at h
      obtain ⟨hx, -⟩ := List.cons.inj h
      obtain ⟨rfl, rfl⟩ := Prod.mk.inj hx
      exact ⟨by rw [List.map_nil, List.map_nil, Cache.without_nil], rest, rfl⟩
  | cons first before ih =>
    cases cs with
    | nil => cases h
    | cons x rest =>
      rw [findings] at h
      obtain ⟨hx, hmore⟩ := List.cons.inj h
      split at hmore
      · exact absurd hmore.symm (by simp)
      · obtain ⟨hfind, more, hmore⟩ := ih hmore
        rw [← hx, List.map_cons, List.map_cons, ← Cache.without_erase]
        exact ⟨hfind, more, by rw [hmore]; rfl⟩

/-- A candidate is reached, unless one before it is allowed. -/
theorem find_mem_findings {cache : Cache} {before after : List Credentials} {c : Credentials}
    (hopen : ∀ x ∈ findings t r now cache (before ++ c :: after), x.2.isAllowed = false) :
    (c, find t r now (cache.without (before.map keyOf)) c) ∈ findings t r now cache (before ++ c :: after) := by
  induction before generalizing cache with
  | nil =>
    rw [List.nil_append, findings, List.map_nil, Cache.without_nil]
    exact List.mem_cons_self ..
  | cons first before ih =>
    rw [List.cons_append, findings] at hopen ⊢
    have hfirst := hopen _ (List.mem_cons_self ..)
    simp only at hfirst
    rw [hfirst] at hopen ⊢
    simp only [Bool.false_eq_true, if_false] at hopen ⊢
    rw [List.map_cons, ← Cache.without_erase]
    exact List.mem_cons_of_mem _ (ih fun x hx => hopen x (List.mem_cons_of_mem _ hx))

/-! ## Stale and proven candidates -/

theorem find_isStale_iff {cache : Cache} (h : cache.keys.Nodup) {c : Credentials} :
    (find t r now cache c).isStale = true ↔ ∀ n, (keyOf c, n) ∈ cache → n.created + n.validity < now := by
  rw [find, examine, ← keyOf]
  cases hl : cache.lookup (keyOf c) with
  | none =>
    have hout := Cache.lookup_eq_none_iff.mp hl
    simp only [Finding.isStale, true_iff]
    exact fun n hn => absurd (List.mem_map_of_mem hn) hout
  | some n =>
    have hn := (Cache.lookup_eq_some_iff h).mp hl
    have hall : (∀ m, (keyOf c, m) ∈ cache → m.created + m.validity < now) ↔ n.created + n.validity < now := by
      refine ⟨fun hall => hall n hn, fun hexpired m hm => ?_⟩
      obtain rfl := Option.some.inj (hl.symm.trans ((Cache.lookup_eq_some_iff h).mpr hm))
      exact hexpired
    rw [hall, ← Nonce.isExpired_iff]
    simp only
    cases hexpired : n.isExpired now with
    | true => rfl
    | false => cases proves t r n c <;> simp [Finding.isStale]

theorem find_eq_proven_iff {cache : Cache} (h : cache.keys.Nodup) {c : Credentials}
    {result : Except StoreError Acl.Permission} :
    find t r now cache c = .proven result ↔ ∃ n, (keyOf c, n) ∈ cache ∧ now ≤ n.created + n.validity ∧
      proves t r n c = true ∧ result = Acl.permission t r.entry n.domain r.method := by
  rw [find, examine, ← keyOf]
  cases hl : cache.lookup (keyOf c) with
  | none =>
    have hout := Cache.lookup_eq_none_iff.mp hl
    simp only [reduceCtorEq, false_iff]
    rintro ⟨n, hn, -⟩
    exact hout (List.mem_map_of_mem hn)
  | some n =>
    have hn := (Cache.lookup_eq_some_iff h).mp hl
    have honly : ∀ m, (keyOf c, m) ∈ cache → m = n := fun m hm =>
      Option.some.inj (((Cache.lookup_eq_some_iff h).mpr hm).symm.trans hl)
    simp only
    constructor
    · intro hfind
      split at hfind
      · cases hfind
      · next hlive =>
        split at hfind
        · next hproves =>
          exact ⟨n, hn, Nonce.isLive_iff.mp (Bool.eq_false_iff.mpr hlive), hproves,
            (Finding.proven.inj hfind).symm⟩
        · cases hfind
    · rintro ⟨m, hm, hlive, hproves, rfl⟩
      obtain rfl := honly m hm
      simp [Nonce.isLive_iff.mpr hlive, hproves]

end Looks

end EntryServer.Auth
