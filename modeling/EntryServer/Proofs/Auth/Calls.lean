import EntryServer.Proofs.Auth.Candidates
import EntryServer.Proofs.Text.Base64

/-! # Runs of calls

A call finds the cache as the calls before it have left it. It drops the nonces that have expired, takes out
those that its candidates look up, and adds those of its challenges, in this order. So with keys that are drawn
once only, the cache of a run holds the nonces that were issued and have neither been looked up nor expired
since. -/
namespace EntryServer.Auth
set_option autoImplicit false

/-! ## One call in its parts -/

section Parts
variable (a : Authenticator) (t : FileTree) (r : Request) (now : Nat) (draw : Nat → Keys) (cache : Cache)

/-- What the loop finds in a request. -/
def findingsIn : List (Credentials × Finding) :=
  findings t r now (cache.withoutExpired now) (candidates r.authorization)

/-- What the loop concludes from its findings. -/
def conclusion : Check :=
  ⟨(findingsIn t r now cache).any (·.2.isAllowed), (findingsIn t r now cache).any (·.2.isRuled),
    (findingsIn t r now cache).any (·.2.isStale)⟩

theorem checkCandidates_conclusion :
    checkCandidates t r now ⟨false, false, false⟩ (cache.withoutExpired now) (candidates r.authorization) =
      (conclusion t r now cache,
        (cache.withoutExpired now).without (((findingsIn t r now cache).map Prod.fst).map keyOf)) := by
  rw [checkCandidates_eq, Bool.false_or, Bool.false_or, Bool.false_or]
  rfl

theorem checkAnonymous_stale (open_ : Text) (check : Check) : (checkAnonymous t open_ r check).stale = check.stale := by
  unfold checkAnonymous
  split
  · rfl
  · split
    · rfl
    · rfl

/-- A call in its parts: what the loop and the rule for everybody come to, and the challenges. -/
theorem authenticateDrawn_eq (keys : Nat → Option Keys) : authenticateDrawn a t r now keys cache =
    (⟨if (checkAnonymous t a.anonymous r (conclusion t r now cache)).foundRule then
          (checkAnonymous t a.anonymous r (conclusion t r now cache)).authorized
        else (Acl.domains t a.anonymous r.entry).1.isEmpty,
      (issueDrawn a t r now (conclusion t r now cache).stale keys 0
        ((cache.withoutExpired now).without (((findingsIn t r now cache).map Prod.fst).map keyOf))
        (Acl.domains t a.anonymous r.entry).1).1⟩,
    (issueDrawn a t r now (conclusion t r now cache).stale keys 0
      ((cache.withoutExpired now).without (((findingsIn t r now cache).map Prod.fst).map keyOf))
      (Acl.domains t a.anonymous r.entry).1).2) := by
  rw [authenticateDrawn, checkCandidates_conclusion]
  simp only [checkAnonymous_stale]

theorem authenticate_eq : authenticate a t r now draw cache =
    (⟨if (checkAnonymous t a.anonymous r (conclusion t r now cache)).foundRule then
          (checkAnonymous t a.anonymous r (conclusion t r now cache)).authorized
        else (Acl.domains t a.anonymous r.entry).1.isEmpty,
      (issue a t r now (conclusion t r now cache).stale draw 0
        ((cache.withoutExpired now).without (((findingsIn t r now cache).map Prod.fst).map keyOf))
        (Acl.domains t a.anonymous r.entry).1).1⟩,
    (issue a t r now (conclusion t r now cache).stale draw 0
      ((cache.withoutExpired now).without (((findingsIn t r now cache).map Prod.fst).map keyOf))
      (Acl.domains t a.anonymous r.entry).1).2) :=
  authenticateDrawn_eq a t r now cache _

end Parts

/-! ## Adding nonces to a cache -/

namespace Cache

def insertAll (cache : Cache) (more : List (Text × Nonce)) : Cache :=
  more.foldl (fun cache kn => cache.insert kn.1 kn.2) cache

theorem mem_keys_insert {cache : Cache} {key k : Text} {n : Nonce} :
    k ∈ (cache.insert key n).keys ↔ k = key ∨ k ∈ cache.keys := by
  simp only [insert, erase, keys, List.map_append, List.mem_append, List.mem_map, List.mem_filter]
  by_cases h : k = key
  · simp [h]
  · simp [h, Ne.symm h]

theorem nodup_keys_insert {cache : Cache} (h : cache.keys.Nodup) (key : Text) (n : Nonce) :
    (cache.insert key n).keys.Nodup := by
  rw [insert, keys, List.map_append, List.nodup_append]
  refine ⟨nodup_keys_filter h _, by simp, ?_⟩
  intro x hx y hy hxy
  obtain ⟨kn, hkn, rfl⟩ := List.mem_map.mp hx
  obtain rfl : y = key := by simpa using hy
  exact of_decide_eq_true (List.mem_filter.mp hkn).2 hxy

theorem mem_keys_insertAll {cache : Cache} {more : List (Text × Nonce)} {k : Text} :
    k ∈ (cache.insertAll more).keys ↔ k ∈ cache.keys ∨ k ∈ more.map Prod.fst := by
  induction more generalizing cache with
  | nil => simp [insertAll]
  | cons kn more ih =>
    have hstep : cache.insertAll (kn :: more) = (cache.insert kn.1 kn.2).insertAll more := rfl
    rw [hstep, ih, mem_keys_insert, List.map_cons, List.mem_cons, or_assoc, or_left_comm]

theorem nodup_keys_insertAll {cache : Cache} (h : cache.keys.Nodup) (more : List (Text × Nonce)) :
    (cache.insertAll more).keys.Nodup := by
  induction more generalizing cache with
  | nil => exact h
  | cons kn more ih => exact ih (nodup_keys_insert h ..)

theorem insert_eq {cache : Cache} {key : Text} (h : key ∉ cache.keys) (n : Nonce) :
    cache.insert key n = cache ++ [(key, n)] := by
  rw [insert, erase, List.filter_eq_self.mpr]
  exact fun kn hkn => decide_eq_true fun heq => h (heq ▸ List.mem_map_of_mem hkn)

/-- Nonces with new and distinct keys go behind those that are there. -/
theorem insertAll_eq {cache : Cache} {more : List (Text × Nonce)} (hnodup : (more.map Prod.fst).Nodup)
    (hnew : ∀ k ∈ more.map Prod.fst, k ∉ cache.keys) : cache.insertAll more = cache ++ more := by
  induction more generalizing cache with
  | nil => exact (List.append_nil _).symm
  | cons kn more ih =>
    obtain ⟨hkn, hmore⟩ := List.nodup_cons.mp hnodup
    have hkey := hnew kn.1 (List.mem_cons_self ..)
    have hstep : cache.insertAll (kn :: more) = (cache.insert kn.1 kn.2).insertAll more := rfl
    rw [hstep, ih hmore, insert_eq hkey, List.append_assoc]
    · rfl
    · intro k hk hmem
      rcases mem_keys_insert.mp hmem with rfl | hold
      · exact hkn hk
      · exact hnew k (List.mem_cons_of_mem _ hk) hold

/-- There is nothing but what was there and what is added. -/
theorem of_mem_insertAll {cache : Cache} {more : List (Text × Nonce)} {kn : Text × Nonce}
    (h : kn ∈ cache.insertAll more) : kn ∈ cache ∨ kn ∈ more := by
  induction more generalizing cache with
  | nil => exact Or.inl h
  | cons x more ih =>
    rcases ih h with hold | hmore
    · rcases List.mem_append.mp hold with hold | hx
      · exact Or.inl (List.mem_filter.mp hold).1
      · exact Or.inr (List.mem_cons.mpr (Or.inl (List.mem_singleton.mp hx)))
    · exact Or.inr (List.mem_cons_of_mem x hmore)

/-- What is added stays, and so does what was there, unless something that is added has the same key. -/
theorem mem_insertAll {cache : Cache} {more : List (Text × Nonce)} (hnodup : (more.map Prod.fst).Nodup)
    {kn : Text × Nonce} (h : kn ∈ more ∨ kn ∈ cache ∧ kn.1 ∉ more.map Prod.fst) : kn ∈ cache.insertAll more := by
  induction more generalizing cache with
  | nil => exact h.elim (fun h => nomatch h) And.left
  | cons x more ih =>
    obtain ⟨hx, hmore⟩ := List.nodup_cons.mp hnodup
    refine ih hmore ?_
    rcases h with h | ⟨h, hkey⟩
    · rcases List.mem_cons.mp h with rfl | h
      · exact Or.inr ⟨List.mem_append_right _ (List.mem_singleton.mpr rfl), hx⟩
      · exact Or.inl h
    · rw [List.map_cons, List.mem_cons, not_or] at hkey
      exact Or.inr ⟨List.mem_append_left _ (List.mem_filter.mpr ⟨h, decide_eq_true hkey.1⟩), hkey.2⟩

end Cache

/-! ## Challenges and their nonces -/

/-- What is remembered of the challenge for a domain, with the key it is found by. -/
def remembered (a : Authenticator) (now : Nat) (x : Text × Challenge) : Text × Nonce :=
  (x.2.keys.nonce, ⟨now, a.validity, x.2.keys.echo, x.1, x.2.realm⟩)

section Issue
variable (a : Authenticator) (t : FileTree) (r : Request) (now : Nat) (stale : Bool) (draw : Nat → Keys)

theorem issue_challenges (drawn : Nat) (cache : Cache) (names : List Text) :
    (issue a t r now stale draw drawn cache names).1 =
      names.mapIdx fun i name => (challengeFor a t r now stale (draw (drawn + i)) name).1 := by
  induction names generalizing drawn cache with
  | nil => rfl
  | cons name rest ih =>
    rw [issue_cons, List.mapIdx_cons]
    simp only [ih, Nat.add_zero, Nat.add_assoc, Nat.add_comm 1]

/-- The cache has everything that the challenges show added to it. -/
theorem issue_cache (drawn : Nat) (cache : Cache) (names : List Text) :
    (issue a t r now stale draw drawn cache names).2 =
      cache.insertAll ((names.zip (issue a t r now stale draw drawn cache names).1).map (remembered a now)) := by
  induction names generalizing drawn cache with
  | nil => rfl
  | cons name rest ih =>
    rw [issue_cons]
    exact ih _ _

variable {a t r now stale draw} {drawn : Nat} {cache : Cache} {names : List Text}

/-- A challenge is made for one of the names with one of the drawn keys. -/
theorem challenge_of_issue {name : Text} {ch : Challenge}
    (h : (name, ch) ∈ names.zip (issue a t r now stale draw drawn cache names).1) :
    name ∈ names ∧ ∃ i < names.length, ch = (challengeFor a t r now stale (draw (drawn + i)) name).1 := by
  rw [issue_challenges] at h
  obtain ⟨i, hi, hget⟩ := List.mem_iff_getElem.mp h
  rw [List.getElem_zip, Prod.mk.injEq, List.getElem_mapIdx] at hget
  obtain ⟨rfl, rfl⟩ := hget
  exact ⟨List.getElem_mem _, i, (List.lt_length_left_of_zip hi), rfl⟩

theorem issue_length : (issue a t r now stale draw drawn cache names).1.length = names.length := by
  rw [issue_challenges, List.length_mapIdx]

end Issue

/-! ## Draws that fail -/

/-- The domains that keys are drawn for, each with its keys. -/
def drawnFor (keys : Nat → Option Keys) (drawn : Nat) : List Text → List (Text × Keys)
  | [] => []
  | name :: rest =>
    match keys drawn with
    | none => drawnFor keys (drawn + 1) rest
    | some pair => (name, pair) :: drawnFor keys (drawn + 1) rest

section Draws
variable (a : Authenticator) (t : FileTree) (r : Request) (now : Nat) (stale : Bool) (keys : Nat → Option Keys)

theorem drawn_of_mem {keys : Nat → Option Keys} {drawn : Nat} {names : List Text} {x : Text × Keys}
    (h : x ∈ drawnFor keys drawn names) : x.1 ∈ names ∧ ∃ i, keys i = some x.2 := by
  induction names generalizing drawn with
  | nil => cases h
  | cons name rest ih =>
    rw [drawnFor] at h
    split at h
    · exact ⟨List.mem_cons_of_mem name (ih h).1, (ih h).2⟩
    · next pair hpair =>
      rcases List.mem_cons.mp h with rfl | h
      · exact ⟨List.mem_cons_self .., drawn, hpair⟩
      · exact ⟨List.mem_cons_of_mem name (ih h).1, (ih h).2⟩

theorem issueDrawn_challenges (drawn : Nat) (cache : Cache) (names : List Text) :
    (issueDrawn a t r now stale keys drawn cache names).1 =
      (drawnFor keys drawn names).map fun x => (challengeFor a t r now stale x.2 x.1).1 := by
  induction names generalizing drawn cache with
  | nil => rfl
  | cons name rest ih =>
    rw [issueDrawn, drawnFor]
    cases keys drawn with
    | none => exact ih _ _
    | some pair => exact congrArg _ (ih _ _)

theorem issueDrawn_cache (drawn : Nat) (cache : Cache) (names : List Text) :
    (issueDrawn a t r now stale keys drawn cache names).2 = cache.insertAll ((drawnFor keys drawn names).map fun x =>
      remembered a now (x.1, (challengeFor a t r now stale x.2 x.1).1)) := by
  induction names generalizing drawn cache with
  | nil => rfl
  | cons name rest ih =>
    rw [issueDrawn, drawnFor]
    cases keys drawn with
    | none => exact ih _ _
    | some pair => exact ih _ _

end Draws

/-! ## The clock -/

section Clock
variable {a : Authenticator} {t : FileTree} {r : Request} {now : Nat} {keys : Nat → Option Keys} {cache : Cache}

theorem fitsClock_iff : cache.fitsClock = true ↔ ∀ kn ∈ cache, kn.2.expiry < Cache.clockLimit := by
  rw [Cache.fitsClock, List.all_eq_true]
  exact forall₂_congr fun kn _ => decide_eq_true_iff

theorem authenticateDrawn?_of_fits (h : cache.fitsClock = true) :
    authenticateDrawn? a t r now keys cache = some (authenticateDrawn a t r now keys cache) := if_pos h

/-- What a call leaves in the cache was there, or expires a validity after the call. -/
theorem fitsClock_authenticateDrawn (h : cache.fitsClock = true) (hlimit : now + a.validity < Cache.clockLimit) :
    (authenticateDrawn a t r now keys cache).2.fitsClock = true := by
  refine fitsClock_iff.mpr fun kn hkn => ?_
  rw [authenticateDrawn_eq, issueDrawn_cache] at hkn
  rcases Cache.of_mem_insertAll hkn with hold | hissued
  · exact fitsClock_iff.mp h kn (Cache.mem_withoutExpired.mp (Cache.mem_without.mp hold).1).1
  · obtain ⟨x, -, rfl⟩ := List.mem_map.mp hissued
    exact hlimit

end Clock

/-! ## Calls in turn -/

structure Call where
  tree : FileTree
  request : Request
  now : Nat
  draw : Nat → Keys

/-- The cache that calls leave behind, the latest one first. -/
def cacheAfter (a : Authenticator) : List Call → Cache
  | [] => []
  | c :: before => (authenticate a c.tree c.request c.now c.draw (cacheAfter a before)).2

namespace Call
variable (a : Authenticator) (c : Call) (before : List Call)

/-- The domains that a call challenges. -/
def domains : List Text := (Acl.domains c.tree a.anonymous c.request.entry).1

/-- What a call answers after others. -/
def verdict : Verdict := (authenticate a c.tree c.request c.now c.draw (cacheAfter a before)).1

/-- The candidates that the loop of a call reaches, each with what it finds. -/
def found : List (Credentials × Finding) := findingsIn c.tree c.request c.now (cacheAfter a before)

def reached : List Credentials := (c.found a before).map Prod.fst

/-- The candidates that pass all checks up to the response. -/
def proven : List Credentials := ((c.found a before).filter (·.2.isProven)).map Prod.fst

/-- The nonces that a call issues, as its challenges show them. -/
def issued : List (Text × Nonce) := ((c.domains a).zip (c.verdict a before).challenges).map (remembered a c.now)

end Call

/-- The keys of all nonces that calls issue. -/
def issuedKeys (a : Authenticator) : List Call → List Text
  | [] => []
  | c :: before => (c.issued a before).map Prod.fst ++ issuedKeys a before

/-- Keys are random bytes, and no nonce is drawn twice. -/
structure Fresh (a : Authenticator) (calls : List Call) : Prop where
  drawn : ∀ c ∈ calls, ∀ i, ∃ nonce echo : Bytes,
    nonce.length = 12 ∧ echo.length = 12 ∧ c.draw i = .ofBytes nonce echo
  distinct : (issuedKeys a calls).Nodup

/-- The keys that calls look up after some start. -/
def lookedUp (a : Authenticator) (start : List Call) : List Call → List Text
  | [] => []
  | c :: later => (c.reached a (later ++ start)).map keyOf ++ lookedUp a start later

section Runs
variable {a : Authenticator} {c : Call} {before calls : List Call}

theorem cacheAfter_cons : cacheAfter a (c :: before) =
    (((cacheAfter a before).withoutExpired c.now).without ((c.reached a before).map keyOf)).insertAll
      (c.issued a before) := by
  rw [cacheAfter, Call.issued, Call.verdict, authenticate_eq, issue_cache]
  rfl

/-- A challenge is made for one of the domains with one of the drawn keys. -/
theorem challenge_of_zip {name : Text} {ch : Challenge}
    (h : (name, ch) ∈ (c.domains a).zip (c.verdict a before).challenges) :
    name ∈ c.domains a ∧ ∃ i stale, ch = (challengeFor a c.tree c.request c.now stale (c.draw i) name).1 := by
  rw [Call.verdict, authenticate_eq] at h
  obtain ⟨hname, i, -, rfl⟩ := challenge_of_issue h
  exact ⟨hname, 0 + i, _, rfl⟩

/-- All challenges of a call tell the same of its candidates. -/
theorem stale_of_challenge {ch : Challenge} (h : ch ∈ (c.verdict a before).challenges) :
    ch.stale = (c.found a before).any (·.2.isStale) := by
  rw [Call.verdict, authenticate_eq, issue_challenges] at h
  obtain ⟨i, hi, rfl⟩ := List.mem_mapIdx.mp h
  rfl

theorem issuedKeys_suffix {older : List Call} (h : older <:+ calls) : issuedKeys a older <:+ issuedKeys a calls := by
  induction calls with
  | nil => exact List.suffix_nil.mp h ▸ List.suffix_rfl
  | cons c before ih =>
    rcases List.suffix_cons_iff.mp h with rfl | h
    · exact List.suffix_rfl
    · exact (ih h).trans (List.suffix_append ..)

theorem Fresh.suffix {older : List Call} (h : Fresh a calls) (hsuffix : older <:+ calls) : Fresh a older :=
  ⟨fun c hc => h.drawn c (hsuffix.subset hc), h.distinct.sublist (issuedKeys_suffix hsuffix).sublist⟩

/-- The keys that are shown to clients are not empty. -/
theorem Fresh.ne_nil (h : Fresh a calls) {k : Text} (hk : k ∈ issuedKeys a calls) : k ≠ [] := by
  obtain ⟨hdrawn, -⟩ := h
  induction calls with
  | nil => cases hk
  | cons c before ih =>
    rcases List.mem_append.mp hk with hissued | hold
    · obtain ⟨kn, hkn, rfl⟩ := List.mem_map.mp hissued
      obtain ⟨⟨name, ch⟩, hzip, rfl⟩ := List.mem_map.mp hkn
      obtain ⟨-, i, stale, rfl⟩ := challenge_of_zip hzip
      obtain ⟨nonce, echo, hlength, -, hkeys⟩ := hdrawn c (List.mem_cons_self ..) i
      have hkey : (remembered a c.now (name, (challengeFor a c.tree c.request c.now stale (c.draw i) name).1)).1 =
          (c.draw i).nonce := rfl
      rw [hkey, hkeys]
      exact Base64.encode_ne_nil fun hnil => absurd hlength (by rw [hnil]; decide)
    · exact ih hold fun c hc => hdrawn c (List.mem_cons_of_mem _ hc)

/-- The loop looks at candidates of the request only. -/
theorem candidate_of_found {x : Credentials × Finding} (h : x ∈ c.found a before) :
    x.1 ∈ candidates c.request.authorization := by
  obtain ⟨earlier, later, hsplit⟩ := List.append_of_mem h
  obtain ⟨-, rest, hcandidates⟩ := find_of_split hsplit
  rw [hcandidates]
  exact List.mem_append_right _ (List.mem_cons_self ..)

theorem nodup_keys_cacheAfter (a : Authenticator) (calls : List Call) : (cacheAfter a calls).keys.Nodup := by
  induction calls with
  | nil => exact List.nodup_nil
  | cons c before ih =>
    rw [cacheAfter_cons]
    exact Cache.nodup_keys_insertAll (Cache.nodup_keys_filter (Cache.nodup_keys_filter ih _) _) _

/-- Whatever keys are drawn, a nonce in the cache has been issued. -/
theorem issued_of_cached {k : Text} (h : k ∈ (cacheAfter a calls).keys) : k ∈ issuedKeys a calls := by
  induction calls with
  | nil => cases h
  | cons c before ih =>
    rw [cacheAfter_cons, Cache.mem_keys_insertAll] at h
    rcases h with hold | hnew
    · obtain ⟨⟨k, n⟩, hkn, rfl⟩ := List.mem_map.mp hold
      have hcached := (Cache.mem_withoutExpired.mp (Cache.mem_without.mp hkn).1).1
      exact List.mem_append_right _ (ih (List.mem_map_of_mem hcached))
    · exact List.mem_append_left _ hnew

/-- A cached nonce goes back to the time of a call. -/
theorem origin_of_cached {kn : Text × Nonce} (h : kn ∈ cacheAfter a calls) :
    ∃ c ∈ calls, kn.2.created = c.now ∧ kn.2.validity = a.validity := by
  induction calls with
  | nil => cases h
  | cons c before ih =>
    rw [cacheAfter_cons] at h
    rcases Cache.of_mem_insertAll h with hold | hissued
    · obtain ⟨e, he, horigin⟩ := ih (Cache.mem_withoutExpired.mp (Cache.mem_without.mp hold).1).1
      exact ⟨e, List.mem_cons_of_mem c he, horigin⟩
    · obtain ⟨x, -, rfl⟩ := List.mem_map.mp hissued
      exact ⟨c, List.mem_cons_self .., rfl, rfl⟩

/-- No nonce outlasts the clock unless one that is issued now would. -/
theorem fitsClock_cacheAfter {now : Nat} (hnow : ∀ c ∈ calls, c.now ≤ now)
    (hlimit : now + a.validity < Cache.clockLimit) : (cacheAfter a calls).fitsClock = true := by
  refine List.all_eq_true.mpr fun kn hkn => decide_eq_true ?_
  obtain ⟨c, hc, hcreated, hvalidity⟩ := origin_of_cached hkn
  rw [Nonce.expiry, hcreated, hvalidity]
  exact Nat.lt_of_le_of_lt (Nat.add_le_add_right (hnow c hc) _) hlimit

/-- The first call leaves a nonce for each of its domains. -/
theorem exists_cached (h : c.domains a ≠ []) :
    ∃ kn ∈ cacheAfter a [c], kn.2.created = c.now ∧ kn.2.validity = a.validity := by
  have hissued : c.issued a [] ≠ [] := by
    have hlength : (c.verdict a []).challenges.length = (c.domains a).length := by
      rw [Call.verdict, authenticate_eq]
      exact issue_length
    rw [Call.issued, ← List.length_pos_iff, List.length_map, List.length_zip, hlength, Nat.min_self]
    exact List.length_pos_iff.mpr h
  obtain ⟨kn, more, hmore⟩ := List.exists_cons_of_ne_nil hissued
  have hkey : kn.1 ∈ (cacheAfter a [c]).keys := by
    rw [cacheAfter_cons, Cache.mem_keys_insertAll, hmore]
    exact Or.inr (List.mem_cons_self ..)
  obtain ⟨found, hfound, -⟩ := List.mem_map.mp hkey
  obtain ⟨e, he, horigin⟩ := origin_of_cached hfound
  rw [List.mem_singleton.mp he] at horigin
  exact ⟨found, hfound, horigin⟩

/-- What one call does to the cache, if it draws keys that have not been drawn. -/
theorem mem_cacheAfter_cons (hdrawn : (issuedKeys a (c :: before)).Nodup) {k : Text} {n : Nonce} :
    (k, n) ∈ cacheAfter a (c :: before) ↔ (k, n) ∈ c.issued a before ∨
      (k, n) ∈ cacheAfter a before ∧ c.now ≤ n.created + n.validity ∧
        k ∉ (c.reached a before).map keyOf := by
  obtain ⟨hissued, -, hapart⟩ := List.nodup_append.mp hdrawn
  rw [cacheAfter_cons, Cache.insertAll_eq hissued, List.mem_append, Cache.mem_without, Cache.mem_withoutExpired,
    or_comm, and_assoc]
  intro k hk hold
  obtain ⟨kn, hkn, rfl⟩ := List.mem_map.mp hold
  have hcached := (Cache.mem_withoutExpired.mp (Cache.mem_without.mp hkn).1).1
  exact hapart kn.1 hk kn.1 (issued_of_cached (List.mem_map_of_mem hcached)) rfl

/-- The cache of a run: the nonces that were issued, and neither looked up since nor expired for its latest call. -/
theorem mem_cacheAfter_iff (hdrawn : (issuedKeys a calls).Nodup)
    (htimes : calls.Pairwise fun later earlier => earlier.now ≤ later.now) {k : Text} {n : Nonce} :
    (k, n) ∈ cacheAfter a calls ↔ ∃ later c before, calls = later ++ c :: before ∧
      (k, n) ∈ c.issued a before ∧ k ∉ lookedUp a (c :: before) later ∧
        ∀ last ∈ calls.head?, last.now ≤ n.created + n.validity := by
  induction calls with
  | nil => simp [cacheAfter]
  | cons last calls ih =>
    obtain ⟨hlast, htimes⟩ := List.pairwise_cons.mp htimes
    rw [mem_cacheAfter_cons hdrawn, ih (List.nodup_append.mp hdrawn).2.1 htimes]
    constructor
    · rintro (hissued | ⟨⟨later, c, before, rfl, hissued, hkept, -⟩, hlive, hunread⟩)
      · refine ⟨[], last, calls, rfl, hissued, List.not_mem_nil, ?_⟩
        rintro _ ⟨⟩
        obtain ⟨x, -, hx⟩ := List.mem_map.mp hissued
        obtain rfl := congrArg Prod.snd hx
        exact Nat.le_add_right _ _
      · refine ⟨last :: later, c, before, rfl, hissued, ?_, ?_⟩
        · rw [lookedUp, List.mem_append, not_or]
          exact ⟨hunread, hkept⟩
        · rintro _ ⟨⟩
          exact hlive
    · rintro ⟨later, c, before, hsplit, hissued, hkept, hlive⟩
      have hnow := hlive last rfl
      rcases List.cons_eq_append_iff.mp hsplit with ⟨rfl, hcons⟩ | ⟨later, rfl, rfl⟩
      · obtain ⟨rfl, rfl⟩ := List.cons.inj hcons
        exact .inl hissued
      · rw [lookedUp, List.mem_append, not_or] at hkept
        refine .inr ⟨⟨later, c, before, rfl, hissued, hkept.2, fun x hx => ?_⟩, hnow, hkept.1⟩
        exact Nat.le_trans (hlast x (List.mem_of_mem_head? hx)) hnow

end Runs

end EntryServer.Auth
