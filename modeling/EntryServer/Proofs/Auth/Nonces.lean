import EntryServer.Proofs.Acl.Domains
import EntryServer.Proofs.Auth.Verdict

/-! # Single use

Over a whole run, the cache holds what was issued and neither looked up nor expired since. So a nonce proves at
most one candidate, and none after its validity, and a client is told that its nonce was stale exactly if a
candidate named none that was live. -/
namespace EntryServer.Auth
set_option autoImplicit false

/-! ## Proven candidates use their nonces up -/

section Loop
variable {t : FileTree} {r : Request} {now : Nat}

theorem key_of_proven {cache : Cache} {c : Credentials} (h : (find t r now cache c).isProven = true) :
    keyOf c ∈ cache.keys := by
  rw [find, examine, ← keyOf] at h
  cases hl : cache.lookup (keyOf c) with
  | none => rw [hl] at h; cases h
  | some n => exact Decidable.not_not.mp fun hout => by rw [Cache.lookup_eq_none_iff.mpr hout] at hl; cases hl

/-- The proven candidates of a request name different nonces, and these were in the cache. -/
theorem proven_keys (cache : Cache) (cs : List Credentials) :
    ((((findings t r now cache cs).filter (·.2.isProven)).map Prod.fst).map keyOf).Nodup ∧
      ∀ k ∈ (((findings t r now cache cs).filter (·.2.isProven)).map Prod.fst).map keyOf, k ∈ cache.keys := by
  induction cs generalizing cache with
  | nil => exact ⟨List.nodup_nil, fun k hk => nomatch hk⟩
  | cons c rest ih =>
    have hrest : ∀ more : List (Credentials × Finding),
        more = [] ∨ more = findings t r now (cache.erase (keyOf c)) rest →
        ((((more.filter (·.2.isProven)).map Prod.fst).map keyOf).Nodup ∧
          ∀ k ∈ ((more.filter (·.2.isProven)).map Prod.fst).map keyOf, k ∈ cache.keys ∧ k ≠ keyOf c) := by
      rintro more (rfl | rfl)
      · exact ⟨List.nodup_nil, fun k hk => nomatch hk⟩
      · exact ⟨(ih _).1, fun k hk => Cache.mem_keys_erase.mp ((ih _).2 k hk)⟩
    rw [findings, List.filter_cons]
    generalize hmore : (if (find t r now cache c).isAllowed then []
      else findings t r now (cache.erase (keyOf c)) rest) = more
    obtain ⟨hnodup, hkeys⟩ := hrest more (by rw [← hmore]; split <;> simp)
    split
    · next hproven =>
      rw [List.map_cons, List.map_cons, List.nodup_cons]
      refine ⟨⟨fun hmem => (hkeys _ hmem).2 rfl, hnodup⟩, fun k hk => ?_⟩
      rcases List.mem_cons.mp hk with rfl | hk
      · exact key_of_proven hproven
      · exact (hkeys k hk).1
    · exact ⟨hnodup, fun k hk => (hkeys k hk).1⟩

end Loop

/-- The keys of the nonces that prove a candidate, over a run. -/
def provenKeys (a : Authenticator) : List Call → List Text
  | [] => []
  | c :: before => (c.proven a before).map keyOf ++ provenKeys a before

section Runs
variable {a : Authenticator} {c : Call} {before calls : List Call}

theorem proven_cached : ∀ k ∈ (c.proven a before).map keyOf, k ∈ (cacheAfter a before).keys := by
  intro k hk
  obtain ⟨⟨k, n⟩, hkn, rfl⟩ := List.mem_map.mp ((proven_keys _ _).2 k hk)
  exact List.mem_map_of_mem (Cache.mem_withoutExpired.mp hkn).1

theorem proven_reached : ∀ k ∈ (c.proven a before).map keyOf, k ∈ (c.reached a before).map keyOf := by
  intro k hk
  obtain ⟨x, hx, rfl⟩ := List.mem_map.mp hk
  obtain ⟨found, hfound, rfl⟩ := List.mem_map.mp hx
  exact List.mem_map_of_mem (List.mem_map_of_mem (List.mem_filter.mp hfound).1)

/-- A nonce that has proven a candidate was issued, and it does not come back. -/
theorem proven_used_up (hdrawn : (issuedKeys a calls).Nodup) {k : Text} (hk : k ∈ provenKeys a calls) :
    k ∈ issuedKeys a calls ∧ k ∉ (cacheAfter a calls).keys := by
  induction calls with
  | nil => cases hk
  | cons c before ih =>
    obtain ⟨-, hbefore, hapart⟩ := List.nodup_append.mp hdrawn
    have hold : k ∈ issuedKeys a before ∧
        (k ∉ (cacheAfter a before).keys ∨ k ∈ (c.reached a before).map keyOf) := by
      rcases List.mem_append.mp hk with hk | hk
      · exact ⟨issued_of_cached (proven_cached k hk), .inr (proven_reached k hk)⟩
      · exact ⟨(ih hbefore hk).1, .inl (ih hbefore hk).2⟩
    refine ⟨List.mem_append_right _ hold.1, fun hmem => ?_⟩
    obtain ⟨⟨k, n⟩, hkn, rfl⟩ := List.mem_map.mp hmem
    rcases (mem_cacheAfter_cons hdrawn).mp hkn with hissued | ⟨hcached, -, hunread⟩
    · exact hapart k (List.mem_map_of_mem hissued) k hold.1 rfl
    · exact hold.2.elim (fun hout => hout (List.mem_map_of_mem hcached)) hunread

theorem nodup_provenKeys (hdrawn : (issuedKeys a calls).Nodup) : (provenKeys a calls).Nodup := by
  induction calls with
  | nil => exact List.nodup_nil
  | cons c before ih =>
    have hbefore := (List.nodup_append.mp hdrawn).2.1
    refine List.nodup_append.mpr ⟨(proven_keys _ _).1, ih hbefore, ?_⟩
    rintro k hk _ hk' rfl
    exact (proven_used_up hbefore hk').2 (proven_cached k hk)

/-! ## Stale candidates -/

/-- The candidate names a nonce that is live and that no earlier candidate of its request names. -/
def NamesLive (cache : Cache) (now : Nat) (earlier : List Credentials) (x : Credentials) : Prop :=
  ∃ k n, x.param? "nonce".toList = some k ∧ (k, n) ∈ cache ∧ now ≤ n.created + n.validity ∧
    ∀ y ∈ earlier, y.param? "nonce".toList ≠ some k

theorem namesLive_iff {cache : Cache} (hkeys : [] ∉ cache.keys) {now : Nat} {earlier : List Credentials}
    {x : Credentials} : NamesLive cache now earlier x ↔ ∃ n, (keyOf x, n) ∈ cache ∧
      now ≤ n.created + n.validity ∧ keyOf x ∉ earlier.map keyOf := by
  have hname : ∀ (y : Credentials) {k n}, (k, n) ∈ cache → (keyOf y = k ↔ y.param? "nonce".toList = some k) :=
    fun y k n hkn => keyOf_eq_iff fun hnil => hkeys (hnil ▸ List.mem_map_of_mem hkn)
  constructor
  · rintro ⟨k, n, hx, hkn, hlive, hunused⟩
    obtain rfl := (hname x hkn).mpr hx
    refine ⟨n, hkn, hlive, fun hmem => ?_⟩
    obtain ⟨y, hy, heq⟩ := List.mem_map.mp hmem
    exact hunused y hy ((hname y hkn).mp heq)
  · rintro ⟨n, hkn, hlive, hunused⟩
    refine ⟨keyOf x, n, (hname x hkn).mp rfl, hkn, hlive, fun y hy heq => hunused ?_⟩
    rw [← (hname y hkn).mpr heq]
    exact List.mem_map_of_mem hy

theorem any_stale_iff (hkeys : [] ∉ (cacheAfter a before).keys) :
    (c.found a before).any (·.2.isStale) = true ↔ ∃ earlier x later,
      c.reached a before = earlier ++ x :: later ∧ ¬ NamesLive (cacheAfter a before) c.now earlier x := by
  have hnodup := nodup_keys_cacheAfter a before
  have hstale : ∀ earlier x, (find c.tree c.request c.now
      (((cacheAfter a before).withoutExpired c.now).without (earlier.map keyOf)) x).isStale = true ↔
        ¬ NamesLive (cacheAfter a before) c.now earlier x := by
    intro earlier x
    have hleft : (((cacheAfter a before).withoutExpired c.now).without (earlier.map keyOf)).keys.Nodup :=
      Cache.nodup_keys_filter (Cache.nodup_keys_filter hnodup _) _
    rw [find_isStale_iff hleft, namesLive_iff hkeys]
    simp only [Cache.mem_without, Cache.mem_withoutExpired, not_exists, not_and, Nat.not_le.symm]
    constructor
    · exact fun h n hkn hlive hunused => h n ⟨⟨hkn, hlive⟩, hunused⟩ hlive
    · exact fun h n hkn hlive => h n hkn.1.1 hlive hkn.2
  constructor
  · intro hany
    obtain ⟨⟨x, finding⟩, hmem, hfinding⟩ := List.any_eq_true.mp hany
    obtain ⟨earlier, later, hsplit⟩ := List.append_of_mem hmem
    obtain ⟨hfind, -⟩ := find_of_split hsplit
    refine ⟨earlier.map Prod.fst, x, later.map Prod.fst, ?_, (hstale _ _).mp (hfind ▸ hfinding)⟩
    rw [Call.reached, hsplit, List.map_append, List.map_cons]
  · rintro ⟨earlier, x, later, hsplit, hdead⟩
    obtain ⟨earlier', more, hfound, rfl, hmore⟩ := List.map_eq_append_iff.mp hsplit
    obtain ⟨⟨y, finding⟩, later', rfl, rfl, rfl⟩ := List.map_eq_cons_iff.mp hmore
    obtain ⟨hfind, -⟩ := find_of_split hfound
    refine List.any_eq_true.mpr ⟨(y, finding), ?_, ?_⟩
    · rw [hfound]
      exact List.mem_append_right _ (List.mem_cons_self ..)
    · simp only
      rw [hfind]
      exact (hstale _ _).mpr hdead

/-- A challenge says that a nonce was stale exactly if it is told so. -/
theorem stale_param_iff (ch : Challenge) : quotedParam "stale" "true".toList ∈ ch.params ↔ ch.stale = true := by
  rw [Challenge.params]
  cases ch.stale with
  | true => simp
  | false => simp [quotedParam]

/-- Nonces are issued for listed domains only. -/
theorem domain_of_issued {k : Text} {n : Nonce} (h : (k, n) ∈ c.issued a before) :
    n.domain ≠ a.anonymous ∧ n.domain ≠ Acl.inherit := by
  obtain ⟨⟨name, ch⟩, hzip, hx⟩ := List.mem_map.mp h
  obtain rfl := congrArg Prod.snd hx
  exact Acl.domains_ne (List.of_mem_zip hzip).1

/-! ## The account of a run -/

/-- What a run of calls, the latest one first, does with its nonces. -/
structure Accounted (a : Authenticator) (calls : List Call) : Prop where
  /-- The cache holds what was issued, as the challenges show it, that no candidate has looked up since and that
  has not expired for the latest call. -/
  cached : ∀ k n, (k, n) ∈ cacheAfter a calls ↔ ∃ later c before, calls = later ++ c :: before ∧
    (k, n) ∈ c.issued a before ∧ k ∉ lookedUp a (c :: before) later ∧
      ∀ last ∈ calls.head?, last.now ≤ n.created + n.validity
  distinct : (cacheAfter a calls).keys.Nodup
  listed : ∀ k n, (k, n) ∈ cacheAfter a calls → n.domain ≠ a.anonymous ∧ n.domain ≠ Acl.inherit
  single : (provenKeys a calls).Nodup
  /-- The nonce of a proven candidate was issued by an earlier call, no longer ago than its validity. -/
  inTime : ∀ later c before, calls = later ++ c :: before → ∀ x ∈ c.proven a before,
    ∃ between e older n, before = between ++ e :: older ∧ (keyOf x, n) ∈ e.issued a older ∧
      c.now ≤ e.now + a.validity
  stale : ∀ later c before, calls = later ++ c :: before → ∀ ch ∈ (c.verdict a before).challenges,
    (quotedParam "stale" "true".toList ∈ ch.params ↔ ∃ earlier x later,
      c.reached a before = earlier ++ x :: later ∧ ¬ NamesLive (cacheAfter a before) c.now earlier x)

theorem accounted (htimes : calls.Pairwise fun later earlier => earlier.now ≤ later.now)
    (hfresh : Fresh a calls) : Accounted a calls where
  cached _ _ := mem_cacheAfter_iff hfresh.distinct htimes
  distinct := nodup_keys_cacheAfter a calls
  listed k n hkn := by
    obtain ⟨later, c, before, -, hissued, -⟩ := (mem_cacheAfter_iff hfresh.distinct htimes).mp hkn
    exact domain_of_issued hissued
  single := nodup_provenKeys hfresh.distinct
  inTime := by
    rintro later c before rfl x hx
    have hbefore : before <:+ later ++ c :: before := (List.suffix_cons c before).trans (List.suffix_append ..)
    obtain ⟨⟨x, finding⟩, hfound, rfl⟩ := List.mem_map.mp hx
    obtain ⟨hmem, hproven⟩ := List.mem_filter.mp hfound
    cases finding with
    | stale => cases hproven
    | unproven => cases hproven
    | proven result =>
      obtain ⟨_, _, n, -, hn, -⟩ := proven_of_finding (nodup_keys_cacheAfter a before) hmem
      obtain ⟨between, e, older, hsplit, hissued, -⟩ :=
        (mem_cacheAfter_iff (hfresh.suffix hbefore).distinct (htimes.sublist hbefore.sublist)).mp hn.cached
      refine ⟨between, e, older, n, hsplit, hissued, ?_⟩
      obtain ⟨y, -, hy⟩ := List.mem_map.mp hissued
      obtain rfl := congrArg Prod.snd hy
      exact hn.live
  stale := by
    rintro later c before rfl ch hch
    have hbefore : before <:+ later ++ c :: before := (List.suffix_cons c before).trans (List.suffix_append ..)
    have hkeys : [] ∉ (cacheAfter a before).keys := fun hmem =>
      (hfresh.suffix hbefore).ne_nil (issued_of_cached hmem) rfl
    rw [stale_param_iff, stale_of_challenge hch]
    exact any_stale_iff hkeys

end Runs

/-! ## A nonce that is named twice -/

def challengedHost : EntryPath := ⟨[.child "host".toList]⟩

/-- The host with a domain of its own. -/
def guarded : FileTree :=
  ((Store.write ((Acl.scopeOf challengedHost "admin".toList).child Acl.realmKey) (Ascii.bytes "Area")).run.run
    (FileTree.empty "data/".toList)).2

/-- A call on the host that draws keys of one byte repeated. -/
def visit (now : Nat) (byte : UInt8) (authorization : List Bytes) : Call :=
  ⟨guarded, ⟨challengedHost, challengedHost, "GET".toList, "/".toList, authorization⟩, now,
    fun _ => .ofBytes (List.replicate 12 byte) (List.replicate 12 byte)⟩

def attempt : Bytes := Ascii.bytes "Digest nonce=\"AAAAAAAAAAAAAAAA\", algorithm=\"MD5\", qop=\"auth\""

def visits : List Call := [visit 900 1 [attempt, attempt], visit 0 0 []]

/-- The first visit issues a nonce, and the second one names it twice, so that it is stale then. -/
theorem accounted_visits : visits.Pairwise (fun later earlier => earlier.now ≤ later.now) ∧
    Fresh ⟨Acl.anonymous, 1000⟩ visits ∧ Accounted ⟨Acl.anonymous, 1000⟩ visits ∧
    ∃ ch, ((visit 900 1 [attempt, attempt]).verdict ⟨Acl.anonymous, 1000⟩ [visit 0 0 []]).challenges = [ch] ∧
      quotedParam "stale" "true".toList ∈ ch.params := by
  have htimes : visits.Pairwise (fun later earlier => earlier.now ≤ later.now) := by decide
  have hfresh : Fresh ⟨Acl.anonymous, 1000⟩ visits := by
    refine ⟨fun c hc i => ?_, by decide +kernel⟩
    simp only [visits, List.mem_cons, List.not_mem_nil, or_false] at hc
    rcases hc with rfl | rfl
    · exact ⟨_, _, rfl, rfl, rfl⟩
    · exact ⟨_, _, rfl, rfl, rfl⟩
  exact ⟨htimes, hfresh, accounted htimes hfresh, ⟨"Area".toList, "/".toList, ⟨"AQEBAQEBAQEBAQEB".toList,
    "AQEBAQEBAQEBAQEB".toList⟩, true⟩, by decide +kernel, by decide +kernel⟩

end EntryServer.Auth
