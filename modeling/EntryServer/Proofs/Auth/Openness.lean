import EntryServer.Proofs.Acl.Failures
import EntryServer.Proofs.Auth.Verdict

/-! # Open access

A request is granted by a rule: that of a domain for which one of its candidates is proven, or that for
everybody. Without a rule it is open if no domain is listed. When access is open is fixed here: an ancestor whose
domains cannot be listed closes it unless every climb for a permission has ended below, and credentials close it
if they are proven for a domain with a rule. -/
namespace EntryServer.Auth
set_option autoImplicit false

section Grants
variable (a : Authenticator) (t : FileTree) (r : Request) (now : Nat) (cache : Cache)

/-- Some candidate proves the secret of a user with the nonce. -/
def Proven (c : Credentials) (n : Nonce) : Prop :=
  ∃ earlier later, candidates r.authorization = earlier ++ c :: later ∧ ProvesAfter t r now cache earlier c n

/-- A rule allows the request. -/
def Granted : Prop :=
  (∃ c n, Proven t r now cache c n ∧ Acl.permission t r.entry n.domain r.method = .ok .allow) ∨
    Acl.permission t r.entry a.anonymous r.method = .ok .allow

/-- The domains that the request asks for a permission: the one that is open to everybody, and those for which a
candidate is proven. -/
def Asked (domain : Text) : Prop :=
  domain = a.anonymous ∨ ∃ c n, Proven t r now cache c n ∧ n.domain = domain

/-- No domain that is asked has a rule, and none is listed. -/
def IsOpen : Prop :=
  (Acl.domains t a.anonymous r.entry).1 = [] ∧
    ∀ domain, Asked a t r now cache domain → Acl.permission t r.entry domain r.method = .ok .unset

variable {a t r now cache}

theorem authorized_granted_iff (hkeys : cache.keys.Nodup) (draw : Nat → Keys) :
    (authenticate a t r now draw cache).1.authorized = true ↔ Granted a t r now cache ∨ IsOpen a t r now cache := by
  have hallowed : (findingsIn t r now cache).any (·.2.isAllowed) = true ↔
      ∃ c n, Proven t r now cache c n ∧ Acl.permission t r.entry n.domain r.method = .ok .allow := by
    rw [any_allowed_iff hkeys]
    constructor
    · rintro ⟨earlier, c, later, n, hsplit, hn, hallow⟩
      exact ⟨c, n, ⟨earlier, later, hsplit, hn⟩, hallow⟩
    · rintro ⟨c, n, ⟨earlier, later, hsplit, hn⟩, hallow⟩
      exact ⟨earlier, c, later, n, hsplit, hn, hallow⟩
  rw [authorized_eq, Granted, ← hallowed]
  cases hopen : (findingsIn t r now cache).any (·.2.isAllowed) with
  | true => simp
  | false =>
    have hruled : (findingsIn t r now cache).any (·.2.isRuled) = false ↔
        ∀ c n, Proven t r now cache c n → Acl.permission t r.entry n.domain r.method = .ok .unset := by
      rw [any_ruled_iff hkeys hopen]
      constructor
      · rintro h c n ⟨earlier, later, hsplit, hn⟩
        exact h earlier c later n hsplit hn
      · intro h earlier c later n hsplit hn
        exact h c n ⟨earlier, later, hsplit, hn⟩
    have hasked : (∀ domain, Asked a t r now cache domain → Acl.permission t r.entry domain r.method = .ok .unset) ↔
        Acl.permission t r.entry a.anonymous r.method = .ok .unset ∧
          (findingsIn t r now cache).any (·.2.isRuled) = false := by
      rw [hruled]
      constructor
      · exact fun h => ⟨h _ (Or.inl rfl), fun c n hn => h _ (Or.inr ⟨c, n, hn, rfl⟩)⟩
      · rintro ⟨hanonymous, hproven⟩ domain (rfl | ⟨c, n, hn, rfl⟩)
        · exact hanonymous
        · exact hproven c n hn
    rw [IsOpen, hasked]
    cases Acl.permission t r.entry a.anonymous r.method with
    | error e => simp
    | ok permission =>
      cases permission with
      | allow => simp
      | deny => simp
      | unset => simp [and_comm]

/-- Where access is open, no rule allows. -/
theorem IsOpen.not_granted (h : IsOpen a t r now cache) : ¬ Granted a t r now cache := by
  rintro (⟨c, n, hn, hallow⟩ | hallow)
  · rw [h.2 _ (Or.inr ⟨c, n, hn, rfl⟩)] at hallow
    cases hallow
  · rw [h.2 _ (Or.inl rfl)] at hallow
    cases hallow

/-- Only rules grant a request, unless access is open. -/
theorem granted_only_iff (hkeys : cache.keys.Nodup) (draw : Nat → Keys) :
    ((authenticate a t r now draw cache).1.authorized = true → Granted a t r now cache) ↔
      ¬ IsOpen a t r now cache := by
  rw [authorized_granted_iff hkeys]
  constructor
  · exact fun h hopen => hopen.not_granted (h (Or.inr hopen))
  · exact fun h hauthorized => hauthorized.resolve_right h

theorem not_proven_without_credentials (hnone : r.authorization = []) (c : Credentials) (n : Nonce) :
    ¬ Proven t r now cache c n := by
  rintro ⟨earlier, later, hsplit, -⟩
  rw [hnone] at hsplit
  simp [candidates] at hsplit

theorem nodup_keys_nil : (Cache.keys []).Nodup := List.nodup_nil

theorem not_proven_without_nonces (c : Credentials) (n : Nonce) : ¬ Proven t r now [] c n := by
  rintro ⟨earlier, later, -, hn⟩
  exact List.not_mem_nil hn.cached

end Grants

/-! ## A note -/

def exposedNote : EntryPath := ⟨[.child "note".toList]⟩

def everybody : Authenticator := ⟨Acl.anonymous, 1000⟩

/-- A request that reads the note. -/
def reading (authorization : List Bytes) : Request := ⟨.root, exposedNote, "GET".toList, "/note".toList, authorization⟩

def noKeys (_ : Nat) : Keys := ⟨[], []⟩

/-- The store after contents have been written into the configuration of an entry. -/
def withConfig (e : EntryPath) (contents : List (String × String)) (t : FileTree) : FileTree :=
  contents.foldl (fun t kv => ((Store.write ((Acl.configOf e).child kv.1.toList) (Ascii.bytes kv.2)).run.run t).2) t

/-! ## Failures -/

section Failures
variable {a : Authenticator} {t : FileTree} {r : Request} {now : Nat} {cache : Cache}

/-- Where a permission cannot be read, only rules grant a request. Where the domains of an ancestor cannot be
listed, only rules do unless no other domain is listed and every climb for a permission ends below the ancestor. -/
theorem failures_never_open_iff (hkeys : cache.keys.Nodup) (draw : Nat → Keys) :
    (Acl.domains t a.anonymous r.entry).2 = (Acl.unlisted t r.entry).map Prod.snd ∧
    ((∃ domain e, Asked a t r now cache domain ∧ Acl.permission t r.entry domain r.method = .error e) →
      (authenticate a t r now draw cache).1.authorized = true → Granted a t r now cache) ∧
    ∀ p e, (p, e) ∈ Acl.unlisted t r.entry →
      (((authenticate a t r now draw cache).1.authorized = true → Granted a t r now cache) ↔
        ¬ ((Acl.domains t a.anonymous r.entry).1 = [] ∧ ∀ domain, Asked a t r now cache domain →
          Acl.EndsBelow t domain r.method r.entry.ancestors p)) := by
  refine ⟨Acl.domains_failures _ _, ?_, fun p e hp => ?_⟩
  · rintro ⟨domain, e, hasked, hfailed⟩
    refine (granted_only_iff hkeys draw).mpr fun hopen => ?_
    rw [hopen.2 domain hasked] at hfailed
    cases hfailed
  · rw [granted_only_iff hkeys, IsOpen]
    simp only [Acl.permission_unset_iff hp]

end Failures

/-- A file stands where the configuration of the root should be. -/
def obstructed : FileTree where
  root := "data/".toList
  nodes := [(["metadir".toList], .directory), (["auth.dir".toList, "metadir".toList], .file 0)]
  blobs := #[[]]

/-- Why the domains of the root cannot be listed. -/
def obstacle : StoreError := .failed "data/metadir/auth.dir/".toList FileError.notADirectory.toSystem

/-- The note without a configuration depends on that of the root, which cannot be read, so the note is closed. -/
theorem obstructed_note_is_closed :
    (.root, obstacle) ∈ Acl.unlisted obstructed exposedNote ∧
    (∃ e, Acl.permission obstructed exposedNote Acl.anonymous "GET".toList = .error e) ∧
    (authenticate everybody obstructed (reading []) 0 noKeys []).1.authorized = false ∧
    ¬ Acl.EndsBelow obstructed Acl.anonymous "GET".toList exposedNote.ancestors .root := by
  have hlist : (.root, obstacle) ∈ Acl.unlisted obstructed exposedNote := by decide +kernel
  have hfailed : Acl.permission obstructed exposedNote Acl.anonymous "GET".toList = .error (.failed
      "data/metadir/auth.dir/anonymous.dir/GET.perm.data".toList FileError.notADirectory.toSystem) := by decide +kernel
  obtain ⟨-, hread, hlisted⟩ := @failures_never_open_iff everybody obstructed (reading []) 0 [] nodup_keys_nil noKeys
  have hrules := hread ⟨_, _, Or.inl rfl, hfailed⟩
  refine ⟨hlist, ⟨_, hfailed⟩, Bool.eq_false_iff.mpr fun hauthorized => ?_, fun hends => ?_⟩
  · rcases hrules hauthorized with ⟨c, n, hn, -⟩ | hallow
    · exact not_proven_without_nonces c n hn
    · cases hfailed.symm.trans hallow
  · refine (hlisted _ _ hlist).mp hrules ⟨by decide +kernel, ?_⟩
    rintro domain (rfl | ⟨c, n, hn, -⟩)
    · exact hends
    · exact absurd hn (not_proven_without_nonces c n)

/-- The same store with a configuration of the note that has no rule for everybody and lets the listing go on. -/
def passedOn : FileTree := withConfig exposedNote [("anonymous/realm", "Everybody"), ("inherit", "")] obstructed

/-- The climb for a permission ends at the note, and the listing skips the root, so the note is open. -/
theorem unlisted_root_opens_note :
    (Acl.domains passedOn Acl.anonymous exposedNote).2 = [obstacle] ∧
    (authenticate everybody passedOn (reading []) 0 noKeys []).1.authorized = true ∧
    ¬ Granted everybody passedOn (reading []) 0 [] := by
  have hunset : Acl.permission passedOn exposedNote Acl.anonymous "GET".toList = .ok .unset := by decide +kernel
  refine ⟨by decide +kernel, by decide +kernel, ?_⟩
  rintro (⟨c, n, hn, -⟩ | hallow)
  · exact not_proven_without_nonces c n hn
  · cases hunset.symm.trans hallow

/-! ## Credentials -/

section CredentialLists
variable {a : Authenticator} {t : FileTree} {r : Request} {now : Nat} {cache : Cache}

/-- A request that is authorized without credentials is authorized with them exactly if a rule grants it or no
candidate is proven for a domain with a rule. -/
theorem credentials_keep_access_iff (hkeys : cache.keys.Nodup) (draw : Nat → Keys)
    (hbare : (authenticate a t { r with authorization := [] } now draw cache).1.authorized = true) :
    (authenticate a t r now draw cache).1.authorized = true ↔ Granted a t r now cache ∨
      ∀ c n, Proven t r now cache c n → Acl.permission t r.entry n.domain r.method = .ok .unset := by
  rw [authorized_granted_iff hkeys] at hbare ⊢
  refine or_congr_right' fun hgranted => ?_
  have hopen : IsOpen a t { r with authorization := [] } now cache := by
    refine hbare.resolve_left ?_
    rintro (⟨c, n, hn, -⟩ | hallow)
    · exact not_proven_without_credentials rfl c n hn
    · exact hgranted (Or.inr hallow)
  constructor
  · exact fun h c n hn => h.2 _ (Or.inr ⟨c, n, hn, rfl⟩)
  · refine fun h => ⟨hopen.1, ?_⟩
    rintro domain (rfl | ⟨c, n, hn, rfl⟩)
    · exact hopen.2 _ (Or.inl rfl)
    · exact h c n hn

end CredentialLists

/-- A user of the root is denied to read, and the note has a domain for everybody alone. -/
def withReader : FileTree :=
  withConfig exposedNote [("anonymous/realm", "Everybody")]
    (withConfig .root [("admin/realm", "Area"), ("admin/Digest.users/alice", "pass"), ("admin/GET.perm", "deny")]
      (FileTree.empty "data/".toList))

/-- The challenge of the root. -/
def rootCall : Call :=
  ⟨withReader, ⟨.root, .root, "GET".toList, "/".toList, []⟩, 0,
    fun _ => .ofBytes (List.replicate 12 0) (List.replicate 12 1)⟩

/-- The answer of the user to the challenge of the root, presented for the note. -/
def answerForNote : Bytes := Ascii.bytes ("Digest username=\"alice\", nonce=\"AAAAAAAAAAAAAAAA\", " ++
  "opaque=\"AQEBAQEBAQEBAQEB\", uri=\"/note\", algorithm=MD5, qop=auth, nc=1, cnonce=c, " ++
  "response=\"77b6e25119b9d29ea4f73eaa05204054\"")

/-- Without the nonce of the root the answer proves nothing, and the note stays open. -/
theorem unproven_credentials_keep_access :
    (authenticate everybody withReader (reading []) 0 noKeys []).1.authorized = true ∧
    (authenticate everybody withReader (reading [answerForNote]) 0 noKeys []).1.authorized = true := by
  have hbare : (authenticate everybody withReader (reading []) 0 noKeys []).1.authorized = true := by decide +kernel
  refine ⟨hbare, ?_⟩
  exact (credentials_keep_access_iff (r := reading [answerForNote]) nodup_keys_nil noKeys hbare).mpr
    (Or.inr fun c n hn => absurd hn (not_proven_without_nonces c n))

/-- The note is open to everybody, but not to the user who proves a secret of the root. -/
theorem proven_credentials_cost_access :
    (authenticate everybody withReader (reading []) 0 noKeys (cacheAfter everybody [rootCall])).1.authorized = true ∧
    (authenticate everybody withReader (reading [answerForNote]) 0 noKeys
      (cacheAfter everybody [rootCall])).1.authorized = false :=
  ⟨by decide +kernel, by decide +kernel⟩

end EntryServer.Auth
