import EntryServer.Proofs.Auth.Calls

/-! # Verdicts

What the verdict of a call is in terms of what its loop finds, and what it takes for a candidate to be proven: it
answers a live nonce that no candidate before it has looked up, with the secret of the user that it names. -/
namespace EntryServer.Auth
set_option autoImplicit false

section Verdicts
variable (a : Authenticator) (t : FileTree) (r : Request) (now : Nat) (draw : Nat → Keys) (cache : Cache)

theorem authorized_eq : (authenticate a t r now draw cache).1.authorized =
    ((findingsIn t r now cache).any (·.2.isAllowed) ||
      match Acl.permission t r.entry a.anonymous r.method with
      | .ok .allow => true
      | .ok .unset => !(findingsIn t r now cache).any (·.2.isRuled) && (Acl.domains t a.anonymous r.entry).1.isEmpty
      | _ => false) := by
  have hruled : (findingsIn t r now cache).any (·.2.isAllowed) = true →
      (findingsIn t r now cache).any (·.2.isRuled) = true := by
    simp only [List.any_eq_true]
    rintro ⟨x, hx, hallowed⟩
    refine ⟨x, hx, ?_⟩
    unfold Finding.isAllowed at hallowed
    split at hallowed
    · next h => rw [h]; rfl
    · cases hallowed
  rw [authenticate_eq, conclusion]
  cases hallowed : (findingsIn t r now cache).any (·.2.isAllowed) with
  | true => simp [checkAnonymous, hruled hallowed]
  | false =>
    simp only [checkAnonymous, Bool.false_eq_true, if_false, Bool.false_or]
    cases Acl.permission t r.entry a.anonymous r.method with
    | error e => rfl
    | ok permission =>
      cases permission with
      | allow => simp [Acl.Permission.isAllowed, Acl.Permission.isSet]
      | deny => simp [Acl.Permission.isAllowed, Acl.Permission.isSet]
      | unset =>
        cases (findingsIn t r now cache).any (·.2.isRuled) with
        | true => rfl
        | false => rfl

theorem authorized_of_no_credentials (h : r.authorization = []) : (authenticate a t r now draw cache).1.authorized =
    match Acl.permission t r.entry a.anonymous r.method with
    | .ok .allow => true
    | .ok .unset => (Acl.domains t a.anonymous r.entry).1.isEmpty
    | _ => false := by
  have hnone : findingsIn t r now cache = [] := by
    rw [findingsIn, h]
    rfl
  rw [authorized_eq, hnone]
  simp

end Verdicts

/-! ## What is proven -/

/-- The request carries these credentials in a header value that is visible ASCII and well formed, and they are
of the kind that this server verifies. -/
structure Presented (r : Request) (c : Credentials) : Prop where
  value : ∃ value ∈ r.authorization, value.all Ascii.isVisible = true ∧
    ∃ groups, Credentials.parse value = .ok groups ∧ c ∈ groups
  scheme : c.isScheme "Digest".toList = true
  algorithm : c.param? "algorithm".toList = some "MD5".toList
  qop : c.param? "qop".toList = some "auth".toList

theorem mem_candidates_iff {r : Request} {c : Credentials} : c ∈ candidates r.authorization ↔ Presented r c := by
  have hgroups : ∀ value, c ∈ groupsOf value ↔
      value.all Ascii.isVisible = true ∧ ∃ groups, Credentials.parse value = .ok groups ∧ c ∈ groups := by
    intro value
    rw [groupsOf]
    cases value.all Ascii.isVisible with
    | false => simp
    | true => cases Credentials.parse value <;> simp
  rw [candidates, List.mem_filter, List.mem_flatMap, isCandidate]
  simp only [hgroups, Bool.and_eq_true, beq_iff_eq]
  constructor
  · rintro ⟨hvalue, ⟨hscheme, halgorithm⟩, hqop⟩
    exact ⟨hvalue, hscheme, halgorithm, hqop⟩
  · rintro ⟨hvalue, hscheme, halgorithm, hqop⟩
    exact ⟨hvalue, ⟨hscheme, halgorithm⟩, hqop⟩

/-- After some candidates, another one answers a nonce with the secret of the user it names. -/
structure ProvesAfter (t : FileTree) (r : Request) (now : Nat) (cache : Cache) (earlier : List Credentials)
    (c : Credentials) (n : Nonce) : Prop where
  presented : Presented r c
  cached : (paramOf c "nonce", n) ∈ cache
  live : now ≤ n.created + n.validity
  /-- No earlier candidate has looked the nonce up. -/
  unused : ∀ x ∈ earlier, paramOf x "nonce" ≠ paramOf c "nonce"
  echo : paramOf c "opaque" = n.echo
  target : paramOf c "uri" = r.target
  response : ∃ secret, Acl.secret t r.entry n.domain "Digest".toList (paramOf c "username") = .ok (some secret) ∧
    paramOf c "response" = Md5.hexOfParts [
      Utf8.encode (Md5.hexOfParts [Utf8.encode (paramOf c "username"), Utf8.encode n.realm, secret]),
      Utf8.encode (paramOf c "nonce"), Utf8.encode (paramOf c "nc"), Utf8.encode (paramOf c "cnonce"),
      Utf8.encode (paramOf c "qop"),
      Utf8.encode (Md5.hexOfParts [Utf8.encode r.method, Utf8.encode (paramOf c "uri")])]

section Proven
variable {t : FileTree} {r : Request} {now : Nat} {cache : Cache}

theorem proves_iff {n : Nonce} {c : Credentials} : proves t r n c = true ↔
    paramOf c "opaque" = n.echo ∧ paramOf c "uri" = r.target ∧
      ∃ secret, Acl.secret t r.entry n.domain scheme (paramOf c "username") = .ok (some secret) ∧
        paramOf c "response" = expectedResponse n.realm secret r.method c := by
  rw [proves, Bool.and_eq_true, Bool.and_eq_true, beq_iff_eq, beq_iff_eq, eq_comm (a := n.echo), and_assoc]
  refine and_congr_right fun _ => and_congr_right fun _ => ?_
  cases Acl.secret t r.entry n.domain scheme (paramOf c "username") with
  | error e => simp
  | ok found =>
    cases found with
    | none => simp
    | some secret =>
      rw [beq_iff_eq]
      constructor
      · exact fun h => ⟨secret, rfl, h.symm⟩
      · rintro ⟨_, hsecret, h⟩
        cases hsecret
        exact h.symm

/-- A candidate is proven exactly if it answers a live nonce that no earlier candidate names. -/
theorem find_proven_iff (h : cache.keys.Nodup) {earlier : List Credentials} {c : Credentials}
    (hc : Presented r c) {result : Except StoreError Acl.Permission} :
    find t r now ((cache.withoutExpired now).without (earlier.map keyOf)) c = .proven result ↔
      ∃ n, ProvesAfter t r now cache earlier c n ∧ result = Acl.permission t r.entry n.domain r.method := by
  have hkeys : ((cache.withoutExpired now).without (earlier.map keyOf)).keys.Nodup :=
    Cache.nodup_keys_filter (Cache.nodup_keys_filter h _) _
  rw [find_eq_proven_iff hkeys]
  simp only [Cache.mem_without, Cache.mem_withoutExpired, proves_iff, List.mem_map, not_exists, not_and]
  constructor
  · rintro ⟨n, ⟨⟨hn, hlive⟩, hunused⟩, -, ⟨hecho, htarget, hresponse⟩, hresult⟩
    exact ⟨n, ⟨hc, hn, hlive, hunused, hecho, htarget, hresponse⟩, hresult⟩
  · rintro ⟨n, hn, hresult⟩
    exact ⟨n, ⟨⟨hn.cached, hn.live⟩, hn.unused⟩, hn.live, ⟨hn.echo, hn.target, hn.response⟩, hresult⟩

/-- The findings of the loop are proven candidates in their places. -/
theorem proven_of_finding (h : cache.keys.Nodup) {c : Credentials} {result : Except StoreError Acl.Permission}
    (hfound : (c, .proven result) ∈ findingsIn t r now cache) : ∃ earlier later n,
      candidates r.authorization = earlier ++ c :: later ∧ ProvesAfter t r now cache earlier c n ∧
        result = Acl.permission t r.entry n.domain r.method := by
  obtain ⟨before, after, hsplit⟩ := List.append_of_mem hfound
  obtain ⟨hfind, later, hcandidates⟩ := find_of_split hsplit
  have hc : Presented r c := mem_candidates_iff.mp (by rw [hcandidates]; simp)
  obtain ⟨n, hn, hresult⟩ := (find_proven_iff h hc).mp hfind.symm
  exact ⟨_, later, n, hcandidates, hn, hresult⟩

/-- Unless a candidate is allowed, every candidate is reached. -/
theorem finding_of_proven (h : cache.keys.Nodup) {earlier later : List Credentials} {c : Credentials} {n : Nonce}
    (hsplit : candidates r.authorization = earlier ++ c :: later) (hn : ProvesAfter t r now cache earlier c n)
    (hopen : (findingsIn t r now cache).any (·.2.isAllowed) = false) :
    (c, .proven (Acl.permission t r.entry n.domain r.method)) ∈ findingsIn t r now cache := by
  rw [List.any_eq_false] at hopen
  rw [findingsIn, hsplit] at hopen ⊢
  have hfind := find_mem_findings fun x hx => Bool.eq_false_iff.mpr (hopen x hx)
  rwa [(find_proven_iff h hn.presented).mpr ⟨n, hn, rfl⟩] at hfind

theorem isAllowed_iff {finding : Finding} : finding.isAllowed = true ↔ finding = .proven (.ok .allow) := by
  unfold Finding.isAllowed
  split
  · next h => simp
  · next finding h => simpa using fun heq => h heq

theorem any_allowed_iff (h : cache.keys.Nodup) : (findingsIn t r now cache).any (·.2.isAllowed) = true ↔
    ∃ earlier c later n, candidates r.authorization = earlier ++ c :: later ∧
      ProvesAfter t r now cache earlier c n ∧ Acl.permission t r.entry n.domain r.method = .ok .allow := by
  constructor
  · intro hany
    obtain ⟨⟨c, finding⟩, hmem, hallowed⟩ := List.any_eq_true.mp hany
    obtain rfl := isAllowed_iff.mp hallowed
    obtain ⟨earlier, later, n, hsplit, hn, hresult⟩ := proven_of_finding h hmem
    exact ⟨earlier, c, later, n, hsplit, hn, hresult.symm⟩
  · rintro ⟨earlier, c, later, n, hsplit, hn, hallow⟩
    cases hopen : (findingsIn t r now cache).any (·.2.isAllowed) with
    | true => rfl
    | false =>
      have hfound := finding_of_proven h hsplit hn hopen
      rw [hallow] at hfound
      exact absurd rfl (List.any_eq_false.mp hopen _ hfound)

/-- Where no candidate is allowed, no rule is found exactly if the proven candidates have none. -/
theorem any_ruled_iff (h : cache.keys.Nodup) (hopen : (findingsIn t r now cache).any (·.2.isAllowed) = false) :
    (findingsIn t r now cache).any (·.2.isRuled) = false ↔ ∀ earlier c later n,
      candidates r.authorization = earlier ++ c :: later → ProvesAfter t r now cache earlier c n →
      Acl.permission t r.entry n.domain r.method = .ok .unset := by
  rw [List.any_eq_false]
  constructor
  · intro hnone earlier c later n hsplit hn
    have hruled := hnone _ (finding_of_proven h hsplit hn hopen)
    unfold Finding.isRuled at hruled
    split at hruled
    · next heq => exact Finding.proven.inj heq
    · exact absurd rfl hruled
    · next heq => exact absurd rfl (heq _)
  · rintro hunset ⟨c, finding⟩ hmem hruled
    cases finding with
    | stale => cases hruled
    | unproven => cases hruled
    | proven result =>
      obtain ⟨earlier, later, n, hsplit, hn, rfl⟩ := proven_of_finding h hmem
      rw [hunset earlier c later n hsplit hn] at hruled
      cases hruled

end Proven

/-! ## The verdict -/

theorem authorized_candidates_iff {a : Authenticator} {t : FileTree} {r : Request} {now : Nat} {cache : Cache}
    (hkeys : cache.keys.Nodup) (draw : Nat → Keys) :
    (authenticate a t r now draw cache).1.authorized = true ↔
      (∃ earlier c later n, candidates r.authorization = earlier ++ c :: later ∧
        ProvesAfter t r now cache earlier c n ∧ Acl.permission t r.entry n.domain r.method = .ok .allow) ∨
      Acl.permission t r.entry a.anonymous r.method = .ok .allow ∨
      Acl.permission t r.entry a.anonymous r.method = .ok .unset ∧
        (∀ earlier c later n, candidates r.authorization = earlier ++ c :: later →
          ProvesAfter t r now cache earlier c n → Acl.permission t r.entry n.domain r.method = .ok .unset) ∧
        (Acl.domains t a.anonymous r.entry).1 = [] := by
  rw [authorized_eq, ← any_allowed_iff hkeys]
  cases hopen : (findingsIn t r now cache).any (·.2.isAllowed) with
  | true => simp
  | false =>
    rw [← any_ruled_iff hkeys hopen]
    cases Acl.permission t r.entry a.anonymous r.method with
    | error e => simp
    | ok permission =>
      cases permission with
      | allow => simp
      | deny => simp
      | unset => simp

end EntryServer.Auth
