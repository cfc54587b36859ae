import EntryServer.Proofs.Auth.Client
import EntryServer.Proofs.Auth.Openness

/-! # The order of candidates

Which candidates of a request are proven depends on their order only where two of them look up one nonce. Where they
do not, a candidate is proven exactly if it verifies on its own, and the verdict is the same for any order of the
header values, and with any credentials between them that verify nothing. -/
namespace EntryServer.Auth
set_option autoImplicit false

section Verification
variable (t : FileTree) (r : Request) (now : Nat) (cache : Cache)

/-- The candidate proves a secret with a live nonce, if no other one takes the nonce before. -/
def Verifies (c : Credentials) (n : Nonce) : Prop :=
  (keyOf c, n) ∈ cache ∧ n.isExpired now = false ∧ proves t r n c = true

/-- Where both candidates name one nonce, neither verifies with it. -/
def Separate (x y : Credentials) : Prop :=
  keyOf x = keyOf y → ∀ n, ¬ Verifies t r now cache x n ∧ ¬ Verifies t r now cache y n

/-- The candidates name different nonces, or one that is not in the cache. -/
def Apart (cache : Cache) (x y : Credentials) : Prop := keyOf x = keyOf y → keyOf x ∉ cache.keys

instance (cache : Cache) (x y : Credentials) : Decidable (Apart cache x y) := inferInstanceAs (Decidable (_ → _))

/-- Credentials that are no candidate, or one that fails and takes no nonce away from the candidates of the request. -/
def Harmless (c : Credentials) : Prop :=
  isCandidate c = true →
    (∀ x ∈ candidates r.authorization, Apart cache x c) ∧ ∀ n, ¬ Verifies t r now cache c n

variable {t r now cache}

theorem Verifies.cached {c : Credentials} {n : Nonce} (h : Verifies t r now cache c n) : keyOf c ∈ cache.keys :=
  List.mem_map_of_mem h.1

theorem Separate.symm {x y : Credentials} (h : Separate t r now cache x y) : Separate t r now cache y x :=
  fun heq n => (h heq.symm n).symm

theorem Apart.separate {x y : Credentials} (h : Apart cache x y) : Separate t r now cache x y := by
  refine fun heq n => ⟨fun hx => h heq hx.cached, fun hy => h heq ?_⟩
  rw [heq]
  exact hy.cached

theorem provesAfter_iff {earlier : List Credentials} {c : Credentials} {n : Nonce} :
    ProvesAfter t r now cache earlier c n ↔ c ∈ candidates r.authorization ∧ Verifies t r now cache c n ∧
      ∀ x ∈ earlier, keyOf x ≠ keyOf c := by
  rw [mem_candidates_iff, Verifies, Nonce.isLive_iff, proves_iff]
  constructor
  · rintro ⟨hc, hcached, hlive, hunused, hecho, htarget, hresponse⟩
    exact ⟨hc, ⟨hcached, hlive, hecho, htarget, hresponse⟩, hunused⟩
  · rintro ⟨hc, ⟨hcached, hlive, hecho, htarget, hresponse⟩, hunused⟩
    exact ⟨hc, hcached, hlive, hunused, hecho, htarget, hresponse⟩

/-- Whether credentials fail can be told from the cache. -/
theorem fails_iff {c : Credentials} : (∀ n, ¬ Verifies t r now cache c n) ↔
    ∀ kn ∈ cache, kn.1 = keyOf c → kn.2.isExpired now = false → proves t r kn.2 c ≠ true := by
  constructor
  · rintro h ⟨_, n⟩ hkn rfl hlive hproves
    exact h n ⟨hkn, hlive, hproves⟩
  · exact fun h n hn => h _ hn.1 rfl hn.2.1 hn.2.2

/-- Among separate candidates, the proven ones are those that verify. -/
theorem proven_iff (h : (candidates r.authorization).Pairwise (Separate t r now cache)) {c : Credentials} {n : Nonce} :
    Proven t r now cache c n ↔ c ∈ candidates r.authorization ∧ Verifies t r now cache c n := by
  constructor
  · rintro ⟨earlier, later, -, hn⟩
    obtain ⟨hc, hverifies, -⟩ := provesAfter_iff.mp hn
    exact ⟨hc, hverifies⟩
  · rintro ⟨hc, hverifies⟩
    obtain ⟨earlier, later, hsplit⟩ := List.append_of_mem hc
    refine ⟨earlier, later, hsplit, provesAfter_iff.mpr ⟨hc, hverifies, fun x hx heq => ?_⟩⟩
    rw [hsplit, List.pairwise_append] at h
    exact (h.2.2 x hx c (List.mem_cons_self ..) heq n).2 hverifies

end Verification

section Verdicts
variable {a : Authenticator} {t : FileTree} {r : Request} {now : Nat} {cache : Cache} {values : List Bytes}
  {more : List Credentials}

/-- What is proven decides whether a request is authorized. -/
theorem authorized_of_proven (hkeys : cache.keys.Nodup) (draw draw' : Nat → Keys)
    (h : ∀ c n, Proven t { r with authorization := values } now cache c n ↔ Proven t r now cache c n) :
    (authenticate a t { r with authorization := values } now draw' cache).1.authorized =
      (authenticate a t r now draw cache).1.authorized := by
  rw [Bool.eq_iff_iff, authorized_granted_iff hkeys, authorized_granted_iff hkeys]
  simp only [Granted, IsOpen, Asked, h]

theorem candidates_perm (h : (values.flatMap groupsOf).Perm (r.authorization.flatMap groupsOf ++ more)) :
    (candidates values).Perm (candidates r.authorization ++ more.filter isCandidate) := by
  rw [candidates, candidates, ← List.filter_append]
  exact h.filter _

/-- Harmless credentials keep the candidates separate, in any order. -/
theorem separate_of_perm (hapart : (candidates r.authorization).Pairwise (Apart cache))
    (h : (candidates values).Perm (candidates r.authorization ++ more.filter isCandidate))
    (hmore : ∀ c ∈ more, Harmless t r now cache c) : (candidates values).Pairwise (Separate t r now cache) := by
  have hfails : ∀ c ∈ more.filter isCandidate,
      (∀ x ∈ candidates r.authorization, Apart cache x c) ∧ ∀ n, ¬ Verifies t r now cache c n := by
    intro c hc
    obtain ⟨hmem, hcandidate⟩ := List.mem_filter.mp hc
    exact hmore c hmem hcandidate
  rw [h.pairwise_iff Separate.symm, List.pairwise_append]
  refine ⟨hapart.imp Apart.separate, ?_, fun x hx c hc => ((hfails c hc).1 x hx).separate⟩
  exact List.pairwise_of_forall_mem_list fun x hx y hy _ n => ⟨(hfails x hx).2 n, (hfails y hy).2 n⟩

theorem authorized_of_groups (hkeys : cache.keys.Nodup) (hapart : (candidates r.authorization).Pairwise (Apart cache))
    (hgroups : (values.flatMap groupsOf).Perm (r.authorization.flatMap groupsOf ++ more))
    (hmore : ∀ c ∈ more, Harmless t r now cache c) (draw draw' : Nat → Keys) :
    (authenticate a t { r with authorization := values } now draw' cache).1.authorized =
      (authenticate a t r now draw cache).1.authorized := by
  have hcandidates := candidates_perm hgroups
  have hseparate := separate_of_perm hapart hcandidates hmore
  refine authorized_of_proven hkeys draw draw' fun c n => ?_
  rw [proven_iff (hapart.imp Apart.separate), proven_iff hseparate, hcandidates.mem_iff, List.mem_append]
  constructor
  · rintro ⟨hc | hc, hverifies⟩
    · exact ⟨hc, hverifies⟩
    · obtain ⟨hmem, hcandidate⟩ := List.mem_filter.mp hc
      exact absurd hverifies ((hmore c hmem hcandidate).2 n)
  · exact fun ⟨hc, hverifies⟩ => ⟨Or.inl hc, hverifies⟩

/-- If no two candidates of a request look up one nonce, its verdict is the same for its header values in any order,
with any values between them that are refused or carry harmless credentials only: those of other kinds, and
candidates that fail with other nonces. It is the same for any other way to carry the same credentials in any order
with harmless ones between them, and for any keys of the challenges. -/
theorem candidate_order_is_irrelevant (hkeys : cache.keys.Nodup)
    (hapart : (candidates r.authorization).Pairwise (Apart cache)) (draw draw' : Nat → Keys) :
    (∀ values inserted, values.Perm (r.authorization ++ inserted) →
      (∀ value ∈ inserted, ∀ cs, Accepted value cs → ∀ c ∈ cs, Harmless t r now cache c) →
      (authenticate? a t { r with authorization := values } now draw' cache).map (·.1.authorized) =
        (authenticate? a t r now draw cache).map (·.1.authorized)) ∧
    ∀ values more, (values.flatMap groupsOf).Perm (r.authorization.flatMap groupsOf ++ more) →
      (∀ c ∈ more, Harmless t r now cache c) →
      (authenticate? a t { r with authorization := values } now draw' cache).map (·.1.authorized) =
        (authenticate? a t r now draw cache).map (·.1.authorized) := by
  have hcarried : ∀ values more, (values.flatMap groupsOf).Perm (r.authorization.flatMap groupsOf ++ more) →
      (∀ c ∈ more, Harmless t r now cache c) →
      (authenticate? a t { r with authorization := values } now draw' cache).map (·.1.authorized) =
        (authenticate? a t r now draw cache).map (·.1.authorized) := by
    intro values more hgroups hmore
    rw [authenticate?, authenticate?]
    split
    · exact congrArg some (authorized_of_groups hkeys hapart hgroups hmore draw draw')
    · rfl
  refine ⟨fun values inserted hvalues hinserted => ?_, hcarried⟩
  refine hcarried values (inserted.flatMap groupsOf) ?_ fun c hc => ?_
  · rw [← List.flatMap_append]
    exact hvalues.flatMap_right _
  · obtain ⟨value, hvalue, hmem⟩ := List.mem_flatMap.mp hc
    exact hinserted value hvalue _ (accepted_of_mem hmem) c hmem

end Verdicts

/-! ## An answer among others -/

/-- What the host asks for when it is asked again. -/
def nextQuestion : Challenge := { question with keys := .ofBytes (List.replicate 12 2) (List.replicate 12 3) }

def askedTwice : Cache := cacheAfter everybody [{ asked with draw := fun _ => nextQuestion.keys }, asked]

def answer : Credentials := answerTo question.credentials "alice".toList (Ascii.bytes "pass") "GET".toList "/".toList

/-- A guess that names the second nonce. -/
def guess : Credentials := answerTo nextQuestion.credentials "alice".toList (Ascii.bytes "word") "GET".toList "/".toList

/-- Credentials that name no nonce of the host. -/
def stray : Credentials :=
  ⟨scheme, [("nonce".toList, "stray".toList), ("algorithm".toList, "MD5".toList), ("qop".toList, "auth".toList)]⟩

/-- A stray attempt before the answer. -/
def retried : Request := { asked.request with authorization := [Utf8.encode stray.text, Utf8.encode answer.text] }

/-- A value that is refused, the guess, and credentials of other kinds. -/
def intruders : List Bytes := [Ascii.bytes "@", Utf8.encode guess.text, Ascii.bytes "Basic YTpi, Negotiate"]

theorem candidates_retried : candidates retried.authorization = [stray, answer] := by
  have hstray : groupsOf (Utf8.encode stray.text) = [stray] :=
    (accepted_text ⟨by decide, by decide, by decide, by decide⟩ (by decide)).groupsOf
  have hkeys : question.keys = .ofBytes (List.replicate 12 0) (List.replicate 12 1) := rfl
  have hanswer : groupsOf (Utf8.encode answer.text) = [answer] :=
    (answers_answerTo hkeys (by decide) (by decide) _ _).groups
  rw [candidates, retried, List.flatMap_cons, List.flatMap_singleton, hstray, hanswer]
  decide +kernel

theorem harmless_intruders {value : Bytes} (hvalue : value ∈ intruders) {c : Credentials} (hc : c ∈ groupsOf value) :
    Harmless admitting retried 0 askedTwice c := by
  simp only [intruders, List.mem_cons, List.not_mem_nil, or_false] at hvalue
  rcases hvalue with rfl | rfl | rfl
  · have hrefused : groupsOf (Ascii.bytes "@") = [] := by decide +kernel
    rw [hrefused] at hc
    cases hc
  · have hkeys : nextQuestion.keys = .ofBytes (List.replicate 12 2) (List.replicate 12 3) := rfl
    have hguess : groupsOf (Utf8.encode guess.text) = [guess] :=
      (answers_answerTo hkeys (by decide) (by decide) _ _).groups
    rw [hguess, List.mem_singleton] at hc
    rw [hc]
    refine fun _ => ⟨?_, fails_iff.mpr (by decide +kernel)⟩
    rw [candidates_retried]
    decide +kernel
  · have hothers : ∀ c ∈ groupsOf (Ascii.bytes "Basic YTpi, Negotiate"), isCandidate c = false := by decide +kernel
    exact fun hcandidate => absurd hcandidate (Bool.eq_false_iff.mp (hothers c hc))

/-- The answer counts in the first place as well, with the others between it and the stray attempt. -/
theorem answer_counts_in_any_place :
    (candidates retried.authorization).Pairwise (Apart askedTwice) ∧
    (∀ value ∈ intruders, ∀ cs, Accepted value cs → ∀ c ∈ cs, Harmless admitting retried 0 askedTwice c) ∧
    (authenticate? everybody admitting { retried with authorization := Utf8.encode answer.text :: intruders ++
      [Utf8.encode stray.text] } 0 noKeys askedTwice).map (·.1.authorized) = some true := by
  have hkeys : askedTwice.keys.Nodup := nodup_keys_cacheAfter _ _
  have hapart : (candidates retried.authorization).Pairwise (Apart askedTwice) := by
    rw [candidates_retried]
    decide +kernel
  have hharmless : ∀ value ∈ intruders, ∀ cs, Accepted value cs → ∀ c ∈ cs,
      Harmless admitting retried 0 askedTwice c :=
    fun value hvalue cs hcs c hc => harmless_intruders hvalue (hcs.groupsOf ▸ hc)
  have hadmitted : (authenticate? everybody admitting retried 0 noKeys askedTwice).map (·.1.authorized) =
      some true := by
    rw [authenticate?, authenticate, authenticateDrawn, candidates_retried]
    decide +kernel
  refine ⟨hapart, hharmless, ?_⟩
  rw [← hadmitted]
  exact (candidate_order_is_irrelevant hkeys hapart noKeys noKeys).1 _ intruders
    (List.perm_append_singleton (Utf8.encode stray.text) (Utf8.encode answer.text :: intruders)) hharmless

end EntryServer.Auth
