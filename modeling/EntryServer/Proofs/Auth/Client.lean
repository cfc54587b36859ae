import EntryServer.Proofs.Auth.Challenges
import EntryServer.Proofs.Auth.Lines

/-! # Honest clients

A client that reads a challenge and answers it with the secret of a user gets in: what it reads is what the
server remembers, whatever the realm and the path are, and its answer is read as it was written. The nonce is
still there when the answer comes, unless it was presented before or has expired. -/
namespace EntryServer.Auth
set_option autoImplicit false

/-! ## Answers -/

/-- The answer of a client that knows the secret of a user to a challenge that it has read: visible values, each in
quotes, that echo the nonce and the opaque value, and a response for the realm that was read. -/
structure Answers (challenge : Credentials) (user : Text) (secret : Bytes) (method target : Text)
    (reply : Credentials) : Prop where
  wellFormed : reply.WellFormed
  visible : ∀ kv ∈ reply.params, Credentials.Visible kv.2
  sameScheme : reply.scheme = challenge.scheme
  echoed : ∀ key ∈ ["nonce", "opaque", "algorithm", "qop"], reply.param? key.toList = challenge.param? key.toList
  username : reply.param? "username".toList = some user
  uri : reply.param? "uri".toList = some target
  response : reply.param? "response".toList = some (Md5.hexOfParts [
    Utf8.encode (Md5.hexOfParts [Utf8.encode user, Utf8.encode (paramOf challenge "realm"), secret]),
    Utf8.encode (paramOf challenge "nonce"), Utf8.encode (paramOf reply "nc"), Utf8.encode (paramOf reply "cnonce"),
    Utf8.encode (paramOf challenge "qop"),
    Utf8.encode (Md5.hexOfParts [Utf8.encode method, Utf8.encode target])])

section Answers
variable {ch : Challenge} {user : Text} {secret : Bytes} {method target : Text} {reply : Credentials}

theorem params_of_challenge (ch : Challenge) : ch.credentials.param? "realm".toList = some ch.realm ∧
    ch.credentials.param? "nonce".toList = some ch.keys.nonce ∧
    ch.credentials.param? "opaque".toList = some ch.keys.echo ∧
    ch.credentials.param? "algorithm".toList = some "MD5".toList ∧
    ch.credentials.param? "qop".toList = some "auth".toList := by
  obtain ⟨realm, path, keys, stale⟩ := ch
  cases stale with
  | true => exact ⟨rfl, rfl, rfl, rfl, rfl⟩
  | false => exact ⟨rfl, rfl, rfl, rfl, rfl⟩

theorem paramOf_eq {c : Credentials} {key : String} {v : Text} (h : c.param? key.toList = some v) :
    paramOf c key = v := by
  rw [paramOf, h, Option.getD_some]

theorem Answers.echo (h : Answers ch.credentials user secret method target reply) :
    reply.param? "nonce".toList = some ch.keys.nonce ∧ reply.param? "opaque".toList = some ch.keys.echo ∧
    reply.param? "algorithm".toList = some "MD5".toList ∧ reply.param? "qop".toList = some "auth".toList := by
  obtain ⟨-, hnonce, hecho, halgorithm, hqop⟩ := params_of_challenge ch
  have hechoed := h.echoed
  refine ⟨?_, ?_, ?_, ?_⟩
  · rw [hechoed "nonce" (by decide), hnonce]
  · rw [hechoed "opaque" (by decide), hecho]
  · rw [hechoed "algorithm" (by decide), halgorithm]
  · rw [hechoed "qop" (by decide), hqop]

theorem Answers.groups (h : Answers ch.credentials user secret method target reply) :
    groupsOf (Utf8.encode reply.text) = [reply] :=
  (accepted_text h.wellFormed h.visible).groupsOf

theorem Answers.candidate (h : Answers ch.credentials user secret method target reply) : isCandidate reply = true := by
  obtain ⟨-, -, halgorithm, hqop⟩ := h.echo
  have hscheme : reply.isScheme scheme = true := by
    rw [Credentials.isScheme, h.sameScheme]
    rfl
  rw [isCandidate, hscheme, halgorithm, hqop]
  rfl

/-- An answer is one candidate, in its place among those of the other header values. -/
theorem Answers.candidates (h : Answers ch.credentials user secret method target reply) (others rest : List Bytes) :
    candidates (others ++ Utf8.encode reply.text :: rest) =
      Auth.candidates others ++ reply :: Auth.candidates rest := by
  rw [Auth.candidates, List.flatMap_append, List.flatMap_cons, h.groups, List.filter_append, List.singleton_append,
    List.filter_cons_of_pos h.candidate]
  rfl

end Answers

/-! ## An answer -/

theorem visible_of_inRange {t : Text} (h : ∀ c ∈ t, Base64.InRange c) : Credentials.Visible t := by
  induction t with
  | nil => rfl
  | cons c t ih =>
    obtain ⟨hlow, hhigh, -⟩ := h c (List.mem_cons_self ..)
    refine Credentials.visible_append (s := [c]).mpr ⟨?_, ih fun x hx => h x (List.mem_cons_of_mem _ hx)⟩
    have hbyte : c.toNat.toUInt8.toNat = c.toNat := Utf8.toNat_toUInt8 (by omega)
    rw [Credentials.Visible, Utf8.encode_cons, Utf8.encode_nil, List.append_nil, Utf8.encodeChar_ascii (by omega)]
    have hlow' : (32 : UInt8) ≤ c.toNat.toUInt8 := by
      rw [UInt8.le_iff_toNat_le, hbyte]
      exact Nat.le_trans (by decide) hlow
    have hhigh' : c.toNat.toUInt8 < (127 : UInt8) := by
      rw [UInt8.lt_iff_toNat_lt, hbyte]
      exact Nat.lt_of_le_of_lt hhigh (by decide)
    simp [Ascii.isVisible, hlow', hhigh']

theorem visible_hexOfParts (parts : List Bytes) : Credentials.Visible (Md5.hexOfParts parts) := by
  have hdigit : ∀ n < 16, Base64.InRange (Hex.digit n) := by decide
  refine visible_of_inRange fun c hc => ?_
  obtain ⟨b, -, hb⟩ := List.mem_flatMap.mp hc
  have hbound := b.toNat_lt
  simp only [List.mem_cons, List.not_mem_nil, or_false] at hb
  rcases hb with rfl | rfl
  · exact hdigit _ (by omega)
  · exact hdigit _ (by omega)

/-- A first answer to a challenge. -/
def answerTo (challenge : Credentials) (user : Text) (secret : Bytes) (method target : Text) : Credentials :=
  ⟨challenge.scheme, [("username".toList, user), ("nonce".toList, paramOf challenge "nonce"),
    ("opaque".toList, paramOf challenge "opaque"), ("algorithm".toList, paramOf challenge "algorithm"),
    ("qop".toList, paramOf challenge "qop"), ("uri".toList, target), ("nc".toList, "00000001".toList),
    ("cnonce".toList, "0a4f113b".toList),
    ("response".toList, Md5.hexOfParts [
      Utf8.encode (Md5.hexOfParts [Utf8.encode user, Utf8.encode (paramOf challenge "realm"), secret]),
      Utf8.encode (paramOf challenge "nonce"), Utf8.encode "00000001".toList, Utf8.encode "0a4f113b".toList,
      Utf8.encode (paramOf challenge "qop"),
      Utf8.encode (Md5.hexOfParts [Utf8.encode method, Utf8.encode target])])]⟩

/-- Every challenge can be answered for visible users and targets. -/
theorem answers_answerTo {ch : Challenge} {nonce echo : Bytes} (hkeys : ch.keys = .ofBytes nonce echo)
    {user target : Text} (huser : Credentials.Visible user) (htarget : Credentials.Visible target) (secret : Bytes)
    (method : Text) :
    Answers ch.credentials user secret method target (answerTo ch.credentials user secret method target) := by
  obtain ⟨-, hnonce, hecho, halgorithm, hqop⟩ := params_of_challenge ch
  have hkeynames : (answerTo ch.credentials user secret method target).params.map Prod.fst = ["username".toList,
    "nonce".toList, "opaque".toList, "algorithm".toList, "qop".toList, "uri".toList, "nc".toList, "cnonce".toList,
    "response".toList] := rfl
  have hvnonce : Credentials.Visible ch.keys.nonce := by
    rw [hkeys]
    exact visible_of_inRange fun c hc => Base64.inRange_of_mem hc
  have hvecho : Credentials.Visible ch.keys.echo := by
    rw [hkeys]
    exact visible_of_inRange fun c hc => Base64.inRange_of_mem hc
  refine ⟨⟨?_, List.cons_ne_nil _ _, ?_, ?_⟩, ?_, rfl, ?_, rfl, rfl, rfl⟩
  · exact (wellFormed_credentials ch).scheme
  · rw [hkeynames]
    decide
  · rw [hkeynames]
    decide
  · intro kv hkv
    simp only [answerTo, List.mem_cons, List.not_mem_nil, or_false] at hkv
    rcases hkv with rfl | rfl | rfl | rfl | rfl | rfl | rfl | rfl | rfl
    · exact huser
    · rw [paramOf_eq hnonce]; exact hvnonce
    · rw [paramOf_eq hecho]; exact hvecho
    · rw [paramOf_eq halgorithm]; decide
    · rw [paramOf_eq hqop]; decide
    · exact htarget
    · decide
    · decide
    · exact visible_hexOfParts _
  · intro key hkey
    simp only [List.mem_cons, List.not_mem_nil, or_false] at hkey
    rcases hkey with rfl | rfl | rfl | rfl
    · rw [hnonce, ← paramOf_eq hnonce]; rfl
    · rw [hecho, ← paramOf_eq hecho]; rfl
    · rw [halgorithm, ← paramOf_eq halgorithm]; rfl
    · rw [hqop, ← paramOf_eq hqop]; rfl

/-! ## Admission -/

section Admission
variable {a : Authenticator} {c₀ c₁ : Call} {before later : List Call} {d : Text} {ch : Challenge}

/-- The keys of a challenge are shown in Base64. -/
theorem keys_of_challenge (hdrawn : ∀ i, ∃ nonce echo : Bytes,
      nonce.length = 12 ∧ echo.length = 12 ∧ c₀.draw i = .ofBytes nonce echo)
    (hch : (d, ch) ∈ (c₀.domains a).zip (c₀.verdict a before).challenges) :
    ∃ nonce echo : Bytes, ch.keys = .ofBytes nonce echo := by
  obtain ⟨-, i, stale, rfl⟩ := challenge_of_zip hch
  obtain ⟨nonce, echo, -, -, hkeys⟩ := hdrawn i
  exact ⟨nonce, echo, hkeys⟩

theorem not_lookedUp {k : Text} {start calls : List Call}
    (h : ∀ c ∈ calls, ∀ x ∈ candidates c.request.authorization, keyOf x ≠ k) : k ∉ lookedUp a start calls := by
  induction calls with
  | nil => exact List.not_mem_nil
  | cons c calls ih =>
    rw [lookedUp, List.mem_append, not_or]
    refine ⟨fun hmem => ?_, ih fun x hx => h x (List.mem_cons_of_mem _ hx)⟩
    obtain ⟨x, hx, heq⟩ := List.mem_map.mp hmem
    obtain ⟨found, hfound, rfl⟩ := List.mem_map.mp hx
    exact h c (List.mem_cons_self ..) found.1 (candidate_of_found hfound) heq

/-- The nonce of a challenge is remembered as long as it is neither named nor too old. -/
theorem challenge_cached (htimes : (c₁ :: later ++ c₀ :: before).Pairwise fun later earlier => earlier.now ≤ later.now)
    (hfresh : Fresh a (later ++ c₀ :: before))
    (hch : (d, ch) ∈ (c₀.domains a).zip (c₀.verdict a before).challenges)
    (hkept : ∀ c ∈ later, ∀ x ∈ candidates c.request.authorization, keyOf x ≠ ch.keys.nonce)
    (hlive : c₁.now ≤ c₀.now + a.validity) :
    (ch.keys.nonce, ⟨c₀.now, a.validity, ch.keys.echo, d, ch.realm⟩) ∈ cacheAfter a (later ++ c₀ :: before) := by
  obtain ⟨hlast, htimes⟩ := List.pairwise_cons.mp htimes
  refine (mem_cacheAfter_iff hfresh.distinct htimes).mpr
    ⟨later, c₀, before, rfl, List.mem_map_of_mem hch, not_lookedUp hkept, fun last hmem => ?_⟩
  exact Nat.le_trans (hlast last (List.mem_of_mem_head? hmem)) hlive

/-- After a challenge for a domain, a client that reads it and answers in time gets in, if its user is permitted and
nobody has named the nonce before. Other calls, and other header values that name other nonces, do not matter. The call
does not fail for the clock, if this can represent the end of a nonce that is issued now. -/
theorem honest_client_admitted {user : Text} {secret : Bytes}
    (htimes : (c₁ :: later ++ c₀ :: before).Pairwise fun later earlier => earlier.now ≤ later.now)
    (hfresh : Fresh a (later ++ c₀ :: before))
    (hch : (d, ch) ∈ (c₀.domains a).zip (c₀.verdict a before).challenges)
    (hkept : ∀ c ∈ later, ∀ x ∈ candidates c.request.authorization,
      x.param? "nonce".toList ≠ some ch.keys.nonce)
    (hlive : c₁.now ≤ c₀.now + a.validity)
    (hsecret : Acl.secret c₁.tree c₁.request.entry d "Digest".toList user = .ok (some secret))
    (hallow : Acl.permission c₁.tree c₁.request.entry d c₁.request.method = .ok .allow) :
    ∃ challenge, Credentials.parse (Utf8.encode ch.text) = .ok [challenge] ∧
      ∀ reply, Answers challenge user secret c₁.request.method c₁.request.target reply → ∀ others rest,
        c₁.request.authorization = others ++ Utf8.encode reply.text :: rest →
        (∀ x ∈ candidates (others ++ rest), x.param? "nonce".toList ≠ some ch.keys.nonce) →
        (c₁.verdict a (later ++ c₀ :: before)).authorized = true ∧
        (c₁.now + a.validity < Cache.clockLimit → ∃ cache, authenticate? a c₁.tree c₁.request c₁.now c₁.draw
          (cacheAfter a (later ++ c₀ :: before)) = some (c₁.verdict a (later ++ c₀ :: before), cache)) := by
  have hdrawn := hfresh.drawn c₀ (List.mem_append_right _ (List.mem_cons_self ..))
  obtain ⟨nonce, echo, hkeys⟩ := keys_of_challenge hdrawn hch
  have hne : ch.keys.nonce ≠ [] := by
    refine (hfresh.suffix (List.suffix_append ..)).ne_nil (List.mem_append_left _ ?_)
    exact List.mem_map_of_mem (f := Prod.fst) (List.mem_map_of_mem hch)
  have hcached := challenge_cached htimes hfresh hch
    (fun c hc x hx heq => hkept c hc x hx ((keyOf_eq_iff hne).mp heq)) hlive
  refine ⟨ch.credentials, parse_challenge hkeys, fun reply hreply others rest hvalues hothers => ⟨?_, fun hlimit => ?_⟩⟩
  · obtain ⟨hrealm, hnonce, hecho, -, hqop⟩ := params_of_challenge ch
    obtain ⟨hrnonce, hrecho, -, hrqop⟩ := hreply.echo
    have hcandidates := hreply.candidates others rest
    rw [← hvalues] at hcandidates
    have hproves : ProvesAfter c₁.tree c₁.request c₁.now (cacheAfter a (later ++ c₀ :: before)) (candidates others)
        reply ⟨c₀.now, a.validity, ch.keys.echo, d, ch.realm⟩ := by
      refine ⟨mem_candidates_iff.mp (by rw [hcandidates]; simp), ?_, hlive, ?_, paramOf_eq hrecho,
        paramOf_eq hreply.uri, secret, ?_, ?_⟩
      · rw [paramOf_eq hrnonce]
        exact hcached
      · intro x hx heq
        rw [paramOf_eq hrnonce] at heq
        refine hothers x ?_ ((keyOf_eq_iff hne).mp heq)
        rw [candidates, List.flatMap_append, List.filter_append]
        exact List.mem_append_left _ hx
      · rw [paramOf_eq hreply.username]
        exact hsecret
      · rw [paramOf_eq hreply.response, paramOf_eq hreply.username, paramOf_eq hrealm, paramOf_eq hnonce,
          paramOf_eq hqop, paramOf_eq hrnonce, paramOf_eq hrqop, paramOf_eq hreply.uri]
    have hallowed := (any_allowed_iff (nodup_keys_cacheAfter a _)).mpr ⟨_, _, _, _, hcandidates, hproves, hallow⟩
    rw [Call.verdict, authorized_eq, hallowed, Bool.true_or]
  · have hlast : ∀ c ∈ later ++ c₀ :: before, c.now ≤ c₁.now := (List.pairwise_cons.mp htimes).1
    have hfits := fitsClock_cacheAfter hlast hlimit
    exact ⟨_, by rw [authenticate?, if_pos hfits]; rfl⟩

end Admission

/-! ## A user of a host whose realm needs escapes -/

/-- The host with a user who may read. -/
def admitting : FileTree :=
  [(Acl.realmKey, "\\\"A\\\""), ("GET.perm".toList, "allow")].foldl
    (fun t kv => ((Store.write ((Acl.scopeOf challengedHost "admin".toList).child kv.1)
      (Ascii.bytes kv.2)).run.run t).2)
    ((Store.write (Acl.secretOf (Acl.scopeOf challengedHost "admin".toList) scheme "alice".toList)
      (Ascii.bytes "pass\n")).run.run (FileTree.empty "data/".toList)).2

def asked : Call :=
  ⟨admitting, ⟨challengedHost, challengedHost, "GET".toList, "/".toList, []⟩, 0,
    fun _ => .ofBytes (List.replicate 12 0) (List.replicate 12 1)⟩

/-- What the host asks for. -/
def question : Challenge := ⟨"\\\"A\\\"".toList, "/".toList, asked.draw 0, false⟩

/-- The answer of the user, at the very end of the validity. -/
def answered : Call :=
  { asked with
    request := { asked.request with authorization := [Utf8.encode
      (answerTo question.credentials "alice".toList (Ascii.bytes "pass") "GET".toList "/".toList).text] }
    now := 1000 }

theorem alice_admitted : (answered.verdict ⟨Acl.anonymous, 1000⟩ [asked]).authorized = true := by
  have htimes : (answered :: [] ++ asked :: []).Pairwise (fun later earlier => earlier.now ≤ later.now) := by
    refine List.pairwise_pair.mpr ?_
    decide
  have hfresh : Fresh ⟨Acl.anonymous, 1000⟩ ([] ++ asked :: []) := by
    refine ⟨fun c hc i => ?_, by decide +kernel⟩
    rw [List.mem_singleton.mp hc]
    exact ⟨_, _, rfl, rfl, rfl⟩
  have hch : ("admin".toList, question) ∈ (asked.domains ⟨Acl.anonymous, 1000⟩).zip
      (asked.verdict ⟨Acl.anonymous, 1000⟩ []).challenges := by decide +kernel
  have hsecret : Acl.secret answered.tree answered.request.entry "admin".toList "Digest".toList "alice".toList =
      .ok (some (Ascii.bytes "pass")) := by decide +kernel
  have hallow : Acl.permission answered.tree answered.request.entry "admin".toList answered.request.method =
      .ok .allow := by decide +kernel
  have hkeys : question.keys = .ofBytes (List.replicate 12 0) (List.replicate 12 1) := rfl
  have hanswers := answers_answerTo hkeys (by decide : Credentials.Visible "alice".toList)
    (by decide : Credentials.Visible "/".toList) (Ascii.bytes "pass") "GET".toList
  obtain ⟨challenge, hparse, hadmitted⟩ := honest_client_admitted htimes hfresh hch
    (fun c hc => nomatch hc) (by decide) hsecret hallow
  obtain rfl : question.credentials = challenge :=
    (List.cons.inj (Except.ok.inj ((parse_challenge hkeys).symm.trans hparse))).1
  exact (hadmitted _ hanswers [] [] rfl fun x hx => nomatch hx).1

end EntryServer.Auth
