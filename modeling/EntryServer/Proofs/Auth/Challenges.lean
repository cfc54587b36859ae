import EntryServer.Proofs.Auth.Nonces
import EntryServer.Proofs.Credentials.Printer

/-! # What a challenge says

A challenge is printed as credentials are: each value in quotes, the realm and the path escaped there, and the keys
as they are, since no sign of Base64 needs an escape. So a client reads one group, with the values that the
challenge was issued with, whatever the realm and the path are made of. -/
namespace EntryServer.Auth
set_option autoImplicit false

/-! ## Escapes -/

/-- A backslash before each occurrence of a sign. -/
def marked (sign : Char) (t : Text) : Text := t.flatMap fun c => if c = sign then ['\\', sign] else [c]

theorem escape_cons (c : Char) (t : Text) :
    escape (c :: t) = (if c = '\\' ∨ c = '"' then ['\\', c] else [c]) ++ escape t := List.flatMap_cons

/-- Escaping a text is to mark its backslashes, and its quotes only then. -/
theorem escape_eq_marked (t : Text) : escape t = marked '"' (marked '\\' t) := by
  have heach : ∀ c, (if c = '\\' ∨ c = '"' then ['\\', c] else [c]) =
      marked '"' (if c = '\\' then ['\\', '\\'] else [c]) := by
    intro c
    by_cases hback : c = '\\'
    · subst hback
      rfl
    · by_cases hquote : c = '"'
      · subst hquote
        rfl
      · rw [if_neg hback, if_neg (not_or.mpr ⟨hback, hquote⟩), marked, List.flatMap_singleton, if_neg hquote]
  rw [escape, funext heach]
  exact List.flatMap_assoc.symm

/-- The other way around, the marks of the quotes would be marked in their turn. -/
example : marked '\\' (marked '"' ['"']) = ['\\', '\\', '"'] := by decide

theorem escape_eq_self {t : Text} (h : ∀ c ∈ t, Base64.InRange c) : escape t = t := by
  induction t with
  | nil => rfl
  | cons c t ih =>
    have hc := h c (List.mem_cons_self ..)
    have hplain : ¬ (c = '\\' ∨ c = '"') := by
      rintro (rfl | rfl)
      · exact absurd hc (by decide)
      · exact absurd hc (by decide)
    rw [escape_cons, if_neg hplain, ih fun x hx => h x (List.mem_cons_of_mem _ hx)]
    rfl

/-! ## Reading a challenge -/

/-- Both keys are spelled in Base64. -/
structure Keys.Spelled (keys : Keys) : Prop where
  nonce : ∀ c ∈ keys.nonce, c ∈ Base64.signs
  echo : ∀ c ∈ keys.echo, c ∈ Base64.signs

theorem spelled_ofBytes (nonce echo : Bytes) : (Keys.ofBytes nonce echo).Spelled :=
  ⟨fun _ => Base64.mem_signs_of_mem, fun _ => Base64.mem_signs_of_mem⟩

/-- The challenge as a client reads it. -/
def Challenge.credentials (ch : Challenge) : Credentials :=
  ⟨scheme, [("realm".toList, ch.realm), ("domain".toList, ch.path), ("nonce".toList, ch.keys.nonce),
      ("opaque".toList, ch.keys.echo)] ++
    (if ch.stale then [("stale".toList, "true".toList)] else []) ++
    [("algorithm".toList, "MD5".toList), ("qop".toList, "auth".toList)]⟩

/-- The keys of a challenge need no escape, and everything else is escaped. -/
theorem text_credentials {ch : Challenge} (hkeys : ch.keys.Spelled) : ch.credentials.text = ch.text := by
  have hnonce : escape ch.keys.nonce = ch.keys.nonce :=
    escape_eq_self fun c hc => Base64.inRange_of_sign (hkeys.nonce c hc)
  have hecho : escape ch.keys.echo = ch.keys.echo := escape_eq_self fun c hc => Base64.inRange_of_sign (hkeys.echo c hc)
  have hparams : ch.credentials.params.map Credentials.paramText = ch.params := by
    rw [Challenge.credentials, Challenge.params]
    cases ch.stale with
    | true => simp [Credentials.paramText, quotedParam, hnonce, hecho]; decide
    | false => simp [Credentials.paramText, quotedParam, hnonce, hecho]; decide
  rw [Credentials.text, hparams]
  rfl

theorem wellFormed_credentials (ch : Challenge) : ch.credentials.WellFormed := by
  obtain ⟨realm, path, keys, stale⟩ := ch
  have hscheme : Credentials.IsToken scheme := by decide
  cases stale with
  | true =>
    have hkeys : (Challenge.credentials ⟨realm, path, keys, true⟩).params.map Prod.fst = ["realm".toList,
        "domain".toList, "nonce".toList, "opaque".toList, "stale".toList, "algorithm".toList, "qop".toList] := rfl
    refine ⟨hscheme, List.cons_ne_nil _ _, ?_, ?_⟩
    · rw [hkeys]
      decide
    · rw [hkeys]
      decide
  | false =>
    have hkeys : (Challenge.credentials ⟨realm, path, keys, false⟩).params.map Prod.fst = ["realm".toList,
        "domain".toList, "nonce".toList, "opaque".toList, "algorithm".toList, "qop".toList] := rfl
    refine ⟨hscheme, List.cons_ne_nil _ _, ?_, ?_⟩
    · rw [hkeys]
      decide
    · rw [hkeys]
      decide

theorem parse_spelled {ch : Challenge} (hkeys : ch.keys.Spelled) :
    Credentials.parse (Utf8.encode ch.text) = .ok [ch.credentials] := by
  rw [← text_credentials hkeys]
  exact Credentials.parse_text (wellFormed_credentials ch)

/-- A client reads a challenge as it is meant. -/
theorem parse_challenge {ch : Challenge} {nonce echo : Bytes} (hkeys : ch.keys = .ofBytes nonce echo) :
    Credentials.parse (Utf8.encode ch.text) = .ok [ch.credentials] :=
  parse_spelled (hkeys ▸ spelled_ofBytes nonce echo)

/-! ## The challenges of a call -/

/-- A challenge for any realm and path is read as one group with exactly the values it was made of. So the clients of
a call, whatever its request and its cache are, read for each domain of the entry the realm of the domain, the path
of its scope and the next of the drawn keys. -/
theorem challenges_are_read_as_issued :
    (∀ realm path nonce echo stale, Keys.Spelled ⟨nonce, echo⟩ →
      Credentials.parse (Utf8.encode (Challenge.text ⟨realm, path, ⟨nonce, echo⟩, stale⟩)) = .ok [⟨"Digest".toList,
        [("realm".toList, realm), ("domain".toList, path), ("nonce".toList, nonce), ("opaque".toList, echo)] ++
        (if stale then [("stale".toList, "true".toList)] else []) ++
        [("algorithm".toList, "MD5".toList), ("qop".toList, "auth".toList)]⟩]) ∧
    ∀ (a : Authenticator) (t : FileTree) (r : Request) (now : Nat) (draw : Nat → Keys) (cache : Cache),
      (∀ i, (draw i).Spelled) →
      (authenticate a t r now draw cache).1.challenges.map (fun ch => Credentials.parse (Utf8.encode ch.text)) =
        (Acl.domains t a.anonymous r.entry).1.mapIdx fun i name =>
          .ok [Challenge.credentials ⟨(Acl.domain t r.entry name).realm,
            ((Acl.domain t r.entry name).scope.bind (·.urlPathUnder r.site)).getD "/".toList, draw i,
            (conclusion t r now cache).stale⟩] := by
  refine ⟨fun realm path nonce echo stale hkeys => parse_spelled hkeys, fun a t r now draw cache hdraw => ?_⟩
  have hchallenges : (authenticate a t r now draw cache).1.challenges =
      (Acl.domains t a.anonymous r.entry).1.mapIdx fun i name =>
        (challengeFor a t r now (conclusion t r now cache).stale (draw (0 + i)) name).1 := by
    rw [authenticate_eq, issue_challenges]
  rw [hchallenges]
  refine List.ext_getElem (by simp) fun i _ _ => ?_
  rw [List.getElem_map, List.getElem_mapIdx, List.getElem_mapIdx, Nat.zero_add]
  exact parse_spelled (hdraw i)

/-- A realm that looks like the end of its value and more parameters, and like other credentials on a line of their
own, with a backslash at its end. -/
def awkwardRealm : Text := "=\", stale=\"true\", Basic a=b\r\n, \"λ\\".toList

/-- The host with a domain of that realm. -/
def awkward : FileTree :=
  ((Store.write ((Acl.scopeOf challengedHost "admin".toList).child Acl.realmKey) (Utf8.encode awkwardRealm)).run.run
    (FileTree.empty "data/".toList)).2

/-- Keys with every kind of sign, the padding included. -/
def awkwardKeys : Keys := .ofBytes (List.replicate 11 251) (List.replicate 10 105)

theorem awkward_realm_is_read_back :
    Credentials.parse (Utf8.encode (Challenge.text ⟨awkwardRealm, "/a\\".toList, awkwardKeys, false⟩)) =
      .ok [⟨"Digest".toList, [("realm".toList, awkwardRealm), ("domain".toList, "/a\\".toList),
        ("nonce".toList, awkwardKeys.nonce), ("opaque".toList, awkwardKeys.echo),
        ("algorithm".toList, "MD5".toList), ("qop".toList, "auth".toList)]⟩] ∧
    (authenticate ⟨Acl.anonymous, 1000⟩ awkward ⟨challengedHost, challengedHost, "GET".toList, "/".toList, [attempt]⟩ 0
        (fun _ => awkwardKeys) []).1.challenges.map (fun ch => Credentials.parse (Utf8.encode ch.text)) =
      [.ok [Challenge.credentials ⟨awkwardRealm, "/".toList, awkwardKeys, true⟩]] := by
  have hkeys : awkwardKeys.Spelled := spelled_ofBytes _ _
  obtain ⟨hread, hcall⟩ := challenges_are_read_as_issued
  refine ⟨hread _ _ _ _ _ hkeys, ?_⟩
  have hdomains : (Acl.domains awkward Acl.anonymous challengedHost).1 = ["admin".toList] := by decide +kernel
  rw [hcall _ _ _ _ _ _ fun _ => hkeys, hdomains]
  refine congrArg (fun ch => [Except.ok [Challenge.credentials ch]]) (?_ : _ = Challenge.mk ..)
  decide +kernel

end EntryServer.Auth
