import EntryServer.Proofs.Credentials.Grammar

/-! # Accepted header values

What is accepted is what the loose grammar shows, and what is read is what it shows. Each reader is taken on its own:
what it has read stands at the front of the text, and what is left is the rest of the text. -/
namespace EntryServer.Credentials
set_option autoImplicit false

/-! ## Values and parameters -/

section Params
variable {closed : Bool} {s v : Text} {kv : Text × Text} {r : Bytes}

/-- What is read in front of the rest is a part of what is read. -/
theorem map_front {front bs : Bytes} {x : Except Fault (Bytes × Bytes)}
    (h : (x.map fun (bs, rest) => (front ++ bs, rest)) = .ok (bs, r)) :
    ∃ more, x = .ok (more, r) ∧ bs = front ++ more := by
  cases x with
  | error f => cases h
  | ok found =>
    obtain ⟨rfl, rfl⟩ := Prod.mk.inj (Except.ok.inj h)
    exact ⟨_, rfl, rfl⟩

theorem exists_quotedBytes {bs : Bytes} (h : quotedBytes (Utf8.encode s) = .ok (bs, r)) :
    ∃ v shown rest, s = shown ++ '"' :: rest ∧ bs = Utf8.encode v ∧ r = Utf8.encode rest ∧ Escaped v shown := by
  -- a backslash goes with the character after it, so the induction is on the length
  induction hlength : s.length using Nat.strongRecOn generalizing s bs with
  | ind n ih =>
    subst hlength
    cases s with
    | nil => cases h
    | cons c s =>
      by_cases hquote : c = '"'
      · subst hquote
        obtain ⟨rfl, rfl⟩ := Prod.mk.inj (Except.ok.inj (show Except.ok ([], Utf8.encode s) = _ from h))
        exact ⟨[], [], s, rfl, rfl, rfl, .nil⟩
      · by_cases hescape : c = '\\'
        · subst hescape
          cases s with
          | nil => cases h
          | cons d s =>
            rw [Utf8.encode_cons, Utf8.encode_cons] at h
            obtain ⟨more, hread, rfl⟩ := map_front ((quotedBytes_backslash d _).symm.trans h)
            have hshorter : s.length < ('\\' :: d :: s).length := by
              rw [List.length_cons, List.length_cons]
              omega
            obtain ⟨v, shown, rest, rfl, rfl, hr, hshown⟩ := ih _ hshorter hread rfl
            exact ⟨d :: v, '\\' :: d :: shown, rest, rfl, (Utf8.encode_cons ..).symm, hr, .escaped d hshown⟩
        · have hplain : ¬ (c = '\\' ∨ c = '"') := not_or.mpr ⟨hescape, hquote⟩
          rw [Utf8.encode_cons, quotedBytes_plain (plain_encodeChar hplain)] at h
          obtain ⟨more, hread, rfl⟩ := map_front h
          obtain ⟨v, shown, rest, rfl, rfl, hr, hshown⟩ := ih _ (Nat.lt_succ_self _) hread rfl
          exact ⟨c :: v, c :: shown, rest, rfl, (Utf8.encode_cons ..).symm, hr, .plain hplain hshown⟩

theorem exists_quoted (h : quoted (Utf8.encode s) = .ok (v, r)) :
    ∃ shown rest, s = shown ++ '"' :: rest ∧ r = Utf8.encode rest ∧ Escaped v shown := by
  rw [quoted] at h
  split at h
  · cases h
  · next bs _ hread =>
    obtain ⟨w, shown, rest, rfl, rfl, rfl, hshown⟩ := exists_quotedBytes hread
    rw [Utf8.decode?_encode] at h
    obtain ⟨rfl, rfl⟩ := Prod.mk.inj (Except.ok.inj h)
    exact ⟨shown, rest, rfl, rfl, hshown⟩

theorem exists_value (h : value (Utf8.encode s) = .ok (v, r)) :
    ∃ closed shown rest, s = shown ++ rest ∧ r = Utf8.encode rest ∧ ValueText closed v shown ∧
      (closed = true ∨ Stops Ascii.isTokenByte r) := by
  unfold value at h
  split at h
  · next hquote =>
    obtain ⟨inner, rfl, rfl⟩ := Utf8.exists_of_encode_ascii (c := '"') (by decide) hquote
    obtain ⟨shown, rest, rfl, rfl, hshown⟩ := exists_quoted h
    exact ⟨true, _, rest, by simp, rfl, .quoted hshown, .inl rfl⟩
  · split at h
    · next htoken =>
      obtain ⟨rfl, rfl⟩ := Prod.mk.inj (Except.ok.inj h)
      obtain ⟨rest, rfl, rfl, hv, hstop⟩ := exists_token htoken
      exact ⟨false, _, rest, rfl, rfl, .bare hv, .inr hstop⟩
    · cases h

theorem exists_param (h : param (Utf8.encode s) = .ok (kv, r)) :
    ∃ closed shown rest, s = shown ++ rest ∧ r = Utf8.encode rest ∧ ParamText closed kv shown ∧
      (closed = true ∨ Stops Ascii.isTokenByte r) := by
  unfold param at h
  split at h
  · cases h
  · next key r₁ htoken =>
    obtain ⟨rest₁, rfl, rfl, hkey, -⟩ := exists_token htoken
    obtain ⟨before, rest₂, rfl, hbefore, -, hskip⟩ := exists_blanks rest₁
    rw [hskip] at h
    split at h
    · next hequals =>
      obtain ⟨rest₃, rfl, rfl⟩ := Utf8.exists_of_encode_ascii (c := '=') (by decide) hequals
      obtain ⟨after, rest₄, rfl, hafter, -, hskip'⟩ := exists_blanks rest₃
      rw [hskip'] at h
      cases hvalue : value (Utf8.encode rest₄) with
      | error f =>
        rw [hvalue] at h
        cases h
      | ok found =>
        rw [hvalue] at h
        obtain ⟨rfl, rfl⟩ := Prod.mk.inj (Except.ok.inj h)
        obtain ⟨closed, shown, rest, rfl, hr, hv, hends⟩ := exists_value hvalue
        exact ⟨closed, _, rest, by simp, hr, .intro hkey hbefore hafter hv, hends⟩
    · cases h

theorem not_stops_of_startsParam (h : startsParam r = true) : ¬ Stops Ascii.isTokenByte r := by
  intro hstop
  rw [startsParam, hstop.takeWhile] at h
  cases h

/-- Parameters that are read stand at the front of the text, with a gap after them. -/
theorem exists_params {done kvs : List (Text × Text)} {bytes : Bytes} (h : paramsFrom done bytes = .ok (kvs, r))
    (hstarts : startsParam bytes = true) (hs : bytes = Utf8.encode s) :
    ∃ closed new shown gap rest, s = shown ++ gap ++ rest ∧ r = Utf8.encode rest ∧ ParamsText true closed new shown ∧
      IsGap gap ∧ kvs = new.foldl (fun done kv => insert done kv.1 kv.2) done ∧ Stops isSeparator r ∧
      (closed = true ∨ gap ≠ [] ∨ Stops Ascii.isTokenByte r) := by
  fun_induction paramsFrom done bytes generalizing s with
  | case1 => cases h
  | case3 done bytes hnot => exact absurd hstarts hnot
  | case2 done bytes _ key v r₁ hparam ih =>
    rw [hs] at hparam
    obtain ⟨first, shown, rest₁, rfl, rfl, hshown, hends⟩ := exists_param hparam
    obtain ⟨gap, rest₂, rfl, hgap, hstop, hskip⟩ := exists_gap rest₁
    rw [hskip] at h ih
    by_cases hmore : startsParam (Utf8.encode rest₂) = true
    · obtain ⟨closed, new, shown', gap', rest, rfl, rfl, hnew, hgap', rfl, hlast⟩ := ih h hmore rfl
      by_cases hne : gap = []
      · subst hne
        have hclosed : first = true := hends.resolve_right (not_stops_of_startsParam hmore)
        subst hclosed
        exact ⟨closed, _, _, gap', rest, by simp, rfl, .joined rfl hshown hnew, hgap', rfl, hlast⟩
      · exact ⟨closed, _, _, gap', rest, by simp, rfl, .more hshown hgap hne hnew, hgap', rfl, hlast⟩
    · rw [paramsFrom_done (Bool.eq_false_iff.mpr hmore)] at h
      obtain ⟨rfl, rfl⟩ := Prod.mk.inj (Except.ok.inj h)
      refine ⟨first, _, shown, gap, rest₂, by simp, rfl, .one hshown, hgap, rfl, hstop,
        hends.imp_right fun htoken => ?_⟩
      by_cases hne : gap = []
      · subst hne
        exact Or.inr htoken
      · exact Or.inl hne

end Params

/-! ## Groups -/

section Groups
variable {c : Credentials} {cs : List Credentials} {s rest gap next : Text} {r : Bytes}

/-- How a group that was read stands at the front of a text, and what is known of the rest where the group does not
have to be over. -/
inductive GroupRead : Credentials → Text → Text → Prop
  | ended {c : Credentials} {shown rest : Text} (hgroup : GroupText true c shown) (hends : Ends (Utf8.encode rest)) :
    GroupRead c (shown ++ rest) rest
  | scheme {scheme blanks rest : Text} (hscheme : IsToken scheme) (hblanks : IsBlank blanks) (hne : blanks ≠ [])
    (hstop : Stops isSpace (Utf8.encode rest)) (halone : ¬ StandsAlone rest) :
    GroupRead ⟨scheme, []⟩ (scheme ++ blanks ++ rest) rest
  | params {closed : Bool} {scheme blanks shown gap rest : Text} {kvs : List (Text × Text)} (hscheme : IsToken scheme)
    (hblanks : IsBlank blanks) (hne : blanks ≠ []) (hparams : ParamsText true closed kvs shown) (hgap : IsGap gap)
    (hstop : Stops isSeparator (Utf8.encode rest))
    (hlast : closed = true ∨ gap ≠ [] ∨ Stops Ascii.isTokenByte (Utf8.encode rest)) :
    GroupRead ⟨scheme, latest kvs⟩ (scheme ++ blanks ++ shown ++ gap ++ rest) rest

theorem not_standsAlone (h : whole? (Utf8.encode s) = none) : ¬ StandsAlone s := by
  rintro ⟨t, more, rfl, ht, hends⟩
  rw [Utf8.encode_append, whole?_encode ht hends] at h
  cases h

theorem exists_group (h : group (Utf8.encode s) = .ok (c, r)) : ∃ rest, r = Utf8.encode rest ∧ GroupRead c s rest := by
  rw [group] at h
  split at h
  · cases h
  · next scheme r₁ htoken =>
    obtain ⟨rest₁, rfl, rfl, hscheme, -⟩ := exists_token htoken
    obtain ⟨blanks, rest₂, rfl, hblanks, hstop, hskip⟩ := exists_blanks rest₁
    rw [hskip] at h
    split at h
    · next hlength =>
      have hnone : skipSpaces (Utf8.encode (blanks ++ rest₂)) = Utf8.encode (blanks ++ rest₂) :=
        (List.dropWhile_sublist _).eq_of_length ((congrArg List.length hskip).trans hlength)
      split at h
      · next hnil =>
        obtain ⟨rfl, rfl⟩ := Prod.mk.inj (Except.ok.inj h)
        exact ⟨_, rfl, .ended (.bare hscheme) (ends_of_skipSpaces (.inl (hnone.trans hnil)))⟩
      · next more hcomma =>
        obtain ⟨rfl, rfl⟩ := Prod.mk.inj (Except.ok.inj h)
        exact ⟨_, rfl, .ended (.bare hscheme) (ends_of_skipSpaces (.inr ⟨more, hnone.trans hcomma⟩))⟩
      · cases h
    · next hlength =>
      have hne : blanks ≠ [] := by
        rintro rfl
        exact hlength rfl
      split at h
      · next hwhole =>
        obtain ⟨rfl, rfl⟩ := Prod.mk.inj (Except.ok.inj h)
        obtain ⟨rest, rfl, rfl, ht, hends⟩ := exists_whole hwhole
        have hread := GroupRead.ended (.whole hscheme hblanks hne ht) hends
        exact ⟨rest, rfl, by simpa using hread⟩
      · next hwhole =>
        by_cases hstarts : startsParam (Utf8.encode rest₂) = true
        · cases hread : paramsFrom [] (Utf8.encode rest₂) with
          | error f =>
            rw [hread] at h
            cases h
          | ok found =>
            rw [hread] at h
            obtain ⟨rfl, rfl⟩ := Prod.mk.inj (Except.ok.inj h)
            obtain ⟨closed, kvs, shown, gap, rest, rfl, hr, hparams, hgap, hkvs, hsep, hlast⟩ :=
              exists_params hread hstarts rfl
            rw [hr] at hsep hlast
            rw [hkvs, foldl_insert_nil]
            refine ⟨rest, hr, ?_⟩
            simpa using GroupRead.params hscheme hblanks hne hparams hgap hsep hlast
        · rw [paramsFrom_done (Bool.eq_false_iff.mpr hstarts)] at h
          obtain ⟨rfl, rfl⟩ := Prod.mk.inj (Except.ok.inj h)
          refine ⟨rest₂, rfl, ?_⟩
          simpa using GroupRead.scheme hscheme hblanks hne hstop (not_standsAlone hwhole)

/-- A run of a class does not stand where the class stops. -/
theorem nil_of_stops {p : UInt8 → Bool} {front : Text} (hall : ∀ b ∈ Utf8.encode front, p b = true)
    (h : Stops p (Utf8.encode (front ++ rest))) : front = [] := by
  refine Decidable.byContradiction fun hne => ?_
  obtain ⟨b, more, hbytes⟩ := List.exists_cons_of_ne_nil (Utf8.encode_ne_nil hne)
  have hfalse := h b (by rw [Utf8.encode_append, hbytes]; rfl)
  rw [hall b (hbytes ▸ List.mem_cons_self ..)] at hfalse
  cases hfalse

theorem Begins.not_stops (h : Begins r) : ¬ Stops Ascii.isTokenByte r := by
  obtain ⟨scheme, rest, rfl, hscheme, -⟩ := h
  obtain ⟨b, more, hbytes, hb⟩ := hscheme.front
  intro hstop
  rw [hstop b (by rw [hbytes]; rfl)] at hb
  cases hb

/-- Where a group is over and another one begins, there is a comma between them. -/
theorem comma_of_ends (hgap : IsGap gap) (hnext : Begins (Utf8.encode next))
    (h : Ends (Utf8.encode (gap ++ next))) : ',' ∈ gap := by
  refine Decidable.byContradiction fun hcomma => ?_
  obtain ⟨b, more, hbytes, hb, -⟩ := hnext.opens
  have hskip : skipSpaces (Utf8.encode (gap ++ next)) = Utf8.encode next := by
    rw [Utf8.encode_append]
    exact dropWhile_run (hgap.isBlank hcomma).all hnext.opens.stops_space
  rw [h b (by rw [hskip, hbytes]; rfl)] at hb
  exact absurd hb (by decide)

/-- A group with only a gap after it. -/
theorem GroupRead.last (h : GroupRead c s rest) (hrest : IsGap rest) : GroupsText true [c] s := by
  cases h with
  | ended hgroup => exact .last hgroup hrest
  | scheme hscheme hblanks =>
    rw [List.append_assoc]
    exact .last (.bare hscheme) (hblanks.isGap.append hrest)
  | params hscheme hblanks hne hparams hgap hstop =>
    rw [← List.append_nil rest] at hstop
    obtain rfl := nil_of_stops hrest.all hstop
    rw [List.append_nil]
    exact .last (.params hscheme hblanks hne hparams) hgap

/-- A group with other groups after it. If there is no comma in between, it is one of those that the loose form lets
pass. -/
theorem GroupRead.more (h : GroupRead c s (gap ++ next)) (hgap : IsGap gap) (hnext : GroupsText true cs next) :
    GroupsText true (c :: cs) s := by
  generalize hrest : gap ++ next = rest at h
  cases h with
  | ended hgroup hends =>
    subst hrest
    rw [← List.append_assoc]
    exact .more hgroup hgap (comma_of_ends hgap hnext.begins hends) hnext
  | scheme hscheme hblanks hne hstop halone =>
    subst hrest
    by_cases hcomma : ',' ∈ gap
    · rw [← List.append_assoc, List.append_assoc _ _ gap]
      exact .more (.bare hscheme) (hblanks.isGap.append hgap) (List.mem_append_right _ hcomma) hnext
    · obtain rfl := nil_of_stops (hgap.isBlank hcomma).all hstop
      exact .afterScheme rfl hscheme hblanks hne hnext halone
  | @params _ _ _ _ gap' _ _ hscheme hblanks hne hparams hgap' hstop hlast =>
    subst hrest
    obtain rfl := nil_of_stops hgap.all hstop
    rw [List.nil_append] at hlast ⊢
    by_cases hcomma : ',' ∈ gap'
    · exact .more (.params hscheme hblanks hne hparams) hgap' hcomma hnext
    · exact .afterParams rfl hscheme hblanks hne hparams (hgap'.isBlank hcomma)
        (hlast.imp_right fun h => h.resolve_right hnext.begins.not_stops) hnext

/-! ## Header values -/

theorem exists_groups {bytes : Bytes} (h : groups bytes = .ok cs) (hs : bytes = Utf8.encode s) :
    cs = [] ∧ IsGap s ∨ Listed true cs s := by
  fun_induction groups bytes generalizing s cs with
  | case1 bytes hnil =>
    obtain rfl := Except.ok.inj h
    obtain ⟨gap, rest, rfl, hgap, -, hskip⟩ := exists_gap s
    rw [← hs, hnil] at hskip
    have hrest : rest = [] := Utf8.encode_inj hskip.symm
    rw [hrest, List.append_nil]
    exact Or.inl ⟨rfl, hgap⟩
  | case2 => cases h
  | case3 bytes _ c r hgroup ih =>
    obtain ⟨front, t, rfl, hfront, -, hskip⟩ := exists_gap s
    rw [hs, hskip] at hgroup
    obtain ⟨rest, rfl, hread⟩ := exists_group hgroup
    cases hmore : groups (Utf8.encode rest) with
    | error f =>
      rw [hmore] at h
      cases h
    | ok more =>
      rw [hmore] at h
      obtain rfl := Except.ok.inj h
      refine Or.inr ⟨front, t, hfront, ?_, rfl⟩
      rcases ih hmore rfl with ⟨rfl, hgap⟩ | ⟨gap, next, hgap, hnext, rfl⟩
      · exact hread.last hgap
      · exact hread.more hgap hnext

theorem listed_of_parse (h : parse (Utf8.encode s) = .ok cs) : Listed true cs s := by
  rw [parse] at h
  split at h
  · cases h
  · cases h
  · next c cs' hgroups =>
    obtain rfl := Except.ok.inj h
    rcases exists_groups hgroups rfl with ⟨hnil, -⟩ | hlisted
    · cases hnil
    · exact hlisted

theorem param?_latest (scheme : Text) (kvs : List (Text × Text)) (key : Text) :
    (⟨scheme, latest kvs⟩ : Credentials).param? key =
      (kvs.reverse.find? fun kv => kv.1 = Ascii.lower key).map (·.2) := by
  rw [param?, find?_latest]

/-- A header value is accepted exactly if the loose grammar shows it, and what is read is what is shown, where the last
of equal keys counts. Nothing that is documented is refused. And nothing but what is documented is accepted exactly
where no separator is missing. -/
theorem accepted_as_documented_iff (t : Text) :
    (∀ cs, parse (Utf8.encode t) = .ok cs ↔ Listed true cs t) ∧
    (∀ scheme kvs key, (⟨scheme, latest kvs⟩ : Credentials).param? key =
      (kvs.reverse.find? fun kv => kv.1 = Ascii.lower key).map (·.2)) ∧
    (∀ cs, Listed false cs t → parse (Utf8.encode t) = .ok cs) ∧
    ((∀ cs, parse (Utf8.encode t) = .ok cs ↔ Listed false cs t) ↔ ∀ cs, Listed true cs t → Listed false cs t) := by
  have hparse : ∀ cs, parse (Utf8.encode t) = .ok cs ↔ Listed true cs t := fun cs => ⟨listed_of_parse, parse_listed⟩
  refine ⟨hparse, param?_latest, fun cs => parse_listed, fun h cs hloose => ?_,
    fun h cs => ⟨fun hread => ?_, parse_listed⟩⟩
  · exact (h cs).mp ((hparse cs).mpr hloose)
  · exact h cs ((hparse cs).mp hread)

/-- As documented, several credentials have a comma among them. -/
theorem comma_of_listed {c d : Credentials} (h : Listed false (c :: d :: cs) s) : ',' ∈ s := by
  obtain ⟨front, t, -, ht, rfl⟩ := h
  refine List.mem_append_right _ ?_
  cases ht with
  | more _ _ hcomma => exact List.mem_append_left _ (List.mem_append_right _ hcomma)
  | afterScheme hloose => cases hloose
  | afterParams hloose => cases hloose

theorem schemes_without_comma :
    parse (Utf8.encode "Digest a=b Basic".toList) =
        .ok [⟨"Digest".toList, [("a".toList, "b".toList)]⟩, ⟨"Basic".toList, []⟩] ∧
      ¬ Listed false [⟨"Digest".toList, [("a".toList, "b".toList)]⟩, ⟨"Basic".toList, []⟩]
        "Digest a=b Basic".toList := by
  have hkey : IsToken "a".toList := by decide
  have hvalue : ValueText false "b".toList "b".toList := .bare (by decide)
  have hparam : ParamText false ("a".toList, "b".toList) "a=b".toList :=
    .intro hkey (by decide : IsBlank []) (by decide : IsBlank []) hvalue
  have hbasic : GroupsText true [⟨"Basic".toList, []⟩] ("Basic".toList ++ []) := .last (.bare (by decide)) (by decide)
  have hdigest : IsToken "Digest".toList := by decide
  have hloose : GroupsText true [⟨"Digest".toList, [("a".toList, "b".toList)]⟩, ⟨"Basic".toList, []⟩]
      "Digest a=b Basic".toList := .afterParams rfl hdigest (by decide : IsBlank " ".toList) (by decide) (.one hparam)
    (by decide : IsBlank " ".toList) (.inr (by decide)) hbasic
  have hlisted : Listed true _ "Digest a=b Basic".toList := ⟨[], _, by decide, hloose, rfl⟩
  exact ⟨parse_listed hlisted, fun h => absurd (comma_of_listed h) (by decide)⟩

end Groups

/-! ## Joined values -/

section Joined
variable {loose : Bool} {cs ds : List Credentials} {s t sep : Text}

theorem gap_not_whole {c : Char} (hc : c = ' ' ∨ c = '\t' ∨ c = ',') (ht : IsWhole t) : c ∉ t := by
  obtain ⟨word, n, -, hword, rfl⟩ := ht
  intro hmem
  rcases List.mem_append.mp hmem with hmem | hmem
  · have hbyte := (ascii_of_mem ascii_of_isWholeByte hword hmem).2
    obtain rfl | rfl | rfl := hc
    · exact absurd hbyte (by decide)
    · exact absurd hbyte (by decide)
    · exact absurd hbyte (by decide)
  · obtain rfl := List.eq_of_mem_replicate hmem
    exact absurd hc (by decide)

/-- A group that is over with more text behind it is over without. -/
theorem ends_of_append (h : Ends (Utf8.encode (s ++ t))) : Ends (Utf8.encode s) := by
  obtain ⟨blanks, rest, rfl, hblanks, hstop, hskip⟩ := exists_blanks s
  intro b hb
  rw [hskip] at hb
  obtain ⟨more, hbytes⟩ := List.head?_eq_some_iff.mp hb
  refine h b ?_
  rw [List.append_assoc, Utf8.encode_append, Utf8.encode_append, skipSpaces,
    dropWhile_run hblanks.all (by rw [hbytes] at hstop ⊢; exact stops_cons (hstop b rfl)), hbytes]
  rfl

/-- What is joined to a text with a separator is no part of a single value at its front. -/
theorem standsAlone_of_append (hsep : IsGap sep) (hne : sep ≠ []) (h : StandsAlone (s ++ (sep ++ t))) :
    StandsAlone s := by
  obtain ⟨word, more, hsplit, hword, hends⟩ := h
  rcases List.append_eq_append_iff.mp hsplit with ⟨between, rfl, hmore⟩ | ⟨between, rfl, rfl⟩
  · cases between with
    | nil => exact ⟨s, [], (List.append_nil s).symm, by rwa [List.append_nil] at hword, fun b hb => nomatch hb⟩
    | cons c between =>
      obtain ⟨d, sep, rfl⟩ := List.exists_cons_of_ne_nil hne
      obtain rfl := (List.cons.inj hmore).1
      exact absurd (List.mem_append_right _ (List.mem_cons_self ..))
        (gap_not_whole (hsep _ (List.mem_cons_self ..)) hword)
  · exact ⟨word, between, rfl, hword, ends_of_append hends⟩

theorem GroupsText.append (h : GroupsText loose cs s) (hsep : IsGap sep) (hcomma : ',' ∈ sep)
    (hrest : GroupsText loose ds t) : GroupsText loose (cs ++ ds) (s ++ (sep ++ t)) := by
  induction h with
  | last hgroup hgap =>
    have hmore := GroupsText.more hgroup (hgap.append hsep) (List.mem_append_right _ hcomma) hrest
    simpa using hmore
  | more hgroup hgap hcomma' _ ih =>
    have hmore := GroupsText.more hgroup hgap hcomma' ih
    simpa using hmore
  | afterScheme hloose hscheme hblanks hne _ halone ih =>
    have hmore := GroupsText.afterScheme hloose hscheme hblanks hne ih
      fun h => halone (standsAlone_of_append hsep (List.ne_nil_of_mem hcomma) h)
    simpa using hmore
  | afterParams hloose hscheme hblanks hne hparams hgap hends _ ih =>
    have hmore := GroupsText.afterParams hloose hscheme hblanks hne hparams hgap hends ih
    simpa using hmore

theorem Listed.append (h : Listed loose cs s) (h' : Listed loose ds t) (hsep : IsGap sep) (hcomma : ',' ∈ sep) :
    Listed loose (cs ++ ds) (s ++ sep ++ t) := by
  obtain ⟨front, s, hfront, hs, rfl⟩ := h
  obtain ⟨gap, t, hgap, ht, rfl⟩ := h'
  have hjoined := hs.append (hsep.append hgap) (List.mem_append_left _ hcomma) ht
  exact ⟨front, _, hfront, hjoined, by simp⟩

/-- Header values are joined as lists are. -/
theorem parse_joined (hs : parse (Utf8.encode s) = .ok cs) (ht : parse (Utf8.encode t) = .ok ds) (hsep : IsGap sep)
    (hcomma : ',' ∈ sep) : parse (Utf8.encode (s ++ sep ++ t)) = .ok (cs ++ ds) :=
  parse_listed ((listed_of_parse hs).append (listed_of_parse ht) hsep hcomma)

end Joined
end EntryServer.Credentials
