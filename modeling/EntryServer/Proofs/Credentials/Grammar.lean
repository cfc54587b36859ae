import EntryServer.Proofs.Credentials.Pieces

/-! # The grammar of credentials

Which texts show which credentials. As documented, commas separate the credentials, and commas or blanks the
parameters. The reader skips separators and never asks for one, so it also takes texts in which some are missing:
where a value ends in a quote, and where the next scheme cannot be taken for a part of the group before it. The
grammar has both, the second as its loose form. What either shows is what is read. -/
namespace EntryServer.Credentials
set_option autoImplicit false

/-! ## Values -/

/-- What stands between quotes for a text: any character may have a backslash before it, a quote or a backslash
must. -/
inductive Escaped : Text → Text → Prop
  | nil : Escaped [] []
  | plain {c : Char} {v shown : Text} (hc : ¬ (c = '\\' ∨ c = '"')) (hrest : Escaped v shown) :
    Escaped (c :: v) (c :: shown)
  | escaped {v shown : Text} (c : Char) (hrest : Escaped v shown) : Escaped (c :: v) ('\\' :: c :: shown)

/-- A value as it is shown, and whether it is closed: then it ends in a quote, and whatever follows is no part of
it. -/
inductive ValueText : Bool → Text → Text → Prop
  | bare {v : Text} (hv : IsToken v) : ValueText false v v
  | quoted {v shown : Text} (h : Escaped v shown) : ValueText true v ('"' :: shown ++ ['"'])

/-! ## Parameters -/

inductive ParamText : Bool → Text × Text → Text → Prop
  | intro {closed : Bool} {key before after v shown : Text} (hkey : IsToken key) (hbefore : IsBlank before)
    (hafter : IsBlank after) (hv : ValueText closed v shown) :
    ParamText closed (Ascii.lower key, v) (key ++ before ++ '=' :: after ++ shown)

/-- Parameters and what separates them, and whether the last one is closed. Behind a closed one the separator may be
missing in the loose form. -/
inductive ParamsText (loose : Bool) : Bool → List (Text × Text) → Text → Prop
  | one {closed : Bool} {kv : Text × Text} {shown : Text} (hparam : ParamText closed kv shown) :
    ParamsText loose closed [kv] shown
  | more {first closed : Bool} {kv : Text × Text} {kvs : List (Text × Text)} {shown gap rest : Text}
    (hparam : ParamText first kv shown) (hgap : IsGap gap) (hne : gap ≠ []) (hrest : ParamsText loose closed kvs rest) :
    ParamsText loose closed (kv :: kvs) (shown ++ gap ++ rest)
  | joined {closed : Bool} {kv : Text × Text} {kvs : List (Text × Text)} {shown rest : Text} (hloose : loose = true)
    (hparam : ParamText true kv shown) (hrest : ParamsText loose closed kvs rest) :
    ParamsText loose closed (kv :: kvs) (shown ++ rest)

/-- The parameters that count: of equal keys the last one. -/
def latest : List (Text × Text) → List (Text × Text)
  | [] => []
  | kv :: later => if later.any (·.1 = kv.1) then latest later else kv :: latest later

/-! ## Credentials -/

inductive GroupText (loose : Bool) : Credentials → Text → Prop
  | bare {scheme : Text} (hscheme : IsToken scheme) : GroupText loose ⟨scheme, []⟩ scheme
  | whole {scheme blanks t : Text} (hscheme : IsToken scheme) (hblanks : IsBlank blanks) (hne : blanks ≠ [])
    (ht : IsWhole t) : GroupText loose ⟨scheme, [(wholeKey, t)]⟩ (scheme ++ blanks ++ t)
  | params {closed : Bool} {scheme blanks shown : Text} {kvs : List (Text × Text)} (hscheme : IsToken scheme)
    (hblanks : IsBlank blanks) (hne : blanks ≠ []) (hparams : ParamsText loose closed kvs shown) :
    GroupText loose ⟨scheme, latest kvs⟩ (scheme ++ blanks ++ shown)

/-- A single value stands at the front and nothing else, up to a comma or the end. -/
def StandsAlone (s : Text) : Prop := ∃ t more, s = t ++ more ∧ IsWhole t ∧ Ends (Utf8.encode more)

/-- Groups with what stands between them, and after the last one. In the loose form no comma has to stand before the
next scheme: after a scheme alone, unless the next group would be its single value, and after parameters. -/
inductive GroupsText (loose : Bool) : List Credentials → Text → Prop
  | last {c : Credentials} {shown gap : Text} (hgroup : GroupText loose c shown) (hgap : IsGap gap) :
    GroupsText loose [c] (shown ++ gap)
  | more {c : Credentials} {cs : List Credentials} {shown gap rest : Text} (hgroup : GroupText loose c shown)
    (hgap : IsGap gap) (hcomma : ',' ∈ gap) (hrest : GroupsText loose cs rest) :
    GroupsText loose (c :: cs) (shown ++ gap ++ rest)
  | afterScheme {scheme blanks rest : Text} {cs : List Credentials} (hloose : loose = true) (hscheme : IsToken scheme)
    (hblanks : IsBlank blanks) (hne : blanks ≠ []) (hrest : GroupsText loose cs rest) (halone : ¬ StandsAlone rest) :
    GroupsText loose (⟨scheme, []⟩ :: cs) (scheme ++ blanks ++ rest)
  | afterParams {closed : Bool} {scheme blanks shown gap rest : Text} {kvs : List (Text × Text)}
    {cs : List Credentials} (hloose : loose = true) (hscheme : IsToken scheme) (hblanks : IsBlank blanks)
    (hne : blanks ≠ []) (hparams : ParamsText loose closed kvs shown) (hgap : IsBlank gap)
    (hends : closed = true ∨ gap ≠ []) (hrest : GroupsText loose cs rest) :
    GroupsText loose (⟨scheme, latest kvs⟩ :: cs) (scheme ++ blanks ++ shown ++ gap ++ rest)

/-- A header value that shows a list of credentials. Empty elements may stand before the first one, too. -/
def Listed (loose : Bool) (cs : List Credentials) (t : Text) : Prop :=
  ∃ gap rest, IsGap gap ∧ GroupsText loose cs rest ∧ t = gap ++ rest

/-! ## The loose form is the weaker one -/

section Loosen
variable {loose closed : Bool} {cs : List Credentials} {t : Text}

theorem ParamsText.loosen {kvs : List (Text × Text)} (h : ParamsText loose closed kvs t) :
    ParamsText true closed kvs t := by
  induction h with
  | one hparam => exact .one hparam
  | more hparam hgap hne _ ih => exact .more hparam hgap hne ih
  | joined _ hparam _ ih => exact .joined rfl hparam ih

theorem GroupText.loosen {c : Credentials} (h : GroupText loose c t) : GroupText true c t := by
  cases h with
  | bare hscheme => exact .bare hscheme
  | whole hscheme hblanks hne ht => exact .whole hscheme hblanks hne ht
  | params hscheme hblanks hne hparams => exact .params hscheme hblanks hne hparams.loosen

theorem GroupsText.loosen (h : GroupsText loose cs t) : GroupsText true cs t := by
  induction h with
  | last hgroup hgap => exact .last hgroup.loosen hgap
  | more hgroup hgap hcomma _ ih => exact .more hgroup.loosen hgap hcomma ih
  | afterScheme _ hscheme hblanks hne _ halone ih => exact .afterScheme rfl hscheme hblanks hne ih halone
  | afterParams _ hscheme hblanks hne hparams hgap hends _ ih =>
    exact .afterParams rfl hscheme hblanks hne hparams.loosen hgap hends ih

theorem Listed.loosen (h : Listed loose cs t) : Listed true cs t := by
  obtain ⟨gap, rest, hgap, hrest, rfl⟩ := h
  exact ⟨gap, rest, hgap, hrest.loosen, rfl⟩

end Loosen

/-! ## Stored parameters -/

section Stored
variable {kvs : List (Text × Text)}

/-- Parameters that are stored one after the other leave the last one of each key. -/
theorem foldl_insert (kvs done : List (Text × Text)) : kvs.foldl (fun done kv => insert done kv.1 kv.2) done =
    done.filter (fun kv => !kvs.any (·.1 = kv.1)) ++ latest kvs := by
  induction kvs generalizing done with
  | nil =>
    rw [List.foldl_nil, latest, List.append_nil]
    exact (List.filter_eq_self.mpr fun _ _ => rfl).symm
  | cons kv later ih =>
    rw [List.foldl_cons, ih, insert, List.filter_append, List.filter_filter, latest, List.append_assoc]
    have hkept : done.filter (fun x => !later.any (·.1 = x.1) && decide (x.1 ≠ kv.1)) =
        done.filter fun x => !(kv :: later).any (·.1 = x.1) := by
      refine List.filter_congr fun x _ => ?_
      rw [List.any_cons, Bool.not_or, Bool.and_comm, ← decide_not]
      simp only [ne_comm, ne_eq]
    rw [hkept]
    split
    · next hlater => rw [List.filter_cons_of_neg (by rw [hlater]; decide), List.filter_nil, List.nil_append]
    · next hlast => rw [List.filter_cons_of_pos (by rw [Bool.eq_false_iff.mpr hlast]; rfl), List.filter_nil,
        List.singleton_append]

theorem foldl_insert_nil (kvs : List (Text × Text)) :
    kvs.foldl (fun done kv => insert done kv.1 kv.2) [] = latest kvs := by
  rw [foldl_insert, List.filter_nil, List.nil_append]

/-- Looked up is the last one of a key. -/
theorem find?_latest (kvs : List (Text × Text)) (key : Text) :
    (latest kvs).find? (fun kv => kv.1 = key) = kvs.reverse.find? fun kv => kv.1 = key := by
  induction kvs with
  | nil => rfl
  | cons kv later ih =>
    rw [latest, List.reverse_cons, List.find?_append, ← ih]
    split
    · next hlater =>
      by_cases hkey : kv.1 = key
      · subst hkey
        have hfound : ((latest later).find? fun x => x.1 = kv.1).isSome := by
          rw [ih, List.find?_isSome]
          obtain ⟨x, hx, heq⟩ := List.any_eq_true.mp hlater
          exact ⟨x, List.mem_reverse.mpr hx, heq⟩
        obtain ⟨y, hy⟩ := Option.isSome_iff_exists.mp hfound
        rw [hy, Option.some_or]
      · simp [hkey]
    · next hlast =>
      by_cases hkey : kv.1 = key
      · subst hkey
        have hnone : (latest later).find? (fun x => x.1 = kv.1) = none := by
          rw [ih, List.find?_eq_none]
          exact fun x hx heq => hlast (List.any_eq_true.mpr ⟨x, List.mem_reverse.mp hx, heq⟩)
        rw [hnone]
        simp
      · simp [hkey]

theorem latest_of_nodup (h : (kvs.map Prod.fst).Nodup) : latest kvs = kvs := by
  induction kvs with
  | nil => rfl
  | cons kv later ih =>
    obtain ⟨hnew, hlater⟩ := List.nodup_cons.mp h
    rw [latest, if_neg, ih hlater]
    intro hany
    obtain ⟨x, hx, heq⟩ := List.any_eq_true.mp hany
    exact hnew (of_decide_eq_true heq ▸ List.mem_map_of_mem hx)

end Stored

/-! ## Reading values and parameters -/

section Params
variable {loose closed : Bool} {v shown : Text} {kv : Text × Text} {kvs : List (Text × Text)} {r : Bytes}

theorem quotedBytes_escaped (h : Escaped v shown) (r : Bytes) :
    quotedBytes (Utf8.encode shown ++ 34 :: r) = .ok (Utf8.encode v, r) := by
  induction h with
  | nil => rfl
  | plain hc _ ih =>
    rw [Utf8.encode_cons, Utf8.encode_cons, List.append_assoc, quotedBytes_plain (plain_encodeChar hc), ih]
    rfl
  | escaped c _ ih =>
    rw [Utf8.encode_cons, Utf8.encode_cons, Utf8.encode_cons, List.append_assoc, List.append_assoc]
    exact (quotedBytes_backslash c _).trans (by rw [ih]; rfl)

theorem ValueText.opens (h : ValueText closed v shown) : Opens (Utf8.encode shown) := by
  cases h with
  | bare hv => exact hv.opens
  | quoted => exact ⟨34, _, rfl, by decide, by decide⟩

theorem value_text (h : ValueText closed v shown) (hr : closed = true ∨ Stops Ascii.isTokenByte r) :
    value (Utf8.encode shown ++ r) = .ok (v, r) := by
  cases h with
  | bare hv =>
    rw [value, token_encode hv (hr.resolve_left (by decide))]
    · intro s hs
      obtain ⟨b, more, hbytes, hb⟩ := hv.front
      rw [hbytes] at hs
      rw [(List.cons.inj hs).1] at hb
      exact absurd hb (by decide)
  | @quoted _ inner h =>
    have hbytes : Utf8.encode ('"' :: inner ++ ['"']) ++ r = 34 :: (Utf8.encode inner ++ 34 :: r) := by
      rw [List.cons_append, Utf8.encode_cons, Utf8.encode_append, List.append_assoc, List.append_assoc]
      rfl
    rw [hbytes, value, quoted, quotedBytes_escaped h]
    simp only [Utf8.decode?_encode]

/-- A parameter in bytes: a key, an equals sign and a value, and blanks between them. -/
theorem ParamText.split (h : ParamText closed kv shown) :
    ∃ key before after shownValue, IsToken key ∧ IsBlank before ∧ IsBlank after ∧
      ValueText closed kv.2 shownValue ∧ kv.1 = Ascii.lower key ∧ ∀ r, Utf8.encode shown ++ r =
        Utf8.encode key ++ (Utf8.encode before ++ 61 :: (Utf8.encode after ++ (Utf8.encode shownValue ++ r))) := by
  obtain ⟨hkey, hbefore, hafter, hv⟩ := h
  refine ⟨_, _, _, _, hkey, hbefore, hafter, hv, rfl, fun r => ?_⟩
  simp only [Utf8.encode_append, Utf8.encode_cons, List.cons_append, List.append_assoc]
  rfl

theorem ParamText.opens (h : ParamText closed kv shown) : Opens (Utf8.encode shown) := by
  obtain ⟨key, _, _, _, hkey, -, -, -, -, hsplit⟩ := h.split
  have hbytes := hsplit []
  rw [List.append_nil] at hbytes
  rw [hbytes]
  exact hkey.opens.append

theorem startsParam_text (h : ParamText closed kv shown) : startsParam (Utf8.encode shown ++ r) = true := by
  obtain ⟨_, _, _, _, hkey, hbefore, -, -, -, hsplit⟩ := h.split
  rw [hsplit, hkey.startsParam (hbefore.isGap.stops_token (stops_cons (by decide))), skipSpaces,
    dropWhile_run hbefore.all (stops_cons (by decide))]
  rfl

theorem param_text (h : ParamText closed kv shown) (hr : closed = true ∨ Stops Ascii.isTokenByte r) :
    param (Utf8.encode shown ++ r) = .ok (kv, r) := by
  obtain ⟨key, before, after, shownValue, hkey, hbefore, hafter, hv, hlower, hsplit⟩ := h.split
  have hequals : ∀ s, skipSpaces (Utf8.encode before ++ 61 :: s) = 61 :: s := fun s =>
    dropWhile_run hbefore.all (stops_cons (by decide))
  have hvalue : skipSpaces (Utf8.encode after ++ (Utf8.encode shownValue ++ r)) = Utf8.encode shownValue ++ r :=
    dropWhile_run hafter.all hv.opens.append.stops_space
  rw [hsplit, param, token_encode hkey (hbefore.isGap.stops_token (stops_cons (by decide)))]
  simp only [hequals, hvalue, value_text hv hr, Except.map, ← hlower]

/-- A parameter is not taken for a single value. -/
theorem whole?_param (h : ParamText closed kv shown) : whole? (Utf8.encode shown ++ r) = none := by
  obtain ⟨key, before, after, shownValue, hkey, hbefore, hafter, hv, -, hsplit⟩ := h.split
  obtain ⟨b, more, hbytes, hsep, hb⟩ := hv.opens
  have hcomma : b ≠ 44 := by
    rintro rfl
    exact absurd hsep (by decide)
  have hvalue : skipSpaces (Utf8.encode after ++ (Utf8.encode shownValue ++ r)) = b :: (more ++ r) := by
    rw [skipSpaces, dropWhile_run hafter.all hv.opens.append.stops_space, hbytes, List.cons_append]
  rw [hsplit]
  cases hrest : (Utf8.encode key).dropWhile isWholeByte with
  | cons x other =>
    -- The key has a byte that no single value has.
    have hx := hkey.all x ((List.dropWhile_sublist _).subset (hrest ▸ List.mem_cons_self ..))
    have hkept : Opens (x :: other) := opens_of_class hx (by decide) (by decide) (by decide) (by decide)
    have hrun : ∀ s, (Utf8.encode key ++ s).dropWhile isWholeByte = x :: other ++ s := fun s => by
      rw [List.dropWhile_append, hrest]
      rfl
    refine whole?_eq_none (by rw [hrun, hkept.append.skipPadding, hkept.append.skipSpaces, List.cons_append]) ?_
    rintro rfl
    exact absurd hx (by decide)
  | nil =>
    have hrun : ∀ s, (Utf8.encode key ++ s).dropWhile isWholeByte = s.dropWhile isWholeByte := fun s => by
      rw [List.dropWhile_append, hrest]
      rfl
    by_cases hne : before = []
    · -- The key could be a single value, and its equals sign the padding. But then the value comes.
      subst hne
      have hpadding : ∀ s : Bytes, ((61 :: s).dropWhile isWholeByte).dropWhile (· = 61) = s.dropWhile (· = 61) :=
        fun _ => rfl
      have hstop := hafter.isGap.stops (by decide) (by decide) (by decide) (hv.opens.append (r := r)).stops_padding
      refine whole?_eq_none (r := more ++ r) ?_ hcomma
      rw [hrun, Utf8.encode_nil, List.nil_append, hpadding, hstop.dropWhile, hvalue]
    · -- An equals sign after blanks is no padding.
      have hgap := hbefore.isGap.atGap hne (r := 61 :: (Utf8.encode after ++ (Utf8.encode shownValue ++ r)))
      have hstop : Stops isWholeByte _ := hgap.stops (by decide) (by decide) (by decide)
      have hstop' : Stops (fun b : UInt8 => decide (b = 61)) _ := hgap.stops (by decide) (by decide) (by decide)
      refine whole?_eq_none (b := 61) (r := Utf8.encode after ++ (Utf8.encode shownValue ++ r)) ?_ (by decide)
      rw [hrun, hstop.dropWhile, hstop'.dropWhile, skipSpaces, dropWhile_run hbefore.all (stops_cons (by decide))]

theorem paramsFrom_step {done : List (Text × Text)} {s : Bytes} (hstarts : startsParam s = true)
    (hparam : param s = .ok (kv, r)) :
    paramsFrom done s = paramsFrom (insert done kv.1 kv.2) (skipSeparators r) := by
  rw [paramsFrom, if_pos hstarts]
  split
  · next heq => rw [hparam] at heq; cases heq
  · next heq =>
    rw [hparam] at heq
    obtain ⟨rfl, rfl⟩ := Prod.mk.inj (Except.ok.inj heq)
    rfl

theorem paramsFrom_done {done : List (Text × Text)} {s : Bytes} (h : startsParam s = false) :
    paramsFrom done s = .ok (done, s) := by
  rw [paramsFrom, if_neg (Bool.eq_false_iff.mp h)]

/-- Parameters begin with a parameter. -/
theorem ParamsText.first (h : ParamsText loose closed kvs shown) :
    ∃ first kv front rest, ParamText first kv front ∧ shown = front ++ rest := by
  cases h with
  | one hparam => exact ⟨_, _, _, [], hparam, (List.append_nil _).symm⟩
  | more hparam => exact ⟨_, _, _, _, hparam, List.append_assoc ..⟩
  | joined _ hparam => exact ⟨_, _, _, _, hparam, rfl⟩

theorem ParamsText.opens (h : ParamsText loose closed kvs shown) : Opens (Utf8.encode shown) := by
  obtain ⟨_, _, _, _, hparam, rfl⟩ := h.first
  rw [Utf8.encode_append]
  exact hparam.opens.append

theorem whole?_params (h : ParamsText loose closed kvs shown) : whole? (Utf8.encode shown ++ r) = none := by
  obtain ⟨_, _, _, _, hparam, rfl⟩ := h.first
  rw [Utf8.encode_append, List.append_assoc]
  exact whole?_param hparam

/-- The loop takes all parameters that are shown, and stops where no other begins. -/
theorem paramsFrom_text (h : ParamsText loose closed kvs shown) (done : List (Text × Text))
    (hr : closed = true ∨ Stops Ascii.isTokenByte r) (hnext : startsParam (skipSeparators r) = false) :
    paramsFrom done (Utf8.encode shown ++ r) =
      .ok (kvs.foldl (fun done kv => insert done kv.1 kv.2) done, skipSeparators r) := by
  induction h generalizing done with
  | one hparam => rw [paramsFrom_step (startsParam_text hparam) (param_text hparam hr), paramsFrom_done hnext]; rfl
  | more hparam hgap hne hrest ih =>
    rw [Utf8.encode_append, Utf8.encode_append, List.append_assoc, List.append_assoc,
      paramsFrom_step (startsParam_text hparam) (param_text hparam (.inr (hgap.atGap hne).stops_token)),
      hgap.skipSeparators, hrest.opens.append.skipSeparators, ih _ hr]
    rfl
  | joined _ hparam hrest ih =>
    rw [Utf8.encode_append, List.append_assoc, paramsFrom_step (startsParam_text hparam) (param_text hparam (.inl rfl)),
      hrest.opens.append.skipSeparators, ih _ hr]
    rfl

end Params

/-! ## Reading groups -/

section Groups
variable {loose closed : Bool} {c : Credentials} {cs : List Credentials} {scheme blanks shown t : Text} {r : Bytes}

/-- What may follow a scheme: its end, and no equals sign, which would make it a key. -/
structure AfterScheme (r : Bytes) : Prop where
  stops : Stops Ascii.isTokenByte r
  no_equals : (skipSpaces r).head? ≠ some 61

theorem Ends.afterScheme (hr : Ends r) : AfterScheme r :=
  ⟨hr.atGap.stops_token, fun heq => absurd (hr 61 heq) (by decide)⟩

theorem IsBlank.afterScheme (hblanks : IsBlank blanks) (hne : blanks ≠ []) (hr : Opens r) :
    AfterScheme (Utf8.encode blanks ++ r) := by
  refine ⟨(hblanks.isGap.atGap hne).stops_token, ?_⟩
  rw [skipSpaces, dropWhile_run hblanks.all hr.stops_space]
  obtain ⟨b, more, rfl, -, hb⟩ := hr
  exact fun heq => hb (Option.some.inj heq)

/-- A text begins with a scheme, and with nothing that looks like a parameter. -/
def Begins (s : Bytes) : Prop := ∃ scheme rest, s = Utf8.encode scheme ++ rest ∧ IsToken scheme ∧ AfterScheme rest

theorem Begins.opens {s : Bytes} (h : Begins s) : Opens s := by
  obtain ⟨_, _, rfl, hscheme, -⟩ := h
  exact hscheme.opens.append

theorem Begins.startsParam {s : Bytes} (h : Begins s) : Credentials.startsParam s = false := by
  obtain ⟨_, _, rfl, hscheme, hrest⟩ := h
  rw [hscheme.startsParam hrest.stops]
  exact decide_eq_false hrest.no_equals

theorem begins_blanks (hscheme : IsToken scheme) (hblanks : IsBlank blanks) (hne : blanks ≠ []) (hr : Opens r) :
    Begins (Utf8.encode scheme ++ (Utf8.encode blanks ++ r)) :=
  ⟨scheme, _, rfl, hscheme, hblanks.afterScheme hne hr⟩

theorem GroupText.begins (h : GroupText loose c shown) (hr : Ends r) : Begins (Utf8.encode shown ++ r) := by
  cases h with
  | bare hscheme => exact ⟨_, r, rfl, hscheme, hr.afterScheme⟩
  | whole hscheme hblanks hne ht =>
    rw [Utf8.encode_append, Utf8.encode_append, List.append_assoc, List.append_assoc]
    exact begins_blanks hscheme hblanks hne ht.opens.append
  | params hscheme hblanks hne hparams =>
    rw [Utf8.encode_append, Utf8.encode_append, List.append_assoc, List.append_assoc]
    exact begins_blanks hscheme hblanks hne hparams.opens.append

theorem GroupsText.begins (h : GroupsText loose cs t) : Begins (Utf8.encode t) := by
  induction h with
  | last hgroup hgap =>
    rw [Utf8.encode_append]
    exact hgroup.begins hgap.ends
  | more hgroup hgap hcomma =>
    rw [Utf8.encode_append, Utf8.encode_append, List.append_assoc]
    exact hgroup.begins (hgap.ends_append (.inr hcomma))
  | afterScheme _ hscheme hblanks hne _ _ ih =>
    rw [Utf8.encode_append, Utf8.encode_append, List.append_assoc]
    exact begins_blanks hscheme hblanks hne ih.opens
  | afterParams _ hscheme hblanks hne hparams =>
    simp only [Utf8.encode_append, List.append_assoc]
    exact begins_blanks hscheme hblanks hne hparams.opens.append

/-- Reading a group leaves what follows it, but for a gap. -/
def ReadsAs (s : Bytes) (c : Credentials) (r : Bytes) : Prop :=
  ∃ rest, group s = .ok (c, rest) ∧ skipSeparators rest = skipSeparators r

theorem group_bare (hscheme : IsToken scheme) (hr : Ends r) : ReadsAs (Utf8.encode scheme ++ r) ⟨scheme, []⟩ r := by
  rw [ReadsAs, group, token_encode hscheme hr.atGap.stops_token]
  simp only
  split
  · -- No blank follows, so it is the comma or the end.
    next hlength =>
    have hnone : skipSpaces r = r := (List.dropWhile_sublist _).eq_of_length hlength
    cases r with
    | nil => exact ⟨[], rfl, rfl⟩
    | cons b more =>
      obtain rfl := hr b (by rw [hnone]; rfl)
      exact ⟨_, rfl, rfl⟩
  · -- Blanks follow and the comma or the end after them, which is an empty list of parameters.
    have hstop : Stops Ascii.isTokenByte (skipSpaces r) := fun b hb => by rw [hr b hb]; decide
    have hparams : startsParam (skipSpaces r) = false := by
      simp only [startsParam, hstop.takeWhile]
      rfl
    rw [whole?_of_ends hr, paramsFrom_done hparams]
    exact ⟨_, rfl, skipSeparators_dropWhile fun _ => isSeparator_of_isSpace⟩

/-- After blanks the group goes on with a single value or with parameters. -/
theorem group_blanks {s : Bytes} (hscheme : IsToken scheme) (hblanks : IsBlank blanks)
    (hne : blanks ≠ []) (hs : Stops isSpace s) : group (Utf8.encode scheme ++ (Utf8.encode blanks ++ s)) =
      match whole? s with
      | some (t, r) => .ok (⟨scheme, [(wholeKey, t)]⟩, r)
      | none => (paramsFrom [] s).map fun (params, r) => (⟨scheme, params⟩, r) := by
  have hskip : skipSpaces (Utf8.encode blanks ++ s) = s := dropWhile_run hblanks.all hs
  have hlength : s.length ≠ (Utf8.encode blanks ++ s).length := by
    have := List.length_pos_iff.mpr (Utf8.encode_ne_nil hne)
    rw [List.length_append]
    omega
  rw [group, token_encode hscheme (hblanks.isGap.atGap hne).stops_token]
  cases hwhole : whole? s with
  | none => simp only [hskip, if_neg hlength, hwhole]
  | some found => simp only [hskip, if_neg hlength, hwhole]

theorem group_whole (hscheme : IsToken scheme) (hblanks : IsBlank blanks) (hne : blanks ≠ []) (ht : IsWhole t)
    (hr : Ends r) :
    ReadsAs (Utf8.encode scheme ++ (Utf8.encode blanks ++ (Utf8.encode t ++ r))) ⟨scheme, [(wholeKey, t)]⟩ r := by
  rw [ReadsAs, group_blanks hscheme hblanks hne ht.opens.append.stops_space, whole?_encode ht hr]
  exact ⟨r, rfl, rfl⟩

theorem group_params {kvs : List (Text × Text)} (hscheme : IsToken scheme) (hblanks : IsBlank blanks)
    (hne : blanks ≠ []) (hparams : ParamsText loose closed kvs shown) (hr : closed = true ∨ Stops Ascii.isTokenByte r)
    (hnext : startsParam (skipSeparators r) = false) :
    ReadsAs (Utf8.encode scheme ++ (Utf8.encode blanks ++ (Utf8.encode shown ++ r))) ⟨scheme, latest kvs⟩ r := by
  rw [ReadsAs, group_blanks hscheme hblanks hne hparams.opens.append.stops_space, whole?_params hparams,
    paramsFrom_text hparams [] hr hnext, foldl_insert_nil]
  exact ⟨_, rfl, skipSeparators_dropWhile fun _ => id⟩

/-- What follows a scheme and blanks is left to the next group, if it is no single value and no parameter. -/
theorem group_scheme (hscheme : IsToken scheme) (hblanks : IsBlank blanks) (hne : blanks ≠ []) (hr : Begins r)
    (hwhole : whole? r = none) : ReadsAs (Utf8.encode scheme ++ (Utf8.encode blanks ++ r)) ⟨scheme, []⟩ r := by
  rw [ReadsAs, group_blanks hscheme hblanks hne hr.opens.stops_space, hwhole, paramsFrom_done hr.startsParam]
  exact ⟨r, rfl, rfl⟩

/-- A group is read as it is shown, and nothing of what follows but a gap goes with it. -/
theorem group_text (h : GroupText loose c shown) (hr : Ends r) (hnext : startsParam (skipSeparators r) = false) :
    ReadsAs (Utf8.encode shown ++ r) c r := by
  cases h with
  | bare hscheme => exact group_bare hscheme hr
  | whole hscheme hblanks hne ht =>
    rw [Utf8.encode_append, Utf8.encode_append, List.append_assoc, List.append_assoc]
    exact group_whole hscheme hblanks hne ht hr
  | params hscheme hblanks hne hparams =>
    rw [Utf8.encode_append, Utf8.encode_append, List.append_assoc, List.append_assoc]
    exact group_params hscheme hblanks hne hparams (.inr hr.atGap.stops_token) hnext

/-! ## Reading header values -/

/-- What is read does not depend on the gap in front. -/
theorem groups_congr {s s' : Bytes} (h : skipSeparators s = skipSeparators s') : groups s = groups s' := by
  rw [groups, groups, h]

theorem groups_nil {s : Bytes} (h : skipSeparators s = []) : groups s = .ok [] := by rw [groups, if_pos h]

theorem groups_step {s : Bytes} (hs : Opens s) (h : ReadsAs s c r) : groups s = (groups r).map (c :: ·) := by
  obtain ⟨rest, hgroup, hskip⟩ := h
  have hne : s ≠ [] := by
    obtain ⟨b, more, rfl, -⟩ := hs
    exact List.cons_ne_nil _ _
  rw [groups, hs.skipSeparators, if_neg hne]
  split
  · next heq => rw [hgroup] at heq; cases heq
  · next heq =>
    rw [hgroup] at heq
    obtain ⟨rfl, rfl⟩ := Prod.mk.inj (Except.ok.inj heq)
    rw [groups_congr hskip]

/-- A list is read group by group: what follows a group begins neither with a parameter of it nor with its single
value. -/
theorem groups_text (h : GroupsText loose cs t) : groups (Utf8.encode t) = .ok cs := by
  have hopens := h.begins.opens
  induction h with
  | @last c shown gap hgroup hgap =>
    have hempty : skipSeparators (Utf8.encode gap) = [] := by
      rw [← List.append_nil (Utf8.encode gap), hgap.skipSeparators]
      rfl
    rw [Utf8.encode_append] at hopens ⊢
    rw [groups_step hopens (group_text hgroup hgap.ends (by rw [hempty]; rfl)), groups_nil hempty]
    rfl
  | @more c cs shown gap rest hgroup hgap hcomma hrest ih =>
    have hskip : skipSeparators (Utf8.encode gap ++ Utf8.encode rest) = Utf8.encode rest := by
      rw [hgap.skipSeparators, hrest.begins.opens.skipSeparators]
    have hnext : startsParam (skipSeparators (Utf8.encode gap ++ Utf8.encode rest)) = false := by
      rw [hskip]
      exact hrest.begins.startsParam
    rw [Utf8.encode_append, Utf8.encode_append, List.append_assoc] at hopens ⊢
    rw [groups_step hopens (group_text hgroup (hgap.ends_append (.inr hcomma)) hnext),
      groups_congr hgap.skipSeparators, ih hrest.begins.opens]
    rfl
  | @afterScheme scheme blanks rest cs _ hscheme hblanks hne hrest halone ih =>
    have hwhole : whole? (Utf8.encode rest) = none := by
      cases hfound : whole? (Utf8.encode rest) with
      | none => rfl
      | some found =>
        obtain ⟨more, hsplit, hr, ht, hends⟩ := exists_whole hfound
        exact absurd ⟨_, more, hsplit, ht, hr ▸ hends⟩ halone
    rw [Utf8.encode_append, Utf8.encode_append, List.append_assoc] at hopens ⊢
    rw [groups_step hopens (group_scheme hscheme hblanks hne hrest.begins hwhole), ih hrest.begins.opens]
    rfl
  | @afterParams closed scheme blanks shown gap rest kvs cs _ hscheme hblanks hne hparams hgap hends hrest ih =>
    have hskip : skipSeparators (Utf8.encode gap ++ Utf8.encode rest) = Utf8.encode rest := by
      rw [hgap.isGap.skipSeparators, hrest.begins.opens.skipSeparators]
    have hnext : startsParam (skipSeparators (Utf8.encode gap ++ Utf8.encode rest)) = false := by
      rw [hskip]
      exact hrest.begins.startsParam
    have hr : closed = true ∨ Stops Ascii.isTokenByte (Utf8.encode gap ++ Utf8.encode rest) :=
      hends.imp_right fun hgapne => (hgap.isGap.atGap hgapne).stops_token
    simp only [Utf8.encode_append, List.append_assoc] at hopens ⊢
    rw [groups_step hopens (group_params hscheme hblanks hne hparams hr hnext),
      groups_congr hgap.isGap.skipSeparators, ih hrest.begins.opens]
    rfl

/-- What the grammar shows is read. -/
theorem parse_listed (h : Listed loose cs t) : parse (Utf8.encode t) = .ok cs := by
  obtain ⟨gap, rest, hgap, hrest, rfl⟩ := h
  have hgroups : groups (Utf8.encode (gap ++ rest)) = .ok cs := by
    rw [Utf8.encode_append, groups_congr hgap.skipSeparators]
    exact groups_text hrest
  rw [parse, hgroups]
  cases hrest with
  | last => rfl
  | more => rfl
  | afterScheme => rfl
  | afterParams => rfl

end Groups
end EntryServer.Credentials
