import EntryServer.Auth.Challenge
import EntryServer.Proofs.Credentials.Grammar

/-! # Writing credentials

The same credentials can be written in many ways: a value that is a token with or without quotes, the elements with
gaps of any size between them. Each of them is a text of the grammar, so it is read back. -/
namespace EntryServer.Credentials
set_option autoImplicit false

/-! ## Ways of writing -/

/-- Every value can be written in quotes, a token also without. -/
inductive WrittenValue : Text → Text → Prop
  | bare {v : Text} (hv : IsToken v) : WrittenValue v v
  | quoted (v : Text) : WrittenValue v ('"' :: Auth.escape v ++ ['"'])

inductive WrittenParam : Text × Text → Text → Prop
  | intro {key v shown : Text} (hv : WrittenValue v shown) : WrittenParam (key, v) (key ++ '=' :: shown)

/-- The parameters of a map in the order in which they are listed, which may be any. -/
inductive WrittenParams : List (Text × Text) → Text → Prop
  | one {kv : Text × Text} {shown : Text} (hparam : WrittenParam kv shown) : WrittenParams [kv] shown
  | more {kv : Text × Text} {params : List (Text × Text)} {shown gap rest : Text} (hparam : WrittenParam kv shown)
    (hgap : IsGap gap) (hne : gap ≠ []) (hrest : WrittenParams params rest) :
    WrittenParams (kv :: params) (shown ++ gap ++ rest)

inductive WrittenGroup : Credentials → Text → Prop
  | bare (scheme : Text) : WrittenGroup ⟨scheme, []⟩ scheme
  | whole {scheme blanks t : Text} (hblanks : IsBlank blanks) (hne : blanks ≠ []) (ht : IsWhole t) :
    WrittenGroup ⟨scheme, [(wholeKey, t)]⟩ (scheme ++ blanks ++ t)
  | params {scheme blanks shown : Text} {params : List (Text × Text)} (hblanks : IsBlank blanks) (hne : blanks ≠ [])
    (hparams : WrittenParams params shown) : WrittenGroup ⟨scheme, params⟩ (scheme ++ blanks ++ shown)

/-- Groups with what stands between them, and after the last one. -/
inductive WrittenGroups : List Credentials → Text → Prop
  | last {c : Credentials} {shown gap : Text} (hgroup : WrittenGroup c shown) (hgap : IsGap gap) :
    WrittenGroups [c] (shown ++ gap)
  | more {c : Credentials} {cs : List Credentials} {shown gap rest : Text} (hgroup : WrittenGroup c shown)
    (hgap : IsGap gap) (hcomma : ',' ∈ gap) (hrest : WrittenGroups cs rest) :
    WrittenGroups (c :: cs) (shown ++ gap ++ rest)

/-- A header value that shows a list of credentials. -/
def Written (cs : List Credentials) (t : Text) : Prop :=
  ∃ gap rest, IsGap gap ∧ WrittenGroups cs rest ∧ t = gap ++ rest

/-- Credentials that can be written in some way: their parameters, if there are any, stand under different keys in
lowercase. -/
structure Presentable (c : Credentials) : Prop where
  scheme : IsToken c.scheme
  keys : ∀ kv ∈ c.params, IsToken kv.1 ∧ Ascii.lower kv.1 = kv.1
  distinct : (c.params.map Prod.fst).Nodup

/-! ## Written credentials are listed ones -/

section Listed
variable {v shown t : Text} {kv : Text × Text} {params : List (Text × Text)} {c : Credentials} {cs : List Credentials}

theorem escaped_escape (t : Text) : Escaped t (Auth.escape t) := by
  induction t with
  | nil => exact .nil
  | cons c t ih =>
    have hcons : Auth.escape (c :: t) = (if c = '\\' ∨ c = '"' then ['\\', c] else [c]) ++ Auth.escape t :=
      List.flatMap_cons
    rw [hcons]
    split
    · exact .escaped c ih
    · next hplain => exact .plain hplain ih

theorem WrittenValue.text (h : WrittenValue v shown) : ∃ closed, ValueText closed v shown := by
  cases h with
  | bare hv => exact ⟨false, .bare hv⟩
  | quoted => exact ⟨true, .quoted (escaped_escape v)⟩

theorem WrittenParam.text (h : WrittenParam kv shown) (hkey : IsToken kv.1) (hlower : Ascii.lower kv.1 = kv.1) :
    ∃ closed, ParamText closed kv shown := by
  obtain ⟨hv⟩ := h
  obtain ⟨closed, hvalue⟩ := hv.text
  have hparam := ParamText.intro hkey (by decide : IsBlank []) (by decide : IsBlank []) hvalue
  rw [hlower, List.append_nil, List.append_assoc] at hparam
  exact ⟨closed, hparam⟩

theorem WrittenParams.text (h : WrittenParams params shown)
    (hkeys : ∀ kv ∈ params, IsToken kv.1 ∧ Ascii.lower kv.1 = kv.1) :
    ∃ closed, ParamsText false closed params shown := by
  induction h with
  | one hparam =>
    obtain ⟨hkey, hlower⟩ := hkeys _ (List.mem_cons_self ..)
    obtain ⟨closed, hparam⟩ := hparam.text hkey hlower
    exact ⟨closed, .one hparam⟩
  | more hparam hgap hne _ ih =>
    obtain ⟨hkey, hlower⟩ := hkeys _ (List.mem_cons_self ..)
    obtain ⟨_, hparam⟩ := hparam.text hkey hlower
    obtain ⟨closed, hrest⟩ := ih fun x hx => hkeys x (List.mem_cons_of_mem _ hx)
    exact ⟨closed, .more hparam hgap hne hrest⟩

theorem WrittenGroup.text (h : WrittenGroup c shown) (hc : Presentable c) : GroupText false c shown := by
  cases h with
  | bare => exact .bare hc.scheme
  | whole hblanks hne ht => exact .whole hc.scheme hblanks hne ht
  | params hblanks hne hparams =>
    obtain ⟨_, hparams⟩ := hparams.text hc.keys
    have hgroup := GroupText.params hc.scheme hblanks hne hparams
    rwa [latest_of_nodup hc.distinct] at hgroup

theorem WrittenGroups.text (h : WrittenGroups cs t) (hcs : ∀ c ∈ cs, Presentable c) : GroupsText false cs t := by
  induction h with
  | last hgroup hgap => exact .last (hgroup.text (hcs _ (List.mem_cons_self ..))) hgap
  | more hgroup hgap hcomma _ ih =>
    exact .more (hgroup.text (hcs _ (List.mem_cons_self ..))) hgap hcomma
      (ih fun x hx => hcs x (List.mem_cons_of_mem _ hx))

theorem Written.listed (h : Written cs t) (hcs : ∀ c ∈ cs, Presentable c) : Listed false cs t := by
  obtain ⟨gap, rest, hgap, hrest, rfl⟩ := h
  exact ⟨gap, rest, hgap, hrest.text hcs, rfl⟩

theorem parse_written (h : Written cs t) (hcs : ∀ c ∈ cs, Presentable c) : parse (Utf8.encode t) = .ok cs :=
  parse_listed (h.listed hcs)

end Listed
end EntryServer.Credentials
