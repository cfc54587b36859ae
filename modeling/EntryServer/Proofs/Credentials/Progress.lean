import EntryServer.Proofs.Credentials.Accepted
import Mathlib.Data.List.Chain

/-! # Progress of the reader

Each round of the loop over the groups, and each round of the loop over the parameters of a group, takes at least one
byte from the front of what is left. So a loop has no more rounds than there are bytes, and the place of a fault is in
the value. A parameter is looked for before it is read, with the same tokens and blanks, and escapes take whole
characters, so some faults never arise. -/
namespace EntryServer.Credentials
set_option autoImplicit false

/-! ## What is left -/

/-- What is left stands at the end of what there was, whether something was read or a fault arose. -/
def Leaves {α : Type} (s : Bytes) : Except Fault (α × Bytes) → Prop
  | .ok (_, r) => r <:+ s
  | .error f => f.rest <:+ s

section Leaves
variable {α β : Type} {s s' r : Bytes} {x : Except Fault (α × Bytes)} {t : Text}

theorem Leaves.trans (h : Leaves s x) (hs : s <:+ s') : Leaves s' x := by
  cases x with
  | error f => exact List.IsSuffix.trans h hs
  | ok found => exact List.IsSuffix.trans h hs

theorem Leaves.map (h : Leaves s x) (f : α → β) : Leaves s (x.map fun (a, r) => (f a, r)) := by
  cases x with
  | error f => exact h
  | ok found => exact h

theorem error_of_map {g : α → β} {x : Except Fault α} {f : Fault} (h : x.map g = .error f) : x = .error f := by
  cases x with
  | error f' => exact congrArg Except.error (Except.error.inj h)
  | ok a => cases h

theorem skipSpaces_suffix (s : Bytes) : skipSpaces s <:+ s := List.dropWhile_suffix _

theorem skipSeparators_suffix (s : Bytes) : skipSeparators s <:+ s := List.dropWhile_suffix _

theorem token_suffix (s : Bytes) : (token s).2 <:+ s := by
  rw [token]
  split
  · exact List.suffix_rfl
  · exact List.dropWhile_suffix _

theorem leaves_quotedBytes (s : Bytes) : Leaves s (quotedBytes s) := by
  fun_induction quotedBytes s with
  | case1 => exact List.suffix_rfl
  | case2 r => exact List.suffix_cons ..
  | case3 => exact List.nil_suffix
  | case4 b r ih => exact (ih.trans ((List.suffix_cons ..).trans (List.suffix_cons ..))).map (b :: ·)
  | case5 b r _ _ _ ih => exact (ih.trans (List.suffix_cons ..)).map (b :: ·)

theorem leaves_quoted (s : Bytes) : Leaves s (quoted s) := by
  have hread := leaves_quotedBytes s
  rw [quoted]
  split
  · next heq =>
    rw [heq] at hread
    exact hread
  · next heq =>
    rw [heq] at hread
    split
    · exact hread
    · exact hread

theorem leaves_value (s : Bytes) : Leaves s (value s) := by
  unfold value
  split
  · next r => exact (leaves_quoted r).trans (List.suffix_cons ..)
  · have hrest := token_suffix s
    split
    · next heq =>
      rw [heq] at hrest
      exact hrest
    · next heq =>
      rw [heq] at hrest
      exact hrest

theorem leaves_param (s : Bytes) : Leaves s (param s) := by
  have hrest := token_suffix s
  unfold param
  split
  · next heq =>
    rw [heq] at hrest
    exact hrest
  · next key r heq =>
    rw [heq] at hrest
    have hblanks := (skipSpaces_suffix r).trans hrest
    split
    · next more hequals =>
      rw [hequals] at hblanks
      have hmore := ((skipSpaces_suffix more).trans (List.suffix_cons ..)).trans hblanks
      exact ((leaves_value _).trans hmore).map fun v => (Ascii.lower key, v)
    · exact hblanks

theorem leaves_paramsFrom (done : List (Text × Text)) (s : Bytes) : Leaves s (paramsFrom done s) := by
  fun_induction paramsFrom done s with
  | case1 done s _ f hparam =>
    have hrest := leaves_param s
    rw [hparam] at hrest
    exact hrest
  | case2 done s _ key v r hparam ih =>
    have hrest := leaves_param s
    rw [hparam] at hrest
    exact ih.trans ((skipSeparators_suffix r).trans hrest)
  | case3 => exact List.suffix_rfl

theorem whole?_suffix (h : whole? s = some (t, r)) : r <:+ s := by
  have hrest : (s.dropWhile isWholeByte).dropWhile (· = 61) <:+ s :=
    (List.dropWhile_suffix _).trans (List.dropWhile_suffix _)
  unfold whole? at h
  simp only at h
  split at h
  · cases h
  · split at h
    · obtain ⟨_, _, heq⟩ := Option.map_eq_some_iff.mp h
      exact (Prod.mk.inj heq).2 ▸ hrest
    · obtain ⟨_, _, heq⟩ := Option.map_eq_some_iff.mp h
      exact (Prod.mk.inj heq).2 ▸ hrest
    · cases h

theorem leaves_group (s : Bytes) : Leaves s (group s) := by
  have hrest := token_suffix s
  unfold group
  split
  · next heq =>
    rw [heq] at hrest
    exact hrest
  · next scheme r heq =>
    rw [heq] at hrest
    have hblanks := (skipSpaces_suffix r).trans hrest
    split
    · split
      · exact hrest
      · exact hrest
      · exact hrest
    · split
      · next hwhole => exact (whole?_suffix hwhole).trans hblanks
      · exact ((leaves_paramsFrom [] _).trans hblanks).map fun params => (⟨scheme, params⟩ : Credentials)

theorem rest_of_groups {f : Fault} (h : groups s = .error f) : f.rest <:+ s := by
  fun_induction groups s generalizing f with
  | case1 => cases h
  | case2 s _ f' hgroup =>
    obtain rfl := Except.error.inj h
    have hrest := leaves_group (skipSeparators s)
    rw [hgroup] at hrest
    exact hrest.trans (skipSeparators_suffix s)
  | case3 s _ c r hgroup ih =>
    have hrest := leaves_group (skipSeparators s)
    rw [hgroup] at hrest
    exact (ih (error_of_map h)).trans (hrest.trans (skipSeparators_suffix s))

theorem rest_of_parse {f : Fault} (h : parse s = .error f) : f.rest <:+ s := by
  rw [parse] at h
  split at h
  · next hgroups =>
    obtain rfl := Except.error.inj h
    exact rest_of_groups hgroups
  · obtain rfl := Except.error.inj h
    exact List.nil_suffix
  · cases h

end Leaves

/-! ## Rounds -/

/-- A round of the loop over a value: behind the separators a group is read. -/
def GroupRound (s r : Bytes) : Prop := skipSeparators s ≠ [] ∧ ∃ c, group (skipSeparators s) = .ok (c, r)

/-- A round of the loop over the parameters of a group: one is seen and read, with the separators behind it. -/
def ParamRound (s r : Bytes) : Prop :=
  startsParam s = true ∧ ∃ kv rest, param s = .ok (kv, rest) ∧ r = skipSeparators rest

section Rounds
variable {s r : Bytes}

theorem GroupRound.suffix (h : GroupRound s r) : r <:+ s := by
  obtain ⟨-, c, hgroup⟩ := h
  have hrest := leaves_group (skipSeparators s)
  rw [hgroup] at hrest
  exact hrest.trans (skipSeparators_suffix s)

theorem GroupRound.length_lt (h : GroupRound s r) : r.length < s.length := by
  obtain ⟨-, c, hgroup⟩ := h
  exact Nat.lt_of_lt_of_le (length_group_lt hgroup) (length_skipSeparators_le s)

theorem ParamRound.suffix (h : ParamRound s r) : r <:+ s := by
  obtain ⟨-, kv, rest, hparam, rfl⟩ := h
  have hrest := leaves_param s
  rw [hparam] at hrest
  exact (skipSeparators_suffix rest).trans hrest

theorem ParamRound.length_lt (h : ParamRound s r) : r.length < s.length := by
  obtain ⟨-, kv, rest, hparam, rfl⟩ := h
  exact Nat.lt_of_le_of_lt (length_skipSeparators_le rest) (length_param_lt hparam)

/-- Rounds that take something each are no more than there are bytes. -/
theorem length_rounds_le {round : Bytes → Bytes → Prop} (hround : ∀ s r, round s r → r.length < s.length)
    {rounds : List Bytes} (h : (s :: rounds).IsChain round) : rounds.length ≤ s.length := by
  induction rounds generalizing s with
  | nil => exact Nat.zero_le _
  | cons r rounds ih =>
    obtain ⟨hfirst, hmore⟩ := List.isChain_cons_cons.mp h
    exact Nat.lt_of_le_of_lt (ih hmore) (hround s r hfirst)

/-- Each of the credentials that are read takes a round. -/
theorem rounds_of_groups {cs : List Credentials} (h : groups s = .ok cs) :
    ∃ rounds, (s :: rounds).IsChain GroupRound ∧ rounds.length = cs.length := by
  fun_induction groups s generalizing cs with
  | case1 =>
    obtain rfl := Except.ok.inj h
    exact ⟨[], List.isChain_singleton _, rfl⟩
  | case2 => cases h
  | case3 s hopen c r hgroup ih =>
    cases hmore : groups r with
    | error f =>
      rw [hmore] at h
      cases h
    | ok more =>
      rw [hmore] at h
      obtain rfl := Except.ok.inj h
      obtain ⟨rounds, hrounds, hlength⟩ := ih hmore
      have hfirst : GroupRound s r := ⟨hopen, c, hgroup⟩
      exact ⟨r :: rounds, List.isChain_cons_cons.mpr ⟨hfirst, hrounds⟩, by rw [List.length_cons, hlength]; rfl⟩

end Rounds

/-! ## Tokens are text -/

section Tokens
variable {s : Bytes}

/-- A run of a class of ASCII bytes is a text. -/
theorem exists_text_of_run {p : UInt8 → Bool} (hp : ∀ b, p b = true → b.toNat < 0x80) (s : Bytes) :
    ∃ t, s.takeWhile p = Utf8.encode t :=
  Utf8.exists_text_of_ascii fun b hb => hp b (List.all_eq_true.mp List.all_takeWhile b hb)

/-- No token is dropped that stands there. -/
theorem token_of_run (h : s.takeWhile Ascii.isTokenByte ≠ []) :
    ∃ word, s.takeWhile Ascii.isTokenByte = Utf8.encode word ∧
      token s = (some word, s.dropWhile Ascii.isTokenByte) := by
  obtain ⟨word, hword⟩ := exists_text_of_run ascii_of_isTokenByte s
  refine ⟨word, hword, ?_⟩
  rw [token]
  simp only [if_neg h]
  rw [hword, Utf8.decode?_encode]

/-- A single value is only passed over where there is none, or more than one in the group. -/
theorem whole?_none (h : whole? s = none) :
    s.takeWhile isWholeByte = [] ∨ ¬ Ends ((s.dropWhile isWholeByte).dropWhile (· = 61)) := by
  refine or_iff_not_imp_left.mpr fun hrun hends => ?_
  obtain ⟨word, hword⟩ := exists_text_of_run ascii_of_isWholeByte s
  obtain ⟨padding, hpadding⟩ := exists_text_of_run (p := fun b => decide (b = 61))
    (fun b hb => by rw [of_decide_eq_true hb]; decide) (s.dropWhile isWholeByte)
  simp only [whole?, if_neg hrun] at h
  rw [hword, hpadding, ← Utf8.encode_append, Utf8.decode?_encode] at h
  split at h
  · cases h
  · cases h
  · next hnil hcomma =>
    cases hskip : skipSpaces ((s.dropWhile isWholeByte).dropWhile (· = 61)) with
    | nil => exact hnil hskip
    | cons b more =>
      obtain rfl := hends b (by rw [hskip]; rfl)
      exact hcomma more hskip

end Tokens

/-! ## Faults that never arise -/

/-- The faults that a reader is ready for and that no text has. -/
def deadReasons : List Reason := [.expectedName, .expectedEquals, .quotedNotText]

section Faults
variable {s : Text} {f : Fault}

theorem reason_of_quotedBytes {bytes : Bytes} (h : quotedBytes bytes = .error f) : f.reason ∉ deadReasons := by
  fun_induction quotedBytes bytes with
  | case1 =>
    obtain rfl := Except.error.inj h
    decide
  | case2 => cases h
  | case3 =>
    obtain rfl := Except.error.inj h
    decide
  | case4 b r ih => exact ih (error_of_map h)
  | case5 b r _ _ _ ih => exact ih (error_of_map h)

/-- What stands in quotes is text again when the escapes are gone. -/
theorem reason_of_quoted (h : quoted (Utf8.encode s) = .error f) : f.reason ∉ deadReasons := by
  rw [quoted] at h
  split at h
  · next hread =>
    obtain rfl := Except.error.inj h
    exact reason_of_quotedBytes hread
  · next bs r hread =>
    obtain ⟨v, shown, rest, -, rfl, -⟩ := exists_quotedBytes hread
    rw [Utf8.decode?_encode] at h
    cases h

theorem reason_of_value (h : value (Utf8.encode s) = .error f) : f.reason ∉ deadReasons := by
  unfold value at h
  split at h
  · next hquote =>
    obtain ⟨inner, -, rfl⟩ := Utf8.exists_of_encode_ascii (c := '"') (by decide) hquote
    exact reason_of_quoted h
  · split at h
    · cases h
    · obtain rfl := Except.error.inj h
      show Reason.expectedValue ∉ deadReasons
      decide

/-- Where a parameter is seen, its key and its equals sign are read. -/
theorem param_of_startsParam {bytes : Bytes} (h : startsParam bytes = true) :
    ∃ word r more, token bytes = (some word, r) ∧ skipSpaces r = 61 :: more ∧
      param bytes = (value (skipSpaces more)).map fun (v, rest) => ((Ascii.lower word, v), rest) := by
  rw [startsParam, Bool.and_eq_true, decide_eq_true_eq, decide_eq_true_eq] at h
  obtain ⟨word, -, htoken⟩ := token_of_run h.1
  obtain ⟨more, hequals⟩ := List.head?_eq_some_iff.mp h.2
  refine ⟨word, _, more, htoken, hequals, ?_⟩
  rw [param, htoken]
  simp only [hequals]

theorem reason_of_param (hstarts : startsParam (Utf8.encode s) = true) (h : param (Utf8.encode s) = .error f) :
    f.reason ∉ deadReasons := by
  obtain ⟨word, r, more, htoken, hequals, hparam⟩ := param_of_startsParam hstarts
  obtain ⟨rest, -, rfl, -⟩ := exists_token htoken
  obtain ⟨before, rest, -, -, -, hskip⟩ := exists_blanks rest
  rw [hskip] at hequals
  obtain ⟨rest, -, rfl⟩ := Utf8.exists_of_encode_ascii (c := '=') (by decide) hequals
  obtain ⟨after, rest, -, -, -, hskip⟩ := exists_blanks rest
  rw [hparam, hskip] at h
  exact reason_of_value (error_of_map h)

theorem reason_of_paramsFrom {done : List (Text × Text)} {bytes : Bytes} (h : paramsFrom done bytes = .error f)
    (hs : bytes = Utf8.encode s) : f.reason ∉ deadReasons := by
  fun_induction paramsFrom done bytes generalizing s with
  | case1 done bytes hstarts f' hparam =>
    obtain rfl := Except.error.inj h
    exact reason_of_param (hs ▸ hstarts) (hs ▸ hparam)
  | case2 done bytes _ key v r hparam ih =>
    rw [hs] at hparam
    obtain ⟨_, _, rest, -, rfl, -⟩ := exists_param hparam
    obtain ⟨gap, rest, -, -, -, hskip⟩ := exists_gap rest
    exact ih h hskip
  | case3 => cases h

theorem reason_of_group (h : group (Utf8.encode s) = .error f) : f.reason ∉ deadReasons := by
  rw [group] at h
  split at h
  · obtain rfl := Except.error.inj h
    show Reason.expectedScheme ∉ deadReasons
    decide
  · next scheme r htoken =>
    obtain ⟨rest, -, rfl, -⟩ := exists_token htoken
    obtain ⟨blanks, rest, -, -, -, hskip⟩ := exists_blanks rest
    rw [hskip] at h
    split at h
    · split at h
      · cases h
      · cases h
      · obtain rfl := Except.error.inj h
        show Reason.expectedSpace ∉ deadReasons
        decide
    · split at h
      · cases h
      · exact reason_of_paramsFrom (error_of_map h) rfl

theorem reason_of_groups {bytes : Bytes} (h : groups bytes = .error f) (hs : bytes = Utf8.encode s) :
    f.reason ∉ deadReasons := by
  fun_induction groups bytes generalizing s f with
  | case1 => cases h
  | case2 bytes _ f' hgroup =>
    obtain rfl := Except.error.inj h
    obtain ⟨gap, rest, -, -, -, hskip⟩ := exists_gap s
    rw [hs, hskip] at hgroup
    exact reason_of_group hgroup
  | case3 bytes _ c r hgroup ih =>
    obtain ⟨gap, rest, -, -, -, hskip⟩ := exists_gap s
    rw [hs, hskip] at hgroup
    obtain ⟨rest, rfl, -⟩ := exists_group hgroup
    exact ih (error_of_map h) rfl

theorem reason_of_parse (h : parse (Utf8.encode s) = .error f) : f.reason ∉ deadReasons := by
  rw [parse] at h
  split at h
  · next hgroups =>
    obtain rfl := Except.error.inj h
    exact reason_of_groups hgroups rfl
  · obtain rfl := Except.error.inj h
    decide
  · cases h

end Faults

/-! ## The whole reader -/

/-- A round of either loop takes something from the front of what is left and leaves the rest of it, so there are no
more rounds than bytes, and each of the credentials that are read takes one. A fault has its place in the value, and is
none of those that never arise: where a parameter is seen it is read up to its value, and a run of the bytes of a token
or of a single value is always the text that it stands for. -/
theorem reader_makes_progress :
    (∀ s r, GroupRound s r ∨ ParamRound s r → r <:+ s ∧ r.length < s.length) ∧
    (∀ s rounds, (s :: rounds).IsChain GroupRound ∨ (s :: rounds).IsChain ParamRound → rounds.length ≤ s.length) ∧
    (∀ s cs, groups s = .ok cs → ∃ rounds, (s :: rounds).IsChain GroupRound ∧ rounds.length = cs.length) ∧
    (∀ (t : Text) (f : Fault), parse (Utf8.encode t) = .error f →
      f.offset (Utf8.encode t) ≤ (Utf8.encode t).length ∧
      (Utf8.encode t).drop (f.offset (Utf8.encode t)) = f.rest ∧
      f.reason ∉ [.expectedName, .expectedEquals, .quotedNotText]) ∧
    (∀ s, startsParam s = true → ∃ word r more, token s = (some word, r) ∧ skipSpaces r = 61 :: more) ∧
    (∀ s, s.takeWhile Ascii.isTokenByte ≠ [] →
      ∃ word, s.takeWhile Ascii.isTokenByte = Utf8.encode word ∧ token s = (some word, s.dropWhile Ascii.isTokenByte)) ∧
    ∀ s, whole? s = none →
      s.takeWhile isWholeByte = [] ∨ ¬ Ends ((s.dropWhile isWholeByte).dropWhile (· = 61)) := by
  refine ⟨fun s r h => ?_, fun s rounds h => ?_, fun s cs => rounds_of_groups, fun t f h => ⟨?_, ?_, reason_of_parse h⟩,
    fun s h => ?_, fun s => token_of_run, fun s => whole?_none⟩
  · rcases h with h | h
    · exact ⟨h.suffix, h.length_lt⟩
    · exact ⟨h.suffix, h.length_lt⟩
  · rcases h with h | h
    · exact length_rounds_le (fun _ _ => GroupRound.length_lt) h
    · exact length_rounds_le (fun _ _ => ParamRound.length_lt) h
  · exact Nat.sub_le _ _
  · exact (List.suffix_iff_eq_drop.mp (rest_of_parse h)).symm
  · obtain ⟨word, r, more, htoken, hequals, -⟩ := param_of_startsParam h
    exact ⟨word, r, more, htoken, hequals⟩

/-- Behind a single value and an escape before a character of two bytes, a value is missing. -/
theorem missing_value_is_located :
    let value := "Basic QQ==, Digest a=\"\\é\", b=;".toList
    ∃ f, parse (Utf8.encode value) = .error f ∧ f.offset (Utf8.encode value) = 30 ∧
      (Utf8.encode value).drop 30 = f.rest ∧ f.reason ∉ [.expectedName, .expectedEquals, .quotedNotText] := by
  intro value
  obtain ⟨-, -, -, hfault, -⟩ := reader_makes_progress
  have hread : parse (Utf8.encode value) = .error ⟨.expectedValue, [59]⟩ := by decide +kernel
  obtain ⟨-, hplace, hreason⟩ := hfault value _ hread
  have hoffset : Fault.offset ⟨.expectedValue, [59]⟩ (Utf8.encode value) = 30 := by decide +kernel
  exact ⟨_, hread, hoffset, hoffset ▸ hplace, hreason⟩

end EntryServer.Credentials
