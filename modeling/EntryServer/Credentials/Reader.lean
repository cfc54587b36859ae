import EntryServer.Credentials.Basic

/-! # Reading credentials

A reader takes what is left of a header value and gives what it has read together with what is left then,
so the place of a fault is the part of the value that was not read yet. Every group and every parameter
leaves less to read, which is why the two loops end. -/
namespace EntryServer.Credentials
set_option autoImplicit false

/-! ## Tokens and quoted strings -/

def token (s : Bytes) : Option Text × Bytes :=
  let word := s.takeWhile Ascii.isTokenByte
  if word = [] then (none, s) else (Utf8.decode? word, s.dropWhile Ascii.isTokenByte)

/-- What stands before the closing quote. A backslash makes the byte after it stand for itself. -/
def quotedBytes : Bytes → Except Fault (Bytes × Bytes)
  | [] => .error ⟨.unterminatedQuote, []⟩
  | 34 :: r => .ok ([], r)
  | [92] => .error ⟨.danglingEscape, []⟩
  | 92 :: b :: r => (quotedBytes r).map fun (bs, rest) => (b :: bs, rest)
  | b :: r => (quotedBytes r).map fun (bs, rest) => (b :: bs, rest)

def quoted (s : Bytes) : Except Fault (Text × Bytes) :=
  match quotedBytes s with
  | .error f => .error f
  | .ok (bs, r) =>
    match Utf8.decode? bs with
    | some t => .ok (t, r)
    | none => .error ⟨.quotedNotText, r⟩

/-! ## Groups -/

/-- A single value, if it fills this group: nothing but spaces may follow up to a comma or the end. -/
def whole? (s : Bytes) : Option (Text × Bytes) :=
  let word := s.takeWhile isWholeByte
  let padding := (s.dropWhile isWholeByte).takeWhile (· = 61)
  let rest := (s.dropWhile isWholeByte).dropWhile (· = 61)
  if word = [] then none
  else match skipSpaces rest with
    | [] | 44 :: _ => (Utf8.decode? (word ++ padding)).map fun t => (t, rest)
    | _ => none

/-- Does a token and an equals sign, with spaces between them allowed, stand at the front? -/
def startsParam (s : Bytes) : Bool :=
  s.takeWhile Ascii.isTokenByte ≠ [] && (skipSpaces (s.dropWhile Ascii.isTokenByte)).head? = some 61

/-- A value is a quoted string or a token. -/
def value (s : Bytes) : Except Fault (Text × Bytes) :=
  match s with
  | 34 :: r => quoted r
  | _ =>
    match token s with
    | (some t, r) => .ok (t, r)
    | (none, r) => .error ⟨.expectedValue, r⟩

/-- A key, an equals sign and a value. The key is put into lowercase. -/
def param (s : Bytes) : Except Fault ((Text × Text) × Bytes) :=
  match token s with
  | (none, r) => .error ⟨.expectedName, r⟩
  | (some key, r) =>
    match skipSpaces r with
    | 61 :: r => (value (skipSpaces r)).map fun (v, rest) => ((Ascii.lower key, v), rest)
    | r => .error ⟨.expectedEquals, r⟩

/-! ## Every group leaves less to read -/

theorem length_dropWhile_le {p : UInt8 → Bool} (s : Bytes) : (s.dropWhile p).length ≤ s.length :=
  (List.dropWhile_sublist p).length_le

theorem length_skipSpaces_le (s : Bytes) : (skipSpaces s).length ≤ s.length :=
  length_dropWhile_le s

theorem length_skipSeparators_le (s : Bytes) : (skipSeparators s).length ≤ s.length :=
  length_dropWhile_le s

theorem length_token_lt {s r : Bytes} {t : Text} (h : token s = (some t, r)) : r.length < s.length := by
  unfold token at h
  simp only at h
  split at h
  · simp at h
  · next hw =>
    obtain rfl := (Prod.mk.inj h).2
    have hl := congrArg List.length (List.takeWhile_append_dropWhile (p := Ascii.isTokenByte) (l := s))
    have := List.length_pos_iff.2 hw
    rw [List.length_append] at hl
    omega

theorem length_quotedBytes_lt {s bs r : Bytes} (h : quotedBytes s = .ok (bs, r)) :
    r.length < s.length := by
  fun_induction quotedBytes s generalizing bs r with
  | case1 => simp at h
  | case2 r' =>
    obtain rfl := (Prod.mk.inj (Except.ok.inj h)).2
    simp
  | case3 => simp at h
  | case4 b r' ih =>
    cases hq : quotedBytes r' with
    | error f => simp [hq, Except.map] at h
    | ok p =>
      have := ih hq
      simp only [hq, Except.map, Except.ok.injEq, Prod.mk.injEq] at h
      obtain rfl := h.2
      simp only [List.length_cons]
      omega
  | case5 b r' _ _ _ ih =>
    cases hq : quotedBytes r' with
    | error f => simp [hq, Except.map] at h
    | ok p =>
      have := ih hq
      simp only [hq, Except.map, Except.ok.injEq, Prod.mk.injEq] at h
      obtain rfl := h.2
      simp only [List.length_cons]
      omega

theorem length_value_le {s r : Bytes} {t : Text} (h : value s = .ok (t, r)) : r.length ≤ s.length := by
  unfold value at h
  split at h
  · next r' =>
    unfold quoted at h
    split at h
    · simp at h
    · next bs r'' hq =>
      have := length_quotedBytes_lt hq
      split at h
      · obtain rfl := (Prod.mk.inj (Except.ok.inj h)).2
        simp only [List.length_cons]
        omega
      · simp at h
  · split at h
    · next ht =>
      obtain rfl := (Prod.mk.inj (Except.ok.inj h)).2
      exact Nat.le_of_lt (length_token_lt ht)
    · simp at h

theorem length_param_lt {s r : Bytes} {kv : Text × Text} (h : param s = .ok (kv, r)) :
    r.length < s.length := by
  unfold param at h
  split at h
  · simp at h
  · next key r₁ ht =>
    have h₁ := length_token_lt ht
    split at h
    · next r₂ hr =>
      have h₂ := length_skipSpaces_le r₁
      have h₃ := length_skipSpaces_le r₂
      rw [hr, List.length_cons] at h₂
      cases hv : value (skipSpaces r₂) with
      | error f => simp [hv, Except.map] at h
      | ok p =>
        have h₄ := length_value_le hv
        simp only [hv, Except.map, Except.ok.injEq, Prod.mk.injEq] at h
        obtain rfl := h.2
        omega
    · simp at h

/-- The parameters of a group, after the ones that are there already. -/
def paramsFrom (done : List (Text × Text)) (s : Bytes) : Except Fault (List (Text × Text) × Bytes) :=
  if startsParam s then
    match _h : param s with
    | .error f => .error f
    | .ok ((key, v), r) => paramsFrom (insert done key v) (skipSeparators r)
  else .ok (done, s)
termination_by s.length
decreasing_by
  have h₁ := length_param_lt ‹_›
  have h₂ := length_skipSeparators_le r
  omega

/-- One group: a scheme name, and after a space a single value or parameters. -/
def group (s : Bytes) : Except Fault (Credentials × Bytes) :=
  match token s with
  | (none, r) => .error ⟨.expectedScheme, r⟩
  | (some scheme, r) =>
    if (skipSpaces r).length = r.length then
      match r with
      | [] | 44 :: _ => .ok (⟨scheme, []⟩, r)
      | _ => .error ⟨.expectedSpace, r⟩
    else
      match whole? (skipSpaces r) with
      | some (t, r) => .ok (⟨scheme, [(wholeKey, t)]⟩, r)
      | none => (paramsFrom [] (skipSpaces r)).map fun (params, r) => (⟨scheme, params⟩, r)

theorem length_paramsFrom_le {done params : List (Text × Text)} {s r : Bytes}
    (h : paramsFrom done s = .ok (params, r)) : r.length ≤ s.length := by
  fun_induction paramsFrom done s with
  | case1 => simp at h
  | case2 done s _ key v r' hp ih =>
    have h₁ := length_param_lt hp
    have h₂ := length_skipSeparators_le r'
    have h₃ := ih h
    omega
  | case3 =>
    obtain rfl := (Prod.mk.inj (Except.ok.inj h)).2
    exact Nat.le_refl _

theorem length_whole_le {s r : Bytes} {t : Text} (h : whole? s = some (t, r)) :
    r.length ≤ s.length := by
  unfold whole? at h
  simp only at h
  have h₁ : ((s.dropWhile isWholeByte).dropWhile (· = 61)).length ≤ s.length :=
    Nat.le_trans (length_dropWhile_le _) (length_dropWhile_le _)
  split at h
  · simp at h
  · split at h
    · obtain ⟨_, _, he⟩ := Option.map_eq_some_iff.1 h
      obtain rfl := (Prod.mk.inj he).2
      exact h₁
    · obtain ⟨_, _, he⟩ := Option.map_eq_some_iff.1 h
      obtain rfl := (Prod.mk.inj he).2
      exact h₁
    · simp at h

theorem length_group_lt {s r : Bytes} {c : Credentials} (h : group s = .ok (c, r)) :
    r.length < s.length := by
  unfold group at h
  split at h
  · simp at h
  · next scheme r₁ ht =>
    have h₁ := length_token_lt ht
    have h₂ := length_skipSpaces_le r₁
    split at h
    · split at h
      · obtain rfl := (Prod.mk.inj (Except.ok.inj h)).2
        exact h₁
      · obtain rfl := (Prod.mk.inj (Except.ok.inj h)).2
        exact h₁
      · simp at h
    · split at h
      · next t r₂ ho =>
        have h₃ := length_whole_le ho
        obtain rfl := (Prod.mk.inj (Except.ok.inj h)).2
        omega
      · cases hp : paramsFrom [] (skipSpaces r₁) with
        | error f => simp [hp, Except.map] at h
        | ok p =>
          have h₃ := length_paramsFrom_le hp
          simp only [hp, Except.map, Except.ok.injEq, Prod.mk.injEq] at h
          obtain rfl := h.2
          omega

/-! ## Header values -/

def groups (s : Bytes) : Except Fault (List Credentials) :=
  if skipSeparators s = [] then .ok []
  else
    match _h : group (skipSeparators s) with
    | .error f => .error f
    | .ok (c, r) => (groups r).map (c :: ·)
termination_by s.length
decreasing_by
  have h₁ := length_group_lt ‹_›
  have h₂ := length_skipSeparators_le s
  omega

def parse (s : Bytes) : Except Fault (List Credentials) :=
  match groups s with
  | .error f => .error f
  | .ok [] => .error ⟨.noCredentials, []⟩
  | .ok (c :: cs) => .ok (c :: cs)

end EntryServer.Credentials
