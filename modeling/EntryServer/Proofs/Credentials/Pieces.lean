import EntryServer.Credentials.Reader
import EntryServer.Proofs.Text.Utf8

/-! # Reading the pieces of a header value

A run of bytes of one class is read to its end, whatever follows that is not of the class. So a token ends where
a gap, an equals sign or nothing follows, a value in quotes ends at its quote, and a single value ends where its
group does. -/
namespace EntryServer.Credentials
set_option autoImplicit false

/-! ## Runs of a class -/

/-- What follows does not go on with a class of bytes. -/
def Stops (p : UInt8 → Bool) (r : Bytes) : Prop := ∀ b ∈ r.head?, p b = false

section Runs
variable {p : UInt8 → Bool} {front r : Bytes} {b : UInt8}

theorem stops_cons (h : p b = false) : Stops p (b :: r) := by
  intro x hx
  rwa [← Option.some.inj hx]

theorem Stops.dropWhile (h : Stops p r) : r.dropWhile p = r := by
  cases r with
  | nil => rfl
  | cons b r => exact List.dropWhile_cons_of_neg (Bool.eq_false_iff.mp (h b rfl))

theorem Stops.takeWhile (h : Stops p r) : r.takeWhile p = [] := by
  cases r with
  | nil => rfl
  | cons b r => exact List.takeWhile_cons_of_neg (Bool.eq_false_iff.mp (h b rfl))

theorem takeWhile_run (hfront : ∀ b ∈ front, p b = true) (hr : Stops p r) : (front ++ r).takeWhile p = front := by
  rw [List.takeWhile_append_of_pos hfront, hr.takeWhile, List.append_nil]

theorem dropWhile_run (hfront : ∀ b ∈ front, p b = true) (hr : Stops p r) : (front ++ r).dropWhile p = r := by
  rw [List.dropWhile_append_of_pos hfront, hr.dropWhile]

end Runs

/-! ## Runs of whole characters

A class of ASCII bytes begins and ends between characters. -/

theorem forall_byte {P : UInt8 → Prop} (h : ∀ n < 256, P n.toUInt8) (b : UInt8) : P b := by
  have hb : b.toNat.toUInt8 = b := UInt8.toNat_inj.mp (Utf8.toNat_toUInt8 b.toNat_lt)
  rw [← hb]
  exact h b.toNat b.toNat_lt

section Characters
variable {p : UInt8 → Bool} (hp : ∀ b, p b = true → b.toNat < 0x80)
include hp

theorem ascii_of_all {c : Char} (h : ∀ b ∈ Utf8.encodeChar c, p b = true) :
    c.toNat < 0x80 ∧ p c.toNat.toUInt8 = true := by
  have hascii : c.toNat < 0x80 := by
    refine Nat.lt_of_not_le fun hhigh => ?_
    obtain ⟨b, more, hbytes⟩ := List.exists_cons_of_ne_nil (Utf8.encodeChar_ne_nil c)
    have hb : b ∈ Utf8.encodeChar c := hbytes ▸ List.mem_cons_self ..
    have hbound := Utf8.high_of_mem_encodeChar hhigh hb
    have := hp b (h b hb)
    omega
  refine ⟨hascii, h _ ?_⟩
  rw [Utf8.encodeChar_ascii hascii]
  exact List.mem_singleton_self _

theorem ascii_of_mem {t : Text} (h : ∀ b ∈ Utf8.encode t, p b = true) {c : Char} (hc : c ∈ t) :
    c.toNat < 0x80 ∧ p c.toNat.toUInt8 = true :=
  ascii_of_all hp fun b hb => h b (List.mem_flatMap.mpr ⟨c, hc, hb⟩)

theorem exists_run (t : Text) : ∃ front rest, t = front ++ rest ∧ (∀ b ∈ Utf8.encode front, p b = true) ∧
    Stops p (Utf8.encode rest) := by
  induction t with
  | nil => exact ⟨[], [], rfl, List.forall_mem_nil _, fun _ hb => nomatch hb⟩
  | cons c t ih =>
    by_cases hc : ∀ b ∈ Utf8.encodeChar c, p b = true
    · obtain ⟨front, rest, rfl, hfront, hrest⟩ := ih
      refine ⟨c :: front, rest, rfl, ?_, hrest⟩
      rw [Utf8.encode_cons]
      exact List.forall_mem_append.mpr ⟨hc, hfront⟩
    · refine ⟨[], c :: t, rfl, List.forall_mem_nil _, fun b hb => ?_⟩
      rw [Utf8.encode_cons] at hb
      by_cases hascii : c.toNat < 0x80
      · rw [Utf8.encodeChar_ascii hascii] at hb hc
        obtain rfl := Option.some.inj hb
        simpa using hc
      · obtain ⟨x, more, hbytes⟩ := List.exists_cons_of_ne_nil (Utf8.encodeChar_ne_nil c)
        rw [hbytes] at hb
        obtain rfl := Option.some.inj hb
        have hhigh := Utf8.high_of_mem_encodeChar (Nat.not_lt.mp hascii) (hbytes ▸ List.mem_cons_self ..)
        refine Bool.eq_false_iff.mpr fun hx => ?_
        have := hp x hx
        omega

end Characters

/-! ## Gaps

Between parameters there is a gap, and a group ends at a comma or at the end of the value. -/

/-- A gap follows, or nothing. -/
def AtGap (r : Bytes) : Prop := ∀ b ∈ r.head?, isSeparator b = true

/-- A group is over: nothing follows but blanks, or a comma after them. -/
def Ends (r : Bytes) : Prop := ∀ b ∈ (skipSpaces r).head?, b = 44

section Gaps
variable {front r : Bytes} {b : UInt8}

theorem isSeparator_of_isSpace (h : isSpace b = true) : isSeparator b = true := by rw [isSeparator, h, Bool.true_or]

theorem eq_of_isSeparator (h : isSeparator b = true) : b = 32 ∨ b = 9 ∨ b = 44 := by
  simpa [isSeparator, isSpace, or_assoc] using h

theorem AtGap.stops {p : UInt8 → Bool} (h : AtGap r) (hspace : p 32 = false) (htab : p 9 = false)
    (hcomma : p 44 = false) : Stops p r := by
  intro b hb
  obtain rfl | rfl | rfl := eq_of_isSeparator (h b hb)
  · exact hspace
  · exact htab
  · exact hcomma

theorem AtGap.stops_token (h : AtGap r) : Stops Ascii.isTokenByte r := h.stops (by decide) (by decide) (by decide)

theorem Ends.atGap (h : Ends r) : AtGap r := by
  intro b hb
  cases hspace : isSpace b with
  | true => exact isSeparator_of_isSpace hspace
  | false =>
    have hstops : Stops isSpace r := fun x hx => Option.some.inj (hb.symm.trans hx) ▸ hspace
    obtain rfl := h b (by rwa [skipSpaces, hstops.dropWhile])
    rfl

theorem skipSeparators_append (h : ∀ b ∈ front, isSeparator b = true) :
    skipSeparators (front ++ r) = skipSeparators r := List.dropWhile_append_of_pos h

theorem skipSeparators_dropWhile {p : UInt8 → Bool} (h : ∀ b, p b = true → isSeparator b = true) :
    skipSeparators (r.dropWhile p) = skipSeparators r := by
  have hfront : ∀ b ∈ r.takeWhile p, isSeparator b = true := fun b hb =>
    h b (List.all_eq_true.mp List.all_takeWhile b hb)
  rw [← skipSeparators_append hfront, List.takeWhile_append_dropWhile]

/-- An element begins here: not with a gap, and not with an equals sign. -/
def Opens (s : Bytes) : Prop := ∃ b more, s = b :: more ∧ isSeparator b = false ∧ b ≠ 61

theorem opens_of_class {p : UInt8 → Bool} {b : UInt8} {more : Bytes} (hb : p b = true) (hspace : p 32 = false)
    (htab : p 9 = false) (hcomma : p 44 = false) (hequals : p 61 = false) : Opens (b :: more) := by
  refine ⟨b, more, rfl, Bool.eq_false_iff.mpr fun hsep => ?_, fun heq => ?_⟩
  · obtain rfl | rfl | rfl := eq_of_isSeparator hsep
    · exact absurd (hb.symm.trans hspace) (by decide)
    · exact absurd (hb.symm.trans htab) (by decide)
    · exact absurd (hb.symm.trans hcomma) (by decide)
  · rw [heq, hequals] at hb
    exact absurd hb (by decide)

theorem Opens.append (h : Opens front) : Opens (front ++ r) := by
  obtain ⟨b, more, rfl, hb⟩ := h
  exact ⟨b, more ++ r, rfl, hb⟩

theorem Opens.skipSeparators (h : Opens r) : Credentials.skipSeparators r = r := by
  obtain ⟨b, more, rfl, hb, -⟩ := h
  exact (stops_cons hb).dropWhile

theorem Opens.stops_space (h : Opens r) : Stops isSpace r := by
  obtain ⟨b, more, rfl, hb, -⟩ := h
  exact stops_cons (Bool.or_eq_false_iff.mp hb).1

theorem Opens.skipSpaces (h : Opens r) : Credentials.skipSpaces r = r := h.stops_space.dropWhile

theorem Opens.stops_padding (h : Opens r) : Stops (fun b => decide (b = 61)) r := by
  obtain ⟨b, more, rfl, -, hb⟩ := h
  exact stops_cons (decide_eq_false hb)

theorem Opens.skipPadding (h : Opens r) : r.dropWhile (· = 61) = r := h.stops_padding.dropWhile

end Gaps

/-! ## Gaps in a text -/

def IsBlank (t : Text) : Prop := ∀ c ∈ t, c = ' ' ∨ c = '\t'

def IsGap (t : Text) : Prop := ∀ c ∈ t, c = ' ' ∨ c = '\t' ∨ c = ','

instance (t : Text) : Decidable (IsBlank t) := List.decidableBAll _ t

instance (t : Text) : Decidable (IsGap t) := List.decidableBAll _ t

section GapTexts
variable {gap blanks : Text} {r : Bytes}

theorem IsBlank.isGap (h : IsBlank blanks) : IsGap blanks := fun c hc =>
  (h c hc).elim .inl fun htab => .inr (.inl htab)

theorem IsGap.append {gap' : Text} (h : IsGap gap) (h' : IsGap gap') : IsGap (gap ++ gap') :=
  List.forall_mem_append.mpr ⟨h, h'⟩

theorem IsGap.all (h : IsGap gap) : ∀ b ∈ Utf8.encode gap, isSeparator b = true := by
  refine List.forall_mem_flatMap.mpr fun c hc => List.all_eq_true.mp ?_
  obtain rfl | rfl | rfl := h c hc
  · decide
  · decide
  · decide

theorem IsBlank.all (h : IsBlank blanks) : ∀ b ∈ Utf8.encode blanks, isSpace b = true := by
  refine List.forall_mem_flatMap.mpr fun c hc => List.all_eq_true.mp ?_
  obtain rfl | rfl := h c hc
  · decide
  · decide

theorem IsGap.atGap (h : IsGap gap) (hne : gap ≠ []) : AtGap (Utf8.encode gap ++ r) := by
  obtain ⟨b, bs, hbytes⟩ := List.exists_cons_of_ne_nil (Utf8.encode_ne_nil hne)
  intro x hx
  rw [hbytes] at hx
  exact h.all x (hbytes ▸ Option.some.inj hx ▸ List.mem_cons_self ..)

theorem IsGap.stops {p : UInt8 → Bool} (h : IsGap gap) (hspace : p 32 = false) (htab : p 9 = false)
    (hcomma : p 44 = false) (hr : Stops p r) : Stops p (Utf8.encode gap ++ r) := by
  by_cases hne : gap = []
  · subst hne
    exact hr
  · exact (h.atGap hne).stops hspace htab hcomma

theorem IsGap.stops_token (h : IsGap gap) (hr : Stops Ascii.isTokenByte r) :
    Stops Ascii.isTokenByte (Utf8.encode gap ++ r) :=
  h.stops (by decide) (by decide) (by decide) hr

theorem IsGap.skipSeparators (h : IsGap gap) :
    Credentials.skipSeparators (Utf8.encode gap ++ r) = Credentials.skipSeparators r := skipSeparators_append h.all

/-- A group is over at a gap if there is a comma in it, or nothing after it. -/
theorem IsGap.ends_append (h : IsGap gap) (hover : r = [] ∨ ',' ∈ gap) : Ends (Utf8.encode gap ++ r) := by
  induction gap with
  | nil =>
    obtain rfl := hover.resolve_right List.not_mem_nil
    exact fun b hb => nomatch hb
  | cons c gap ih =>
    have hmore : IsGap gap := fun x hx => h x (List.mem_cons_of_mem _ hx)
    obtain rfl | rfl | rfl := h c (List.mem_cons_self ..)
    · exact ih hmore (hover.imp_right fun hc => (List.mem_cons.mp hc).resolve_left (by decide))
    · exact ih hmore (hover.imp_right fun hc => (List.mem_cons.mp hc).resolve_left (by decide))
    · exact fun b hb => (Option.some.inj hb).symm

theorem IsGap.ends (h : IsGap gap) : Ends (Utf8.encode gap) := by
  rw [← List.append_nil (Utf8.encode gap)]
  exact h.ends_append (.inl rfl)

theorem ascii_of_isSeparator : ∀ b, isSeparator b = true → b.toNat < 0x80 := by
  intro b hb
  obtain rfl | rfl | rfl := eq_of_isSeparator hb
  · decide
  · decide
  · decide

theorem isGap_of_all (h : ∀ b ∈ Utf8.encode gap, isSeparator b = true) : IsGap gap := by
  intro c hc
  obtain ⟨hascii, hsep⟩ := ascii_of_mem ascii_of_isSeparator h hc
  have hbyte := eq_of_isSeparator hsep
  simp only [← UInt8.toNat_inj, Utf8.toNat_toUInt8 (Nat.lt_trans hascii (by decide))] at hbyte
  exact hbyte.imp Char.toNat_inj.mp (Or.imp Char.toNat_inj.mp Char.toNat_inj.mp)

theorem IsGap.isBlank (h : IsGap gap) (hcomma : ',' ∉ gap) : IsBlank gap := by
  intro c hc
  rcases h c hc with hspace | htab | rfl
  · exact Or.inl hspace
  · exact Or.inr htab
  · exact absurd hc hcomma

theorem isBlank_of_all (h : ∀ b ∈ Utf8.encode blanks, isSpace b = true) : IsBlank blanks := by
  refine (isGap_of_all fun b hb => isSeparator_of_isSpace (h b hb)).isBlank fun hcomma => ?_
  have := h 44 (List.mem_flatMap.mpr ⟨',', hcomma, List.mem_singleton_self _⟩)
  exact absurd this (by decide)

/-- What is left after the blanks in front. -/
theorem exists_blanks (t : Text) : ∃ blanks rest, t = blanks ++ rest ∧ IsBlank blanks ∧
    Stops isSpace (Utf8.encode rest) ∧ skipSpaces (Utf8.encode t) = Utf8.encode rest := by
  obtain ⟨blanks, rest, rfl, hall, hstop⟩ :=
    exists_run (fun b hb => ascii_of_isSeparator b (isSeparator_of_isSpace hb)) t
  refine ⟨blanks, rest, rfl, isBlank_of_all hall, hstop, ?_⟩
  rw [Utf8.encode_append]
  exact dropWhile_run hall hstop

/-- What is left after the gap in front. -/
theorem exists_gap (t : Text) : ∃ gap rest, t = gap ++ rest ∧ IsGap gap ∧ Stops isSeparator (Utf8.encode rest) ∧
    skipSeparators (Utf8.encode t) = Utf8.encode rest := by
  obtain ⟨gap, rest, rfl, hall, hstop⟩ := exists_run ascii_of_isSeparator t
  refine ⟨gap, rest, rfl, isGap_of_all hall, hstop, ?_⟩
  rw [Utf8.encode_append]
  exact dropWhile_run hall hstop

end GapTexts

/-! ## Tokens -/

/-- A text that stands for itself as a scheme or as a key. -/
def IsToken (t : Text) : Prop := t ≠ [] ∧ (Utf8.encode t).all Ascii.isTokenByte = true

instance (t : Text) : Decidable (IsToken t) := inferInstanceAs (Decidable (_ ∧ _))

section Front
variable {t : Text} {r : Bytes}

theorem IsToken.all (ht : IsToken t) : ∀ b ∈ Utf8.encode t, Ascii.isTokenByte b = true := List.all_eq_true.mp ht.2

theorem IsToken.front (ht : IsToken t) : ∃ b bs, Utf8.encode t = b :: bs ∧ Ascii.isTokenByte b = true := by
  obtain ⟨b, bs, h⟩ := List.exists_cons_of_ne_nil (Utf8.encode_ne_nil ht.1)
  exact ⟨b, bs, h, ht.all b (h ▸ List.mem_cons_self ..)⟩

theorem IsToken.takeWhile (ht : IsToken t) (hr : Stops Ascii.isTokenByte r) :
    (Utf8.encode t ++ r).takeWhile Ascii.isTokenByte = Utf8.encode t := takeWhile_run ht.all hr

theorem IsToken.dropWhile (ht : IsToken t) (hr : Stops Ascii.isTokenByte r) :
    (Utf8.encode t ++ r).dropWhile Ascii.isTokenByte = r := dropWhile_run ht.all hr

theorem token_encode (ht : IsToken t) (hr : Stops Ascii.isTokenByte r) : token (Utf8.encode t ++ r) = (some t, r) := by
  simp only [token, ht.takeWhile hr, ht.dropWhile hr, if_neg (Utf8.encode_ne_nil ht.1), Utf8.decode?_encode]

theorem IsToken.opens (ht : IsToken t) : Opens (Utf8.encode t) := by
  obtain ⟨b, more, h, hb⟩ := ht.front
  rw [h]
  exact opens_of_class hb (by decide) (by decide) (by decide) (by decide)

/-- Whether a parameter stands at a token is seen after the token. -/
theorem IsToken.startsParam (ht : IsToken t) (hr : Stops Ascii.isTokenByte r) :
    Credentials.startsParam (Utf8.encode t ++ r) = decide ((Credentials.skipSpaces r).head? = some 61) := by
  rw [Credentials.startsParam, ht.takeWhile hr, ht.dropWhile hr, decide_eq_true (Utf8.encode_ne_nil ht.1),
    Bool.true_and]

theorem ascii_of_isTokenByte : ∀ b, Ascii.isTokenByte b = true → b.toNat < 0x80 := by
  have hall : ∀ n < 256, Ascii.isTokenByte n.toUInt8 = true → n.toUInt8.toNat < 0x80 := by decide +kernel
  exact forall_byte hall

/-- A token that is read stands in the text, up to where no other byte of it follows. -/
theorem exists_token {s word : Text} (h : token (Utf8.encode s) = (some word, r)) :
    ∃ rest, s = word ++ rest ∧ r = Utf8.encode rest ∧ IsToken word ∧ Stops Ascii.isTokenByte (Utf8.encode rest) := by
  obtain ⟨front, rest, rfl, hall, hstop⟩ := exists_run ascii_of_isTokenByte s
  rw [Utf8.encode_append] at h
  by_cases hfront : front = []
  · subst hfront
    rw [Utf8.encode_nil, List.nil_append, token] at h
    simp only [hstop.takeWhile, if_true] at h
    cases h
  · have hword : IsToken front := ⟨hfront, List.all_eq_true.mpr hall⟩
    rw [token_encode hword hstop] at h
    obtain ⟨hword', rfl⟩ := Prod.mk.inj h
    obtain rfl := Option.some.inj hword'
    exact ⟨rest, rfl, rfl, hword, hstop⟩

end Front

/-! ## Values in quotes -/

theorem quotedBytes_plain {bs : Bytes} (h : ∀ b ∈ bs, b ≠ 34 ∧ b ≠ 92) (r : Bytes) :
    quotedBytes (bs ++ r) = (quotedBytes r).map fun (more, rest) => (bs ++ more, rest) := by
  induction bs with
  | nil => cases h : quotedBytes r <;> simp [h, Except.map]
  | cons b bs ih =>
    obtain ⟨hquote, hescape⟩ := h b (List.mem_cons_self ..)
    rw [List.cons_append, quotedBytes.eq_def]
    split
    · next heq => cases heq
    · next heq => exact absurd (List.cons.inj heq).1 hquote
    · next heq => exact absurd (List.cons.inj heq).1 hescape
    · next heq => exact absurd (List.cons.inj heq).1 hescape
    · next heq =>
      obtain ⟨rfl, rfl⟩ := List.cons.inj heq
      rw [ih fun x hx => h x (List.mem_cons_of_mem _ hx)]
      cases quotedBytes r <;> rfl

theorem plain_encodeChar {c : Char} (h : ¬ (c = '\\' ∨ c = '"')) : ∀ b ∈ Utf8.encodeChar c, b ≠ 34 ∧ b ≠ 92 := by
  intro b hb
  by_cases hascii : c.toNat < 0x80
  · rw [Utf8.encodeChar_ascii hascii, List.mem_singleton] at hb
    have hnat : b.toNat = c.toNat := hb ▸ Utf8.toNat_toUInt8 (by omega)
    constructor
    · rintro rfl
      exact h (.inr (Char.toNat_inj.mp hnat.symm))
    · rintro rfl
      exact h (.inl (Char.toNat_inj.mp hnat.symm))
  · have hhigh := Utf8.high_of_mem_encodeChar (Nat.not_lt.mp hascii) hb
    constructor
    · rintro rfl
      exact absurd hhigh (by decide)
    · rintro rfl
      exact absurd hhigh (by decide)

/-- A backslash has the character after it taken as it is. -/
theorem quotedBytes_backslash (c : Char) (s : Bytes) : quotedBytes (92 :: (Utf8.encodeChar c ++ s)) =
    (quotedBytes s).map fun (bs, rest) => (Utf8.encodeChar c ++ bs, rest) := by
  obtain ⟨b, more, hbytes⟩ := List.exists_cons_of_ne_nil (Utf8.encodeChar_ne_nil c)
  have hmore : ∀ x ∈ more, x ≠ 34 ∧ x ≠ 92 := by
    intro x hx
    by_cases hascii : c.toNat < 0x80
    · rw [Utf8.encodeChar_ascii hascii] at hbytes
      rw [(List.cons.inj hbytes).2.symm] at hx
      cases hx
    · have hhigh := Utf8.high_of_mem_encodeChar (Nat.not_lt.mp hascii) (hbytes ▸ List.mem_cons_of_mem b hx)
      constructor
      · rintro rfl
        exact absurd hhigh (by decide)
      · rintro rfl
        exact absurd hhigh (by decide)
  have hstep : quotedBytes (92 :: b :: (more ++ s)) =
      (quotedBytes (more ++ s)).map fun (bs, rest) => (b :: bs, rest) := rfl
  rw [hbytes, List.cons_append, hstep, quotedBytes_plain hmore]
  cases quotedBytes s <;> rfl

/-! ## Single values -/

/-- A text that can stand alone after a scheme. -/
def IsWhole (t : Text) : Prop :=
  ∃ word n, word ≠ [] ∧ (∀ b ∈ Utf8.encode word, isWholeByte b = true) ∧ t = word ++ List.replicate n '='

section Whole
variable {t : Text} {r : Bytes}

theorem IsWhole.opens (ht : IsWhole t) : Opens (Utf8.encode t) := by
  obtain ⟨word, n, hne, hall, rfl⟩ := ht
  obtain ⟨b, more, h⟩ := List.exists_cons_of_ne_nil (Utf8.encode_ne_nil hne)
  have hb := hall b (h ▸ List.mem_cons_self ..)
  rw [Utf8.encode_append, h]
  exact (opens_of_class hb (by decide) (by decide) (by decide) (by decide)).append

theorem encode_padding (n : Nat) : Utf8.encode (List.replicate n '=') = List.replicate n 61 := by
  induction n with
  | zero => rfl
  | succ n ih =>
    rw [List.replicate_succ, Utf8.encode_cons, ih]
    rfl

/-- A single value that fills its group is taken. -/
theorem whole?_encode (ht : IsWhole t) (hr : Ends r) : whole? (Utf8.encode t ++ r) = some (t, r) := by
  obtain ⟨word, n, hne, hall, rfl⟩ := ht
  have hgap := hr.atGap
  -- The word ends at its padding, or at the end of the group if there is none.
  have hstop : Stops isWholeByte (List.replicate n 61 ++ r) := by
    cases n with
    | zero => exact hgap.stops (by decide) (by decide) (by decide)
    | succ n => exact stops_cons (by decide)
  have hpad : ∀ b ∈ List.replicate n (61 : UInt8), decide (b = 61) = true := fun b hb =>
    decide_eq_true (List.eq_of_mem_replicate hb)
  have hstop' : Stops (fun b : UInt8 => decide (b = 61)) r := hgap.stops (by decide) (by decide) (by decide)
  have htext : Utf8.encode word ++ List.replicate n 61 = Utf8.encode (word ++ List.replicate n '=') := by
    rw [Utf8.encode_append, encode_padding]
  rw [← htext, List.append_assoc]
  simp only [whole?, takeWhile_run hall hstop, dropWhile_run hall hstop, takeWhile_run hpad hstop',
    dropWhile_run hpad hstop', if_neg (Utf8.encode_ne_nil hne), htext, Utf8.decode?_encode, Option.map_some]
  split
  · rfl
  · rfl
  · next hnil hcomma =>
    cases hskip : skipSpaces r with
    | nil => exact absurd hskip hnil
    | cons b more =>
      obtain rfl := hr b (by rw [hskip]; rfl)
      exact absurd hskip (hcomma more)

/-- Anything but a comma after the bytes that could be a single value makes them none. -/
theorem whole?_eq_none {s r : Bytes} {b : UInt8}
    (h : skipSpaces ((s.dropWhile isWholeByte).dropWhile (· = 61)) = b :: r) (hb : b ≠ 44) : whole? s = none := by
  simp only [whole?, h]
  split
  · rfl
  · split
    · next hnil => cases hnil
    · next hcomma => exact absurd (List.cons.inj hcomma).1 hb
    · rfl

/-- Where a group is over no single value stands. -/
theorem whole?_of_ends (hr : Ends r) : whole? (skipSpaces r) = none := by
  have hstop : Stops isWholeByte (skipSpaces r) := fun b hb => by rw [hr b hb]; decide
  simp only [whole?, hstop.takeWhile, if_true]

theorem ascii_of_isWholeByte : ∀ b, isWholeByte b = true → b.toNat < 0x80 := by
  have hall : ∀ n < 256, isWholeByte n.toUInt8 = true → n.toUInt8.toNat < 0x80 := by decide +kernel
  exact forall_byte hall

theorem ends_of_skipSpaces (h : skipSpaces r = [] ∨ ∃ more, skipSpaces r = 44 :: more) : Ends r := by
  intro b hb
  rcases h with h | ⟨more, h⟩
  · rw [h] at hb
    cases hb
  · rw [h] at hb
    exact (Option.some.inj hb).symm

/-- A single value that is read stands in the text and fills its group. -/
theorem exists_whole {s : Text} (h : whole? (Utf8.encode s) = some (t, r)) :
    ∃ rest, s = t ++ rest ∧ r = Utf8.encode rest ∧ IsWhole t ∧ Ends r := by
  obtain ⟨word, rest, rfl, hword, hstop⟩ := exists_run ascii_of_isWholeByte s
  obtain ⟨padding, rest, rfl, hpad, hstop'⟩ :=
    exists_run (p := fun b => decide (b = 61)) (fun b hb => by rw [of_decide_eq_true hb]; decide) rest
  have hequals : ∀ c ∈ padding, c = '=' := by
    intro c hc
    obtain ⟨hascii, hbyte⟩ := ascii_of_mem (fun b hb => by rw [of_decide_eq_true hb]; decide) hpad hc
    have hbyte := of_decide_eq_true hbyte
    rw [← UInt8.toNat_inj, Utf8.toNat_toUInt8 (Nat.lt_trans hascii (by decide))] at hbyte
    exact Char.toNat_inj.mp hbyte
  have htext : Utf8.encode word ++ Utf8.encode padding = Utf8.encode (word ++ padding) :=
    (Utf8.encode_append ..).symm
  rw [Utf8.encode_append, Utf8.encode_append] at h
  rw [Utf8.encode_append] at hstop
  simp only [whole?, takeWhile_run hword hstop, dropWhile_run hword hstop, takeWhile_run hpad hstop',
    dropWhile_run hpad hstop', htext, Utf8.decode?_encode, Option.map_some] at h
  split at h
  · cases h
  · next hne =>
    have hwhole : IsWhole (word ++ padding) :=
      ⟨word, padding.length, fun hnil => hne (by rw [hnil, Utf8.encode_nil]), hword,
        by rw [← List.eq_replicate_of_mem hequals]⟩
    have hfound : ∀ {x : Option (Text × Bytes)}, x = some (t, r) → x = some (word ++ padding, Utf8.encode rest) →
        Ends (Utf8.encode rest) → ∃ rest', word ++ (padding ++ rest) = t ++ rest' ∧ r = Utf8.encode rest' ∧
          IsWhole t ∧ Ends r := by
      rintro _ rfl heq hends
      obtain ⟨rfl, rfl⟩ := Prod.mk.inj (Option.some.inj heq)
      exact ⟨rest, (List.append_assoc ..).symm, rfl, hwhole, hends⟩
    split at h
    · next hnil => exact hfound h rfl (ends_of_skipSpaces (.inl hnil))
    · next hcomma => exact hfound h rfl (ends_of_skipSpaces (.inr ⟨_, hcomma⟩))
    · cases h

end Whole
end EntryServer.Credentials
