import EntryServer.Proofs.Text.Utf8

/-! # Heads of texts

A text that is cut off after any number of bytes consists of whole characters, and perhaps the beginning of one more.
It is read up to there. The other way around, whatever is read in this way goes on as a text, and the character that
is cut off can be completed to one that is no control character. -/
namespace EntryServer.Utf8
set_option autoImplicit false

/-! ## The character of a sequence -/

section Sequences
variable {a b : UInt8} {bs front more : Bytes} {n : Nat}

theorem toUInt8_eq {k : Nat} (h : k = a.toNat) : k.toUInt8 = a := by
  subst h
  exact UInt8.toNat_inj.mp (toNat_toUInt8 a.toNat_lt)

theorem exists_scalar {k : Nat} (h : k < 0xD800 ∨ 0xDFFF < k ∧ k < 0x110000) : ∃ c : Char, c.toNat = k :=
  ⟨Char.ofNat k, toNat_ofNat h⟩

/-- The number of a sequence of three bytes takes three bytes. -/
theorem large_of_three (ha : width a = 3) (hb : maySecond a b = true) (k : Nat) :
    0x800 ≤ a.toNat % 16 * 4096 + low b * 64 + k := by
  have hfirst := width_cases a
  obtain ⟨⟨hb, hb'⟩, hE0, -⟩ := bounds_of_maySecond hb
  rw [low]
  omega

theorem large_of_four (ha : width a = 4) (hb : maySecond a b = true) (k : Nat) :
    0x10000 ≤ a.toNat % 8 * 262144 + low b * 4096 + k := by
  have hfirst := width_cases a
  obtain ⟨⟨hb, hb'⟩, -, -, hF0, -⟩ := bounds_of_maySecond hb
  rw [low]
  omega

/-- What is read as a character is what is written for it. -/
theorem Sequence.exists_char (h : Sequence bs n) : ∃ c, c.toNat = n ∧ encodeChar c = bs := by
  cases h with
  | @one a ha =>
    have hfirst := width_cases a
    obtain ⟨c, hc⟩ := exists_scalar (k := a.toNat) (by omega)
    exact ⟨c, hc, by rw [encodeChar_ascii (by omega), toUInt8_eq hc]⟩
  | @two a b ha hb =>
    have hfirst := width_cases a
    obtain ⟨⟨hb, hb'⟩, -⟩ := bounds_of_maySecond hb
    obtain ⟨c, hc⟩ := exists_scalar (k := a.toNat % 32 * 64 + low b) (by rw [low]; omega)
    refine ⟨c, hc, ?_⟩
    rw [low] at hc
    simp only [encodeChar]
    rw [if_neg (by omega), if_pos (by omega), toUInt8_eq (a := a) (by omega), toUInt8_eq (a := b) (by omega)]
  | @three a b d ha hb hd =>
    have hfirst := width_cases a
    have hlarge := large_of_three ha hb (low d)
    obtain ⟨⟨hb, hb'⟩, hE0, hED, -⟩ := bounds_of_maySecond hb
    obtain ⟨hd, hd'⟩ := isContinuation_iff.mp hd
    obtain ⟨c, hc⟩ := exists_scalar (k := a.toNat % 16 * 4096 + low b * 64 + low d) (by rw [low, low]; omega)
    refine ⟨c, hc, ?_⟩
    rw [low, low] at hc hlarge
    simp only [encodeChar]
    rw [if_neg (by omega), if_neg (by omega), if_pos (by omega), toUInt8_eq (a := a) (by omega),
      toUInt8_eq (a := b) (by omega), toUInt8_eq (a := d) (by omega)]
  | @four a b d e ha hb hd he =>
    have hfirst := width_cases a
    have hlarge := large_of_four ha hb (low d * 64 + low e)
    obtain ⟨⟨hb, hb'⟩, -, -, hF0, hF4⟩ := bounds_of_maySecond hb
    obtain ⟨hd, hd'⟩ := isContinuation_iff.mp hd
    obtain ⟨he, he'⟩ := isContinuation_iff.mp he
    obtain ⟨c, hc⟩ := exists_scalar (k := a.toNat % 8 * 262144 + low b * 4096 + low d * 64 + low e)
      (by rw [low, low, low] at *; omega)
    refine ⟨c, hc, ?_⟩
    rw [low, low, low] at hc hlarge
    simp only [encodeChar]
    rw [if_neg (by omega), if_neg (by omega), if_neg (by omega), toUInt8_eq (a := a) (by omega),
      toUInt8_eq (a := b) (by omega), toUInt8_eq (a := d) (by omega), toUInt8_eq (a := e) (by omega)]

/-! ## Sequences that are cut off -/

theorem pieces_cut_one (ha : 2 ≤ width a) : pieces [a] = [.cut] := by
  have hone : width a ≠ 1 := by omega
  have hnone : width a ≠ 0 := by omega
  rw [pieces.eq_def]
  simp [hone, hnone]

theorem pieces_cut_two (ha : 3 ≤ width a) (hb : maySecond a b = true) : pieces [a, b] = [.cut] := by
  have hone : width a ≠ 1 := by omega
  have hnone : width a ≠ 0 := by omega
  have htwo : width a ≠ 2 := by omega
  rw [pieces.eq_def]
  simp [hone, hnone, htwo, hb]

theorem pieces_cut_three {c : UInt8} (ha : width a = 4) (hb : maySecond a b = true) (hc : isContinuation c = true) :
    pieces [a, b, c] = [.cut] := by
  rw [pieces.eq_def]
  simp [ha, hb, hc]

/-- The beginning of a sequence is read as the beginning of a character. -/
theorem Sequence.pieces_cut (h : Sequence (front ++ more) n) (hfront : front ≠ []) (hmore : more ≠ []) :
    Utf8.pieces front = [.cut] := by
  have hover : ∀ {rest : Bytes}, rest ++ more ≠ [] := fun hnil => hmore (List.append_eq_nil_iff.mp hnil).2
  obtain ⟨x, front, rfl⟩ := List.exists_cons_of_ne_nil hfront
  generalize hbs : x :: front ++ more = bs at h
  cases h with
  | one ha => exact absurd (List.cons.inj hbs).2 hover
  | two ha hb =>
    obtain ⟨rfl, hsecond⟩ := List.cons.inj hbs
    cases front with
    | nil => exact pieces_cut_one (by omega)
    | cons y front => exact absurd (List.cons.inj hsecond).2 hover
  | three ha hb hc =>
    obtain ⟨rfl, hsecond⟩ := List.cons.inj hbs
    cases front with
    | nil => exact pieces_cut_one (by omega)
    | cons y front =>
      obtain ⟨rfl, hthird⟩ := List.cons.inj hsecond
      cases front with
      | nil => exact pieces_cut_two (by omega) hb
      | cons z front => exact absurd (List.cons.inj hthird).2 hover
  | four ha hb hc hd =>
    obtain ⟨rfl, hsecond⟩ := List.cons.inj hbs
    cases front with
    | nil => exact pieces_cut_one (by omega)
    | cons y front =>
      obtain ⟨rfl, hthird⟩ := List.cons.inj hsecond
      cases front with
      | nil => exact pieces_cut_two (by omega) hb
      | cons z front =>
        obtain ⟨rfl, hfourth⟩ := List.cons.inj hthird
        cases front with
        | nil => exact pieces_cut_three ha hb hc
        | cons w front => exact absurd (List.cons.inj hfourth).2 hover

/-- A second byte that leads out of the control characters. -/
theorem exists_second (a : UInt8) : ∃ b, maySecond a b = true ∧ (a.toNat = 0xC2 → 0xA0 ≤ b.toNat) := by
  by_cases hlow : a.toNat = 0xED ∨ a.toNat = 0xF4
  · refine ⟨0x80, maySecond_of_bounds (by decide) (by decide) ?_ ?_ ?_ ?_, ?_⟩
    · omega
    · exact fun _ => by decide
    · omega
    · exact fun _ => by decide
    · omega
  · refine ⟨0xA0, maySecond_of_bounds (by decide) (by decide) ?_ ?_ ?_ ?_, fun _ => by decide⟩
    · exact fun _ => by decide
    · omega
    · exact fun _ => by decide
    · omega

/-- At the front of bytes stands a character, or the beginning of one and nothing behind it, or a malformed part. -/
theorem exists_front (hbs : bs ≠ []) :
    (∃ front r n, Sequence front n ∧ bs = front ++ r) ∨
    (∃ more n, Sequence (bs ++ more) n ∧ more ≠ [] ∧ 0xA0 ≤ n) ∨ ∃ ps, pieces bs = .malformed :: ps := by
  obtain ⟨a, r, rfl⟩ := List.exists_cons_of_ne_nil hbs
  obtain ⟨second, hsecond, hC2⟩ := exists_second a
  have hzero : low 0x80 = 0 := rfl
  -- the width of the first byte, and at each byte whether it is there and may follow
  rcases width_cases a with ⟨hone, -⟩ | ⟨htwo, hfirst⟩ | ⟨hthree, -⟩ | ⟨hfour, -⟩ | hnone
  · exact .inl ⟨[a], r, _, .one hone, rfl⟩
  · cases r with
    | nil =>
      refine .inr (.inl ⟨[second], _, .two htwo hsecond, List.cons_ne_nil _ _, ?_⟩)
      obtain ⟨⟨hb, hb'⟩, -⟩ := bounds_of_maySecond hsecond
      rw [low]
      omega
    | cons b r =>
      by_cases hb : maySecond a b = true
      · exact .inl ⟨[a, b], r, _, .two htwo hb, rfl⟩
      · refine .inr (.inr ⟨pieces (b :: r), ?_⟩)
        rw [pieces.eq_def]
        simp [htwo, hb]
  · cases r with
    | nil =>
      refine .inr (.inl ⟨[second, 0x80], _, .three hthree hsecond rfl, List.cons_ne_nil _ _, ?_⟩)
      have hlarge := large_of_three hthree hsecond (low 0x80)
      omega
    | cons b r =>
      by_cases hb : maySecond a b = true
      · cases r with
        | nil =>
          refine .inr (.inl ⟨[0x80], _, .three hthree hb rfl, List.cons_ne_nil _ _, ?_⟩)
          have hlarge := large_of_three hthree hb (low 0x80)
          omega
        | cons c r =>
          by_cases hc : isContinuation c = true
          · exact .inl ⟨[a, b, c], r, _, .three hthree hb hc, rfl⟩
          · refine .inr (.inr ⟨pieces (c :: r), ?_⟩)
            rw [pieces.eq_def]
            simp [hthree, hb, hc]
      · refine .inr (.inr ⟨pieces (b :: r), ?_⟩)
        rw [pieces.eq_def]
        simp [hthree, hb]
  · cases r with
    | nil =>
      refine .inr (.inl ⟨[second, 0x80, 0x80], _, .four hfour hsecond rfl rfl, List.cons_ne_nil _ _, ?_⟩)
      have hlarge := large_of_four hfour hsecond (low 0x80 * 64 + low 0x80)
      omega
    | cons b r =>
      by_cases hb : maySecond a b = true
      · cases r with
        | nil =>
          refine .inr (.inl ⟨[0x80, 0x80], _, .four hfour hb rfl rfl, List.cons_ne_nil _ _, ?_⟩)
          have hlarge := large_of_four hfour hb (low 0x80 * 64 + low 0x80)
          omega
        | cons c r =>
          by_cases hc : isContinuation c = true
          · cases r with
            | nil =>
              refine .inr (.inl ⟨[0x80], _, .four hfour hb hc rfl, List.cons_ne_nil _ _, ?_⟩)
              have hlarge := large_of_four hfour hb (low c * 64 + low 0x80)
              omega
            | cons d r =>
              by_cases hd : isContinuation d = true
              · exact .inl ⟨[a, b, c, d], r, _, .four hfour hb hc hd, rfl⟩
              · refine .inr (.inr ⟨pieces (d :: r), ?_⟩)
                rw [pieces.eq_def]
                simp [hfour, hb, hc, hd]
          · refine .inr (.inr ⟨pieces (c :: r), ?_⟩)
            rw [pieces.eq_def]
            simp [hfour, hb, hc]
      · refine .inr (.inr ⟨pieces (b :: r), ?_⟩)
        rw [pieces.eq_def]
        simp [hfour, hb]
  · refine .inr (.inr ⟨pieces r, ?_⟩)
    rw [pieces.eq_def]
    simp [hnone]

end Sequences

/-! ## Texts that are cut off -/

section Heads
variable {bs : Bytes} {s t : Text}

theorem head?_char (c : Char) (ps : List Piece) : head? (.char c :: ps) = (head? ps).map (c :: ·) := rfl

/-- A text that is cut off is read up to the last whole character. -/
theorem decodeHead?_of_prefix (h : bs <+: encode t) : ∃ s, decodeHead? bs = some s ∧ s <+: t := by
  induction t generalizing bs with
  | nil =>
    obtain rfl := List.prefix_nil.mp h
    exact ⟨[], rfl, List.prefix_rfl⟩
  | cons c t ih =>
    rw [encode_cons] at h
    rcases List.prefix_or_prefix_of_prefix (List.prefix_append (encodeChar c) (encode t)) h with hwhole | hinside
    · obtain ⟨r, rfl⟩ := hwhole
      obtain ⟨s, hs, hprefix⟩ := ih ((List.prefix_append_right_inj _).mp h)
      refine ⟨c :: s, ?_, List.cons_prefix_cons.mpr ⟨rfl, hprefix⟩⟩
      rw [decodeHead?] at hs ⊢
      rw [pieces_encodeChar, head?_char, hs]
      rfl
    · obtain ⟨more, hmore⟩ := hinside
      by_cases hbs : bs = []
      · subst hbs
        exact ⟨[], rfl, List.nil_prefix⟩
      · by_cases hover : more = []
        · rw [hover, List.append_nil] at hmore
          refine ⟨[c], ?_, List.cons_prefix_cons.mpr ⟨rfl, List.nil_prefix⟩⟩
          rw [decodeHead?, hmore, ← List.append_nil (encodeChar c), pieces_encodeChar]
          rfl
        · have hcut := (hmore ▸ sequence_encodeChar c : Sequence (bs ++ more) c.toNat).pieces_cut hbs hover
          exact ⟨[], by rw [decodeHead?, hcut]; rfl, List.nil_prefix⟩

/-- What is read as the head of a text is one, and the text can go on without control characters. -/
theorem exists_text_of_decodeHead? (h : decodeHead? bs = some s) :
    ∃ more : Text, bs <+: encode (s ++ more) ∧ ∀ c ∈ more, 0xA0 ≤ c.toNat := by
  -- what is left is shorter after each character, by one byte or more
  induction hlength : bs.length using Nat.strongRecOn generalizing bs s with
  | ind n ih =>
    subst hlength
    by_cases hbs : bs = []
    · subst hbs
      exact ⟨[], List.nil_prefix, List.forall_mem_nil _⟩
    · rcases exists_front hbs with ⟨front, r, n, hfront, rfl⟩ | ⟨rest, n, hrest, hover, hlarge⟩ | ⟨ps, hps⟩
      · obtain ⟨c, -, rfl⟩ := hfront.exists_char
        rw [decodeHead?, pieces_encodeChar, head?_char, Option.map_eq_some_iff] at h
        obtain ⟨s, hs, rfl⟩ := h
        have hshorter : r.length < (encodeChar c ++ r).length := by
          have := List.length_pos_iff.mpr (encodeChar_ne_nil c)
          rw [List.length_append]
          omega
        obtain ⟨more, hprefix, hmore⟩ := ih _ hshorter hs rfl
        refine ⟨more, ?_, hmore⟩
        rw [List.cons_append, encode_cons]
        exact (List.prefix_append_right_inj _).mpr hprefix
      · rw [decodeHead?, hrest.pieces_cut hbs hover] at h
        obtain rfl := Option.some.inj h
        obtain ⟨c, hc, hbytes⟩ := hrest.exists_char
        refine ⟨[c], ?_, List.forall_mem_singleton.mpr (hc ▸ hlarge)⟩
        rw [List.nil_append, encode_cons, encode_nil, List.append_nil, hbytes]
        exact List.prefix_append _ _
      · rw [decodeHead?, hps] at h
        cases h

end Heads
end EntryServer.Utf8
