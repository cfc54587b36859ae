import EntryServer.Text.Utf8

/-! # Reading what was written

A text is read back from its bytes. The first byte of a character tells how many there are, and every byte of a
character outside ASCII is outside ASCII itself. The bytes keep the order of the characters. -/
namespace EntryServer.Utf8
set_option autoImplicit false

theorem encode_nil : encode [] = [] := rfl

theorem encode_cons (c : Char) (t : Text) : encode (c :: t) = encodeChar c ++ encode t := List.flatMap_cons

theorem encode_append (s t : Text) : encode (s ++ t) = encode s ++ encode t := List.flatMap_append

/-! ## Bytes -/

theorem scalar (c : Char) : c.toNat < 0xD800 ∨ 0xDFFF < c.toNat ∧ c.toNat < 0x110000 := c.valid

theorem toNat_toUInt8 {n : Nat} (h : n < 256) : n.toUInt8.toNat = n := Nat.mod_eq_of_lt h

section Widths
variable {a b : UInt8}

theorem width_one (h : a.toNat < 0x80) : width a = 1 := by
  rw [width, if_pos (UInt8.lt_iff_toNat_lt.mpr h)]

theorem width_two (h : 0xC2 ≤ a.toNat) (h' : a.toNat ≤ 0xDF) : width a = 2 := by
  have hone : ¬ a.toNat < 0x80 := by omega
  simp [width, UInt8.lt_iff_toNat_lt, UInt8.le_iff_toNat_le, hone, h, h']

theorem width_three (h : 0xE0 ≤ a.toNat) (h' : a.toNat ≤ 0xEF) : width a = 3 := by
  have hone : ¬ a.toNat < 0x80 := by omega
  have htwo : ¬ a.toNat ≤ 0xDF := by omega
  simp [width, UInt8.lt_iff_toNat_lt, UInt8.le_iff_toNat_le, hone, htwo, h, h']

theorem width_four (h : 0xF0 ≤ a.toNat) (h' : a.toNat ≤ 0xF4) : width a = 4 := by
  have hone : ¬ a.toNat < 0x80 := by omega
  have htwo : ¬ a.toNat ≤ 0xDF := by omega
  have hthree : ¬ a.toNat ≤ 0xEF := by omega
  simp [width, UInt8.lt_iff_toNat_lt, UInt8.le_iff_toNat_le, hone, htwo, hthree, h, h']

theorem isContinuation_iff : isContinuation b = true ↔ 0x80 ≤ b.toNat ∧ b.toNat ≤ 0xBF := by
  simp [isContinuation, UInt8.le_iff_toNat_le]

/-- A second byte may follow if it makes the number neither too small for its width, nor a surrogate, nor too
large. -/
theorem maySecond_of_bounds (hb : 0x80 ≤ b.toNat) (hb' : b.toNat ≤ 0xBF) (hE0 : a.toNat = 0xE0 → 0xA0 ≤ b.toNat)
    (hED : a.toNat = 0xED → b.toNat ≤ 0x9F) (hF0 : a.toNat = 0xF0 → 0x90 ≤ b.toNat)
    (hF4 : a.toNat = 0xF4 → b.toNat ≤ 0x8F) : maySecond a b = true := by
  simp only [maySecond, isContinuation, beq_iff_eq, ← UInt8.toNat_inj, UInt8.le_iff_toNat_le]
  split
  · next h => simpa using ⟨hE0 h, hb'⟩
  · split
    · next h => simpa using ⟨hb, hED h⟩
    · split
      · next h => simpa using ⟨hF0 h, hb'⟩
      · split
        · next h => simpa using ⟨hb, hF4 h⟩
        · simpa using ⟨hb, hb'⟩

/-- What a second byte is like that may follow. -/
theorem bounds_of_maySecond (h : maySecond a b = true) : (0x80 ≤ b.toNat ∧ b.toNat ≤ 0xBF) ∧
    (a.toNat = 0xE0 → 0xA0 ≤ b.toNat) ∧ (a.toNat = 0xED → b.toNat ≤ 0x9F) ∧ (a.toNat = 0xF0 → 0x90 ≤ b.toNat) ∧
    (a.toNat = 0xF4 → b.toNat ≤ 0x8F) := by
  simp only [maySecond, isContinuation, beq_iff_eq, ← UInt8.toNat_inj, UInt8.le_iff_toNat_le] at h
  split at h
  · next hE0 =>
    have hb : 0xA0 ≤ b.toNat ∧ b.toNat ≤ 0xBF := by simpa using h
    have hE0 : a.toNat = 0xE0 := hE0
    omega
  · split at h
    · next hED =>
      have hb : 0x80 ≤ b.toNat ∧ b.toNat ≤ 0x9F := by simpa using h
      have hED : a.toNat = 0xED := hED
      omega
    · split at h
      · next hF0 =>
        have hb : 0x90 ≤ b.toNat ∧ b.toNat ≤ 0xBF := by simpa using h
        have hF0 : a.toNat = 0xF0 := hF0
        omega
      · split at h
        · next hF4 =>
          have hb : 0x80 ≤ b.toNat ∧ b.toNat ≤ 0x8F := by simpa using h
          have hF4 : a.toNat = 0xF4 := hF4
          omega
        · next hE0 hED hF0 hF4 =>
          have hb : 0x80 ≤ b.toNat ∧ b.toNat ≤ 0xBF := by simpa using h
          exact ⟨hb, fun heq => absurd heq hE0, fun heq => absurd heq hED, fun heq => absurd heq hF0,
            fun heq => absurd heq hF4⟩

/-- What a first byte is like. -/
theorem width_cases (a : UInt8) : width a = 1 ∧ a.toNat < 0x80 ∨ width a = 2 ∧ 0xC2 ≤ a.toNat ∧ a.toNat ≤ 0xDF ∨
    width a = 3 ∧ 0xE0 ≤ a.toNat ∧ a.toNat ≤ 0xEF ∨ width a = 4 ∧ 0xF0 ≤ a.toNat ∧ a.toNat ≤ 0xF4 ∨ width a = 0 := by
  simp only [width, UInt8.lt_iff_toNat_lt, UInt8.le_iff_toNat_le, Bool.and_eq_true, decide_eq_true_eq]
  split
  · next hone => exact .inl ⟨rfl, hone⟩
  · split
    · next htwo => exact .inr (.inl ⟨rfl, htwo⟩)
    · split
      · next hthree => exact .inr (.inr (.inl ⟨rfl, hthree⟩))
      · split
        · next hfour => exact .inr (.inr (.inr (.inl ⟨rfl, hfour⟩)))
        · exact .inr (.inr (.inr (.inr rfl)))

end Widths

/-! ## Characters -/

theorem encodeChar_ascii {c : Char} (h : c.toNat < 0x80) : encodeChar c = [c.toNat.toUInt8] := by
  rw [encodeChar, if_pos h]

/-- The bytes of a character outside ASCII are outside ASCII. -/
theorem high_of_mem_encodeChar {c : Char} (h : 0x80 ≤ c.toNat) {b : UInt8} (hb : b ∈ encodeChar c) :
    0x80 ≤ b.toNat := by
  have hscalar := scalar c
  rw [encodeChar, if_neg (Nat.not_lt.mpr h)] at hb
  generalize c.toNat = n at h hscalar hb
  split at hb
  · simp only [List.mem_cons, List.not_mem_nil, or_false] at hb
    rcases hb with rfl | rfl <;> rw [toNat_toUInt8 (by omega)] <;> omega
  · split at hb
    · simp only [List.mem_cons, List.not_mem_nil, or_false] at hb
      rcases hb with rfl | rfl | rfl <;> rw [toNat_toUInt8 (by omega)] <;> omega
    · simp only [List.mem_cons, List.not_mem_nil, or_false] at hb
      rcases hb with rfl | rfl | rfl | rfl <;> rw [toNat_toUInt8 (by omega)] <;> omega

section Pieces
variable {a b c d : UInt8} {r : Bytes}

theorem pieces_one (ha : width a = 1) : pieces (a :: r) = .char (Char.ofNat a.toNat) :: pieces r := by
  rw [pieces.eq_def]
  simp [ha]

theorem pieces_two (ha : width a = 2) (hb : maySecond a b = true) :
    pieces (a :: b :: r) = .char (Char.ofNat (a.toNat % 32 * 64 + low b)) :: pieces r := by
  rw [pieces.eq_def]
  simp [ha, hb]

theorem pieces_three (ha : width a = 3) (hb : maySecond a b = true) (hc : isContinuation c = true) :
    pieces (a :: b :: c :: r) = .char (Char.ofNat (a.toNat % 16 * 4096 + low b * 64 + low c)) :: pieces r := by
  rw [pieces.eq_def]
  simp [ha, hb, hc]

theorem pieces_four (ha : width a = 4) (hb : maySecond a b = true) (hc : isContinuation c = true)
    (hd : isContinuation d = true) : pieces (a :: b :: c :: d :: r) =
      .char (Char.ofNat (a.toNat % 8 * 262144 + low b * 4096 + low c * 64 + low d)) :: pieces r := by
  rw [pieces.eq_def]
  simp [ha, hb, hc, hd]

end Pieces

/-! ## Sequences

The bytes of one character, by what each of them may be. They are at once what is written for the character and what
is read as one. -/

/-- The bytes of a character, with its number. -/
inductive Sequence : Bytes → Nat → Prop
  | one {a : UInt8} (ha : width a = 1) : Sequence [a] a.toNat
  | two {a b : UInt8} (ha : width a = 2) (hb : maySecond a b = true) : Sequence [a, b] (a.toNat % 32 * 64 + low b)
  | three {a b c : UInt8} (ha : width a = 3) (hb : maySecond a b = true) (hc : isContinuation c = true) :
    Sequence [a, b, c] (a.toNat % 16 * 4096 + low b * 64 + low c)
  | four {a b c d : UInt8} (ha : width a = 4) (hb : maySecond a b = true) (hc : isContinuation c = true)
    (hd : isContinuation d = true) :
    Sequence [a, b, c, d] (a.toNat % 8 * 262144 + low b * 4096 + low c * 64 + low d)

theorem sequence_encodeChar (c : Char) : Sequence (encodeChar c) c.toNat := by
  have hscalar := scalar c
  rw [encodeChar]
  generalize c.toNat = n at hscalar ⊢
  split
  · have ha : n.toUInt8.toNat = n := toNat_toUInt8 (by omega)
    have hsequence := Sequence.one (width_one (a := n.toUInt8) (by omega))
    rwa [ha] at hsequence
  · split
    · have ha := toNat_toUInt8 (n := 0xC0 + n / 64) (by omega)
      have hb := toNat_toUInt8 (n := 0x80 + n % 64) (by omega)
      generalize (0xC0 + n / 64).toUInt8 = a at ha ⊢
      generalize (0x80 + n % 64).toUInt8 = b at hb ⊢
      have hvalue : a.toNat % 32 * 64 + low b = n := by rw [low]; omega
      have hsecond := maySecond_of_bounds (a := a) (b := b) (by omega) (by omega) (by omega) (by omega) (by omega)
        (by omega)
      exact hvalue ▸ .two (width_two (by omega) (by omega)) hsecond
    · split
      · have ha := toNat_toUInt8 (n := 0xE0 + n / 4096) (by omega)
        have hb := toNat_toUInt8 (n := 0x80 + n / 64 % 64) (by omega)
        have hc := toNat_toUInt8 (n := 0x80 + n % 64) (by omega)
        generalize (0xE0 + n / 4096).toUInt8 = a at ha ⊢
        generalize (0x80 + n / 64 % 64).toUInt8 = b at hb ⊢
        generalize (0x80 + n % 64).toUInt8 = d at hc ⊢
        have hvalue : a.toNat % 16 * 4096 + low b * 64 + low d = n := by rw [low, low]; omega
        have hsecond := maySecond_of_bounds (a := a) (b := b) (by omega) (by omega) (by omega) (by omega) (by omega)
          (by omega)
        exact hvalue ▸ .three (width_three (by omega) (by omega)) hsecond (isContinuation_iff.mpr (by omega))
      · have ha := toNat_toUInt8 (n := 0xF0 + n / 262144) (by omega)
        have hb := toNat_toUInt8 (n := 0x80 + n / 4096 % 64) (by omega)
        have hc := toNat_toUInt8 (n := 0x80 + n / 64 % 64) (by omega)
        have hd := toNat_toUInt8 (n := 0x80 + n % 64) (by omega)
        generalize (0xF0 + n / 262144).toUInt8 = a at ha ⊢
        generalize (0x80 + n / 4096 % 64).toUInt8 = b at hb ⊢
        generalize (0x80 + n / 64 % 64).toUInt8 = d at hc ⊢
        generalize (0x80 + n % 64).toUInt8 = e at hd ⊢
        have hvalue : a.toNat % 8 * 262144 + low b * 4096 + low d * 64 + low e = n := by
          rw [low, low, low]
          omega
        have hsecond := maySecond_of_bounds (a := a) (b := b) (by omega) (by omega) (by omega) (by omega) (by omega)
          (by omega)
        exact hvalue ▸ .four (width_four (by omega) (by omega)) hsecond (isContinuation_iff.mpr (by omega))
          (isContinuation_iff.mpr (by omega))

theorem Sequence.pieces {bs : Bytes} {n : Nat} (h : Sequence bs n) (r : Bytes) :
    Utf8.pieces (bs ++ r) = .char (Char.ofNat n) :: Utf8.pieces r := by
  cases h with
  | one ha => exact pieces_one ha
  | two ha hb => exact pieces_two ha hb
  | three ha hb hc => exact pieces_three ha hb hc
  | four ha hb hc hd => exact pieces_four ha hb hc hd

theorem pieces_encodeChar (c : Char) (r : Bytes) : pieces (encodeChar c ++ r) = .char c :: pieces r := by
  rw [(sequence_encodeChar c).pieces, Char.ofNat_toNat]

/-- A text is what its bytes are read as. -/
theorem decode?_encode (t : Text) : decode? (encode t) = some t := by
  rw [decode?]
  induction t with
  | nil => rfl
  | cons c t ih => rw [encode_cons, pieces_encodeChar, whole?, ih, Option.map_some]

theorem encode_ne_nil {t : Text} (h : t ≠ []) : encode t ≠ [] := by
  intro hnil
  have hread := decode?_encode t
  rw [hnil] at hread
  exact h (Option.some.inj hread).symm

theorem encodeChar_ne_nil (c : Char) : encodeChar c ≠ [] := by
  have h := encode_ne_nil (List.cons_ne_nil c [])
  rwa [encode_cons, encode_nil, List.append_nil] at h

theorem encode_inj {s t : Text} (h : encode s = encode t) : s = t := by
  have hread := decode?_encode s
  rw [h, decode?_encode] at hread
  exact (Option.some.inj hread).symm

/-- A character of ASCII is read where its byte stands at the front. -/
theorem exists_of_encode_ascii {c : Char} (hc : c.toNat < 0x80) {t : Text} {r : Bytes}
    (h : encode t = c.toNat.toUInt8 :: r) : ∃ rest, t = c :: rest ∧ r = encode rest := by
  cases t with
  | nil => cases h
  | cons d t =>
    rw [encode_cons] at h
    by_cases hd : d.toNat < 0x80
    · rw [encodeChar_ascii hd, List.singleton_append] at h
      obtain ⟨hbyte, rfl⟩ := List.cons.inj h
      rw [← UInt8.toNat_inj, toNat_toUInt8 (by omega), toNat_toUInt8 (by omega)] at hbyte
      exact ⟨t, by rw [Char.toNat_inj.mp hbyte], rfl⟩
    · obtain ⟨b, more, hbytes⟩ := List.exists_cons_of_ne_nil (encodeChar_ne_nil d)
      have hhigh := high_of_mem_encodeChar (Nat.not_lt.mp hd) (hbytes ▸ List.mem_cons_self ..)
      rw [hbytes, List.cons_append] at h
      rw [(List.cons.inj h).1, toNat_toUInt8 (by omega)] at hhigh
      omega

/-! ## Bytes as characters -/

theorem toNat_ofNat {n : Nat} (h : n.isValidChar) : (Char.ofNat n).toNat = n := by
  rw [Char.ofNat, dif_pos h]
  rfl

theorem toNat_charOfByte (b : UInt8) : (Char.ofNat b.toNat).toNat = b.toNat :=
  toNat_ofNat (Or.inl (by have := b.toNat_lt; omega))

/-- Bytes of ASCII are a text. -/
theorem exists_text_of_ascii {bs : Bytes} (h : ∀ b ∈ bs, b.toNat < 0x80) : ∃ t, bs = encode t := by
  induction bs with
  | nil => exact ⟨[], rfl⟩
  | cons b bs ih =>
    obtain ⟨hb, hbs⟩ := List.forall_mem_cons.mp h
    obtain ⟨t, rfl⟩ := ih hbs
    have hbyte : b.toNat.toUInt8 = b := UInt8.toNat_inj.mp (toNat_toUInt8 b.toNat_lt)
    refine ⟨Char.ofNat b.toNat :: t, ?_⟩
    rw [encode_cons, encodeChar_ascii (by rwa [toNat_charOfByte]), toNat_charOfByte, hbyte]
    rfl

/-! ## Order -/

theorem byte_cons_lt {m n : Nat} {r r' : Bytes} (hm : m < 256) (hn : n < 256) (hle : m ≤ n) (hr : m = n → r < r') :
    m.toUInt8 :: r < n.toUInt8 :: r' := by
  rw [List.cons_lt_cons_iff, UInt8.lt_iff_toNat_lt, ← UInt8.toNat_inj, toNat_toUInt8 hm, toNat_toUInt8 hn]
  rcases Nat.lt_or_eq_of_le hle with hlt | heq
  · exact Or.inl hlt
  · exact Or.inr ⟨heq, hr heq⟩

/-- The bytes of characters are ordered as their numbers are, whatever follows. -/
theorem encodeChar_lt {c d : Char} (h : c.toNat < d.toNat) (r r' : Bytes) :
    encodeChar c ++ r < encodeChar d ++ r' := by
  have hscalar := scalar d
  rw [encodeChar, encodeChar]
  generalize c.toNat = m at h ⊢
  generalize d.toNat = n at h hscalar ⊢
  -- the first byte tells the width, and the longer of two characters has the larger number
  have hfirst : ∀ {a b : Nat} {s s' : Bytes}, a < b → b < 256 → a.toUInt8 :: s < b.toUInt8 :: s' :=
    fun hab hb => byte_cons_lt (by omega) hb (by omega) fun heq => absurd heq (by omega)
  split
  · split
    · exact hfirst h (by omega)
    · split
      · exact hfirst (by omega) (by omega)
      · split
        · exact hfirst (by omega) (by omega)
        · exact hfirst (by omega) (by omega)
  · split
    · rw [if_neg (by omega)]
      split
      · exact byte_cons_lt (by omega) (by omega) (by omega) fun _ => hfirst (by omega) (by omega)
      · split
        · exact hfirst (by omega) (by omega)
        · exact hfirst (by omega) (by omega)
    · split
      · rw [if_neg (by omega), if_neg (by omega)]
        split
        · exact byte_cons_lt (by omega) (by omega) (by omega) fun _ =>
            byte_cons_lt (by omega) (by omega) (by omega) fun _ => hfirst (by omega) (by omega)
        · exact hfirst (by omega) (by omega)
      · rw [if_neg (by omega), if_neg (by omega), if_neg (by omega)]
        exact byte_cons_lt (by omega) (by omega) (by omega) fun _ =>
          byte_cons_lt (by omega) (by omega) (by omega) fun _ =>
          byte_cons_lt (by omega) (by omega) (by omega) fun _ => hfirst (by omega) (by omega)

/-- Texts are ordered as their bytes are. -/
theorem encode_lt {s t : Text} (h : s < t) : encode s < encode t := by
  induction s generalizing t with
  | nil =>
    cases t with
    | nil => exact absurd h (List.lt_irrefl _)
    | cons d t =>
      cases hd : encode (d :: t) with
      | nil => exact absurd hd (encode_ne_nil (List.cons_ne_nil d t))
      | cons b bytes => exact List.nil_lt_cons b bytes
  | cons c s ih =>
    cases t with
    | nil => exact absurd h (List.not_lt_nil _)
    | cons d t =>
      rw [encode_cons, encode_cons]
      rcases List.cons_lt_cons_iff.mp h with hlt | ⟨rfl, hrest⟩
      · exact encodeChar_lt hlt _ _
      · exact List.append_left_lt (ih hrest)

end EntryServer.Utf8
