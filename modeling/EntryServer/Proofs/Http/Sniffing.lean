import EntryServer.Http.Entry
import EntryServer.Proofs.Text.Heads

/-! # Looking at the head of a content

Only the first bytes of a content are looked at, so a text may be cut off inside of a character. It is taken for a text
nevertheless, whatever the place of the cut is: a head is taken for binary exactly if no text begins with it. -/
namespace EntryServer.Http
set_option autoImplicit false

namespace MediaType

/-! ## Texts and signatures -/

/-- A text with no control characters but tabs, line feeds, form feeds and carriage returns. -/
def IsPlain (t : Text) : Prop :=
  ∀ c ∈ t, c.toNat < 0x20 ∨ 0x7F ≤ c.toNat ∧ c.toNat ≤ 0x9F → c ∈ ['\t', '\n', '\x0C', '\r']

instance (t : Text) : Decidable (IsPlain t) := List.decidableBAll _ t

def pngSignature : Bytes := [0x89, 0x50, 0x4E, 0x47, 0x0D, 0x0A, 0x1A, 0x0A]

def gifSignatures : List Bytes := [Ascii.bytes "GIF87a", Ascii.bytes "GIF89a"]

def jpegSignature : Bytes := [0xFF, 0xD8, 0xFF]

def pdfSignature : Bytes := Ascii.bytes "%PDF-"

def signatures : List Bytes := pngSignature :: jpegSignature :: pdfSignature :: gifSignatures

/-- The types that a text may be taken for: some texts begin as a file of another type does. -/
def TakenFor (head : Bytes) (type : MediaType) : Prop :=
  type = .html ∨ type = .plain ∨ type = .gif ∧ (∃ s ∈ gifSignatures, s <+: head) ∨ type = .pdf ∧ pdfSignature <+: head

section Heads
variable {head more : Bytes} {t : Text} {type : MediaType}

theorem isBinary_iff {c : Char} : isBinary c = true ↔
    (c.toNat < 0x20 ∨ 0x7F ≤ c.toNat ∧ c.toNat ≤ 0x9F) ∧ c ∉ ['\t', '\n', '\x0C', '\r'] := by
  simp [isBinary, Blank.isControl, and_comm, and_left_comm, and_assoc]

theorem isPlain_iff : IsPlain t ↔ t.any isBinary = false := by
  simp only [IsPlain, List.any_eq_false, isBinary_iff, not_and, Decidable.not_not]

theorem IsPlain.front {s : Text} (h : IsPlain t) (hs : s <+: t) : IsPlain s := fun c hc => h c (hs.subset hc)

/-- From U+00A0 on there are no control characters. -/
theorem IsPlain.append {s : Text} (h : IsPlain t) (hs : ∀ c ∈ s, 0xA0 ≤ c.toNat) : IsPlain (t ++ s) := by
  refine List.forall_mem_append.mpr ⟨h, fun c hc hcontrol => ?_⟩
  have := hs c hc
  omega

theorem ofSignature?_cases (head : Bytes) :
    ofSignature? head = some .png ∧ pngSignature <+: head ∨
    ofSignature? head = some .gif ∧ (∃ s ∈ gifSignatures, s <+: head) ∨
    ofSignature? head = some .jpeg ∧ jpegSignature <+: head ∨
    ofSignature? head = some .pdf ∧ pdfSignature <+: head ∨
    ofSignature? head = none ∧ ∀ s ∈ signatures, ¬ s <+: head := by
  unfold ofSignature?
  split
  · next hpng => exact .inl ⟨rfl, List.isPrefixOf_iff_prefix.mp hpng⟩
  · next hpng =>
    split
    · next hgif =>
      refine .inr (.inl ⟨rfl, ?_⟩)
      simpa [gifSignatures, List.isPrefixOf_iff_prefix] using hgif
    · next hgif =>
      split
      · next hjpeg => exact .inr (.inr (.inl ⟨rfl, List.isPrefixOf_iff_prefix.mp hjpeg⟩))
      · next hjpeg =>
        split
        · next hpdf => exact .inr (.inr (.inr (.inl ⟨rfl, List.isPrefixOf_iff_prefix.mp hpdf⟩)))
        · next hpdf =>
          refine .inr (.inr (.inr (.inr ⟨rfl, ?_⟩)))
          simp only [List.isPrefixOf_iff_prefix, Bool.or_eq_true, not_or] at hpng hgif hjpeg hpdf
          simpa [signatures, gifSignatures] using ⟨hpng, hjpeg, hpdf, hgif⟩

theorem ofText_cases (t : Text) : ofText t = .html ∨ ofText t = .plain := by
  simp only [ofText]
  split
  · exact .inl rfl
  · exact .inr rfl

/-- No text begins with a byte that begins no character. -/
theorem not_prefix_encode {b : UInt8} {r : Bytes} (hb : Utf8.decodeHead? [b] = none) : ¬ b :: r <+: Utf8.encode t := by
  intro h
  obtain ⟨s, hs, -⟩ := Utf8.decodeHead?_of_prefix ((List.prefix_append [b] r).trans h)
  rw [hb] at hs
  cases hs

/-! ## Heads -/

/-- Where there is no signature, the characters decide. -/
theorem ofHead_of_no_signature (h : ofSignature? head = none) : ofHead head =
    match Utf8.decodeHead? head with
    | none => octetStream
    | some text => if text.any isBinary then octetStream else ofText text := by
  cases hd : Utf8.decodeHead? head with
  | none => simp only [ofHead, h, hd]
  | some text => simp only [ofHead, h, hd]

/-- However a text is cut off, it is taken for a text, unless it begins with one of two signatures. -/
theorem takenFor_of_text (ht : IsPlain t) (h : head <+: Utf8.encode t) : TakenFor head (ofHead head) := by
  rcases ofSignature?_cases head with ⟨-, hpng⟩ | ⟨hsig, hgif⟩ | ⟨-, hjpeg⟩ | ⟨hsig, hpdf⟩ | ⟨hsig, -⟩
  · exact absurd (hpng.trans h) (not_prefix_encode (by decide))
  · rw [ofHead, hsig]
    exact .inr (.inr (.inl ⟨rfl, hgif⟩))
  · exact absurd (hjpeg.trans h) (not_prefix_encode (by decide))
  · rw [ofHead, hsig]
    exact .inr (.inr (.inr ⟨rfl, hpdf⟩))
  · obtain ⟨s, hs, hprefix⟩ := Utf8.decodeHead?_of_prefix h
    have hplain := isPlain_iff.mp (ht.front hprefix)
    rw [ofHead_of_no_signature hsig, hs]
    simp only [hplain, Bool.false_eq_true, if_false]
    rcases ofText_cases s with htype | htype
    · exact .inl htype
    · exact .inr (.inl htype)

/-- What is taken for a text begins one. -/
theorem exists_text_of_ofHead (h : ofHead head = .html ∨ ofHead head = .plain) :
    ∃ t, IsPlain t ∧ head <+: Utf8.encode t := by
  have hother : ∀ {type}, ofSignature? head = some type → ofHead head = type := fun hsig => by rw [ofHead, hsig]
  rcases ofSignature?_cases head with ⟨hsig, -⟩ | ⟨hsig, -⟩ | ⟨hsig, -⟩ | ⟨hsig, -⟩ | ⟨hsig, -⟩
  · simp [hother hsig] at h
  · simp [hother hsig] at h
  · simp [hother hsig] at h
  · simp [hother hsig] at h
  · rw [ofHead_of_no_signature hsig] at h
    split at h
    · simp at h
    · next s hs =>
      split at h
      · simp at h
      · next hbinary =>
        obtain ⟨more, hprefix, hmore⟩ := Utf8.exists_text_of_decodeHead? hs
        exact ⟨s ++ more, (isPlain_iff.mpr (Bool.eq_false_iff.mpr hbinary)).append hmore, hprefix⟩

/-- A head with no signature is either taken for a text or for binary. -/
theorem ofHead_of_unsigned (h : ofSignature? head = none) :
    ofHead head = .octetStream ∨ ofHead head = .html ∨ ofHead head = .plain := by
  rw [ofHead_of_no_signature h]
  split
  · exact .inl rfl
  · split
    · exact .inl rfl
    · exact .inr (ofText_cases _)

theorem ofHead_eq_octetStream_iff : ofHead head = .octetStream ↔
    (∀ s ∈ signatures, ¬ s <+: head) ∧ ¬ ∃ t, IsPlain t ∧ head <+: Utf8.encode t := by
  constructor
  · intro h
    refine ⟨?_, fun ⟨t, ht, hprefix⟩ => ?_⟩
    · rcases ofSignature?_cases head with ⟨hsig, -⟩ | ⟨hsig, -⟩ | ⟨hsig, -⟩ | ⟨hsig, -⟩ | ⟨-, hnone⟩
      · simp [ofHead, hsig] at h
      · simp [ofHead, hsig] at h
      · simp [ofHead, hsig] at h
      · simp [ofHead, hsig] at h
      · exact hnone
    · have htaken := takenFor_of_text ht hprefix
      simp [h, TakenFor] at htaken
  · rintro ⟨hnone, hbinary⟩
    have hunsigned : ofSignature? head = none := by
      rcases ofSignature?_cases head with ⟨-, hpng⟩ | ⟨-, s, hs, hgif⟩ | ⟨-, hjpeg⟩ | ⟨-, hpdf⟩ | ⟨hsig, -⟩
      · exact absurd hpng (hnone _ (by simp [signatures]))
      · exact absurd hgif (hnone s (by simp [signatures, hs]))
      · exact absurd hjpeg (hnone _ (by simp [signatures]))
      · exact absurd hpdf (hnone _ (by simp [signatures]))
      · exact hsig
    rcases ofHead_of_unsigned hunsigned with h | h
    · exact h
    · exact absurd (exists_text_of_ofHead h) hbinary

/-- What no text begins with does not become the beginning of one. -/
theorem not_text_of_append (h : ofHead head = .octetStream) :
    ofHead (head ++ more) ≠ .html ∧ ofHead (head ++ more) ≠ .plain := by
  rw [← not_or]
  intro htext
  obtain ⟨t, ht, hprefix⟩ := exists_text_of_ofHead htext
  exact (ofHead_eq_octetStream_iff.mp h).2 ⟨t, ht, (List.prefix_append head more).trans hprefix⟩

end Heads

/-! ## Answers -/

section Answers
variable {files : FileTree} {p : EntryPath} {content : Bytes} {t : Text}

/-- Where neither a stored field nor the name decides, the head of the content does. -/
theorem get_of_head (hread : Store.read files p = .ok content)
    (hstored : (Entry.storedHeaders files p).has "content-type" = false) (hname : ofName? p.name = none) :
    Entry.get files p = .ok ⟨.ok, Entry.storedHeaders files p ++
      [("content-type".toList, Ascii.bytes (ofHead (content.take headLength)).text),
        ("content-length".toList, Header.ofNat content.length)], content⟩ := by
  simp only [Entry.get, hread, Headers.addIfMissing, hstored, Bool.false_eq_true, if_false, Entry.guessedType, hname,
    Option.getD_none, List.append_assoc, List.cons_append, List.nil_append]

/-- A head is taken for binary exactly if it has no signature and no text begins with it. So a text is announced as
one wherever its head ends, but for two signatures that texts may have, and no more bytes make a text of a binary
head. -/
theorem sniffing_keeps_text :
    (∀ head, ofHead head = .octetStream ↔
      (∀ s ∈ signatures, ¬ s <+: head) ∧ ¬ ∃ t, IsPlain t ∧ head <+: Utf8.encode t) ∧
    (∀ t k, IsPlain t → TakenFor ((Utf8.encode t).take k) (ofHead ((Utf8.encode t).take k))) ∧
    (∀ files p content t, Store.read files p = .ok content →
      (Entry.storedHeaders files p).has "content-type" = false → ofName? p.name = none →
      IsPlain t → content.take headLength <+: Utf8.encode t →
      ∃ type, TakenFor (content.take headLength) type ∧
        Entry.get files p = .ok ⟨.ok, Entry.storedHeaders files p ++
          [("content-type".toList, Ascii.bytes type.text), ("content-length".toList, Header.ofNat content.length)],
          content⟩) ∧
    ∀ head more, ofHead head = .octetStream → ofHead (head ++ more) ≠ .html ∧ ofHead (head ++ more) ≠ .plain :=
  ⟨fun _ => ofHead_eq_octetStream_iff, fun _ k ht => takenFor_of_text ht (List.take_prefix k _),
    fun _ _ _ _ hread hstored hname ht hprefix =>
      ⟨_, takenFor_of_text ht hprefix, get_of_head hread hstored hname⟩,
    fun _ _ h => not_text_of_append h⟩

/-- A text of 513 bytes whose last character begins with the last byte that is looked at. -/
def letter : Text := List.replicate 511 'a' ++ ['é']

def lettered : FileTree :=
  ((Store.write (EntryPath.root.child "letter".toList) (Utf8.encode letter)).run.run
    (FileTree.empty "data/".toList)).2

theorem sniffing_keeps_text_letter :
    Utf8.decode? ((Utf8.encode letter).take headLength) = none ∧
    (∃ type : MediaType, (type = .html ∨ type = .plain) ∧
      Entry.get lettered (EntryPath.root.child "letter".toList) =
        .ok ⟨.ok, [("content-type".toList, Ascii.bytes type.text), ("content-length".toList, Ascii.bytes "513")],
          Utf8.encode letter⟩) ∧
    ¬ ∃ t, IsPlain t ∧ [0xC3, 0x28] <+: Utf8.encode t := by
  obtain ⟨hbinary, -, hget, -⟩ := sniffing_keeps_text
  have hread : Store.read lettered (EntryPath.root.child "letter".toList) = .ok (Utf8.encode letter) := by
    decide +kernel
  have hfields : Entry.storedHeaders lettered (EntryPath.root.child "letter".toList) = [] := by decide +kernel
  refine ⟨by decide +kernel, ?_, ((hbinary [0xC3, 0x28]).mp (by decide +kernel)).2⟩
  obtain ⟨type, htype, heq⟩ := hget _ _ _ letter hread (by rw [hfields]; rfl) (by decide +kernel) (by decide +kernel)
    (List.take_prefix _ _)
  have hlength : Header.ofNat (Utf8.encode letter).length = Ascii.bytes "513" := by decide +kernel
  refine ⟨type, ?_, by rw [heq, hfields, hlength, List.nil_append]⟩
  rcases htype with h | h | ⟨-, hgif⟩ | ⟨-, hpdf⟩
  · exact .inl h
  · exact .inr h
  · exact absurd hgif (by decide +kernel)
  · exact absurd hpdf (by decide +kernel)

end Answers
end MediaType
end EntryServer.Http
