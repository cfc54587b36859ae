import EntryServer.Proofs.EntryPath.Facets
import EntryServer.Store.Basic
import Mathlib.Data.List.Basic

/-! # What a removal reaches

Removing an entry takes its content, the names beside it that look like its metadata, and the folder of its
children. Stated here of locations, and compared with the branch of the entry: of the facets of all entries
exactly those of the branch are taken, save the entry's own content that is being written. -/
namespace EntryServer
set_option autoImplicit false

namespace EntryPath

/-! ## Stems with metadata hops -/

/-- The characters that a number of metadata hops adds to a stem. -/
def metaText (k : Nat) : Text := (List.replicate k "meta".toList).flatten

theorem metaText_succ (k : Nat) : metaText (k + 1) = "meta".toList ++ metaText k := by
  simp [metaText, List.replicate_succ]

theorem metaText_succ' (k : Nat) : metaText (k + 1) = metaText k ++ "meta".toList := by
  simp [metaText, List.replicate_succ']

theorem dotless_metaText (k : Nat) : '.' ∉ metaText k := by
  induction k with
  | zero => simp [metaText]
  | succ k ih => simp [metaText_succ, ih]

/-- A way with metadata hops at its end. -/
def deeper (k : Nat) (hops : List Step) : List Step := List.replicate k .metadata ++ hops

theorem deeper_succ (k : Nat) (hops : List Step) : deeper (k + 1) hops = .metadata :: deeper k hops := by
  simp [deeper, List.replicate_succ]

theorem deeper_succ' (k : Nat) (hops : List Step) : deeper (k + 1) hops = deeper k (.metadata :: hops) := by
  simp [deeper, List.replicate_succ']

theorem suffix_deeper (k : Nat) (hops : List Step) : hops <:+ deeper k hops := List.suffix_append ..

theorem placeOf_deeper (k : Nat) (hops : List Step) :
    placeOf (deeper k hops) = ⟨(placeOf hops).folder, (placeOf hops).stem ++ metaText k⟩ := by
  induction k with
  | zero => simp [deeper, metaText]
  | succ k ih => rw [deeper_succ, placeOf, ih, metaText_succ', List.append_assoc]

theorem exists_deeper (hops : List Step) : ∃ k owner, hops = deeper k owner ∧ owner.head? ≠ some .metadata := by
  induction hops with
  | nil => exact ⟨0, [], rfl, by simp⟩
  | cons s above ih =>
    by_cases hs : s = .metadata
    · obtain ⟨k, owner, rfl, ho⟩ := ih
      exact ⟨k + 1, owner, by rw [hs, deeper_succ], ho⟩
    · exact ⟨0, s :: above, rfl, by simpa using hs⟩

/-- Without metadata hops at the end, a stem is empty or ends in a dot. -/
theorem stem_of_owner {owner : List Step} (h : owner.head? ≠ some .metadata) :
    (placeOf owner).stem = [] ∨ ∃ n, (placeOf owner).stem = n ++ ['.'] := by
  match owner, h with
  | [], _ => exact Or.inl rfl
  | .child n :: above, _ => exact Or.inr ⟨n, rfl⟩
  | .dir :: above, _ => exact Or.inl rfl

/-- A text is cut at its last dot in one way. -/
theorem cut_at_last_dot {b b' t t' : Text} (hb : b = [] ∨ ∃ n, b = n ++ ['.']) (hb' : b' = [] ∨ ∃ n, b' = n ++ ['.'])
    (ht : '.' ∉ t) (ht' : '.' ∉ t') (h : b ++ t = b' ++ t') : b = b' ∧ t = t' := by
  have ends : ∀ {b b' c : Text}, (b' = [] ∨ ∃ n, b' = n ++ ['.']) → b' = b ++ c → '.' ∉ c → c = [] := by
    intro b b' c hb' hbc hc
    rcases List.eq_nil_or_concat c with rfl | ⟨c, x, rfl⟩
    · rfl
    · rcases hb' with rfl | ⟨n, rfl⟩
      · simp at hbc
      · have hlast := congrArg List.getLast? hbc
        simp at hlast
        simp [← hlast] at hc
  rcases List.append_eq_append_iff.mp h with ⟨c, hc, hct⟩ | ⟨c, hc, hct⟩
  · obtain rfl := ends hb' hc fun hm => ht (by rw [hct]; exact List.mem_append_left _ hm)
    exact ⟨by simpa using hc.symm, by simpa using hct⟩
  · obtain rfl := ends hb hc fun hm => ht' (by rw [hct]; exact List.mem_append_left _ hm)
    exact ⟨by simpa using hc, by simpa using hct.symm⟩

/-- A facet has no more metadata in its name than its entry has hops: no ending begins like metadata. -/
theorem le_of_metaText {f : Facet} {rest : Text} :
    ∀ {m k : Nat}, metaText k ++ f.ending = metaText m ++ rest → m ≤ k
  | 0, _, _ => Nat.zero_le _
  | m + 1, 0, h => by
    rw [metaText_succ] at h
    cases f <;> simp [metaText, Facet.ending, Facet.word] at h
  | m + 1, k + 1, h => by
    rw [metaText_succ, metaText_succ, List.append_assoc, List.append_assoc] at h
    have := le_of_metaText (List.append_cancel_left h)
    omega

end EntryPath

namespace Store
open EntryPath

/-! ## Names of metadata -/

theorem isMetadataOf_iff {stem fileName : Text} : isMetadataOf stem fileName = true ↔
    ∃ rest, fileName = stem ++ "meta".toList ++ rest ∧ rest ≠ [] ∧ '.' ∉ rest := by
  unfold isMetadataOf
  split
  · next rest h =>
    rw [List.isPrefixOf?_eq_some_iff_append_eq] at h
    constructor
    · intro hr
      refine ⟨rest, h.symm, ?_⟩
      simpa using hr
    · rintro ⟨rest', h', hr⟩
      obtain rfl := List.append_cancel_left (h.trans h')
      simpa using hr
  · next h =>
    simp only [reduceCtorEq, false_iff, not_exists]
    rintro rest ⟨hf, -⟩
    rw [List.isPrefixOf?_eq_some_iff_append_eq.mpr hf.symm] at h
    exact absurd h (by simp)

/-- Beside an entry, the names that look like its metadata are the facets of its metadata, of the metadata
of that, and so on. -/
theorem isMetadataOf_facet_iff {e a : List Step} {f : Facet} (he : CanonicalHops e) (ha : CanonicalHops a)
    (hfolder : (placeOf a).folder = (placeOf e).folder) :
    isMetadataOf (placeOf e).stem ((placeOf a).stem ++ f.ending) = true ↔ ∃ k, a = deeper (k + 1) e := by
  rw [isMetadataOf_iff]
  constructor
  · rintro ⟨rest, hname, -, hrest⟩
    obtain ⟨i, oe, rfl, hoe⟩ := exists_deeper e
    obtain ⟨j, oa, rfl, hoa⟩ := exists_deeper a
    rw [placeOf_deeper, placeOf_deeper] at hname
    rw [placeOf_deeper, placeOf_deeper] at hfolder
    simp only [List.append_assoc] at hname
    rw [← List.append_assoc (metaText i), ← metaText_succ'] at hname
    obtain ⟨hstem, htail⟩ := cut_at_last_dot (stem_of_owner hoa) (stem_of_owner hoe)
      (by simp [dotless_metaText, Facet.dotless_ending]) (by simp [dotless_metaText, hrest]) hname
    have hplace : placeOf oa = placeOf oe := by
      cases hpa : placeOf oa
      cases hpe : placeOf oe
      simp_all
    obtain rfl := placeOf_inj (ha.suffix (suffix_deeper ..)) (he.suffix (suffix_deeper ..)) hplace
    have hij := le_of_metaText htail
    refine ⟨j - i - 1, ?_⟩
    rw [deeper, deeper, deeper, ← List.append_assoc, List.replicate_append_replicate]
    congr 2
    omega
  · rintro ⟨k, rfl⟩
    refine ⟨metaText k ++ f.ending, ?_, by simp [f.ending_ne_nil], by
      simp [dotless_metaText, f.dotless_ending]⟩
    rw [placeOf_deeper, metaText_succ]
    simp

/-- Going on into the metadata of an entry ends in metadata beside it, or goes on inside that. -/
theorem deeper_or_within {e hops : List Step} (h : .metadata :: e <:+ hops) :
    ∃ k, hops = deeper (k + 1) e ∨ Within (deeper (k + 1) e) hops := by
  induction hops with
  | nil => simp at h
  | cons s above ih =>
    rcases List.suffix_cons_iff.mp h with heq | h
    · obtain ⟨rfl, rfl⟩ := List.cons.inj heq
      exact ⟨0, Or.inl rfl⟩
    · obtain ⟨k, rfl | hw⟩ := ih h
      · by_cases hs : s = .metadata
        · exact ⟨k + 1, Or.inl (by rw [hs, ← deeper_succ])⟩
        · exact ⟨k, Or.inr (within_cons.mpr (Or.inl ⟨hs, rfl⟩))⟩
      · exact ⟨k, Or.inr (within_cons.mpr (Or.inr hw))⟩

/-! ## Removed locations -/

/-- The locations that removing an entry takes. -/
def Removed (e : EntryPath) (l : Location) : Prop :=
  l = e.place.data ∨ (∃ name, isMetadataOf e.place.stem name = true ∧ name :: e.place.folder <:+ l) ∨
    if e.isRoot then l ≠ [] else e.place.children <:+ l

/-- The entry whose branch decides whether a facet is removed: the folder of the children counts as a part
of the container. -/
def keeper (f : Facet) (hops : List Step) : EntryPath :=
  match f with
  | .children => ⟨.dir :: hops⟩
  | _ => ⟨hops⟩

theorem suffix_facet_iff {l : Location} {hops : List Step} {f : Facet} :
    l <:+ (placeOf hops).facet f ↔ l = (placeOf hops).facet f ∨ l <:+ (placeOf hops).folder :=
  List.suffix_cons_iff

/-- The folder of the children lies above what is inside the container. -/
theorem children_suffix_facet_iff {a hops : List Step} {f : Facet} (hca : CanonicalHops a)
    (hc : CanonicalHops hops) (ha : a ≠ []) (hd : a.head? ≠ some .dir) :
    (placeOf a).facet .children <:+ (placeOf hops).facet f ↔ Within a (keeper f hops).hops := by
  rw [suffix_facet_iff, suffix_folder_iff hca hc ha hd]
  constructor
  · rintro (h | h)
    · obtain ⟨rfl, rfl⟩ := facet_inj hca hc h
      exact within_dir_cons.mpr (Or.inl rfl)
    · cases f
      · exact h
      · exact h
      · exact within_dir_cons.mpr (Or.inr h)
  · intro h
    cases f
    · exact Or.inr h
    · exact Or.inr h
    · rcases within_dir_cons.mp h with rfl | h
      · exact Or.inl rfl
      · exact Or.inr h

/-- The metadata names beside an entry lie above what is in its metadata. -/
theorem metadata_suffix_facet_iff {e hops : List Step} {f : Facet} (he : CanonicalHops e)
    (hc : CanonicalHops hops) :
    (∃ name, isMetadataOf (placeOf e).stem name = true ∧ name :: (placeOf e).folder <:+ (placeOf hops).facet f) ↔
      .metadata :: e <:+ hops := by
  have reaches : ∀ k, .metadata :: e <:+ deeper (k + 1) e := by
    intro k
    rw [deeper_succ']
    exact suffix_deeper k _
  have folder_eq : ∀ k, (placeOf (deeper (k + 1) e)).folder = (placeOf e).folder := by
    intro k
    rw [placeOf_deeper]
  constructor
  · rintro ⟨name, hname, h⟩
    rcases suffix_facet_iff.mp h with h | h
    · obtain ⟨rfl, hfolder⟩ := List.cons.inj h
      obtain ⟨k, rfl⟩ := (isMetadataOf_facet_iff he hc hfolder.symm).mp hname
      exact reaches k
    · obtain ⟨a, hca, -, -, hw, ha⟩ := exists_of_suffix_folder hc h (by simp)
      obtain ⟨rfl, hfolder⟩ := List.cons.inj ha
      obtain ⟨k, rfl⟩ := (isMetadataOf_facet_iff he hca hfolder.symm).mp hname
      exact (reaches k).trans hw.suffix
  · intro h
    obtain ⟨k, rfl | hw⟩ := deeper_or_within h
    · refine ⟨(placeOf (deeper (k + 1) e)).stem ++ f.ending,
        (isMetadataOf_facet_iff he hc (folder_eq k)).mpr ⟨k, rfl⟩, ?_⟩
      exact ⟨[], by rw [List.nil_append, Place.facet, folder_eq k]⟩
    · have hca : CanonicalHops (deeper (k + 1) e) := hc.suffix hw.suffix
      refine ⟨(placeOf (deeper (k + 1) e)).stem ++ Facet.children.ending,
        (isMetadataOf_facet_iff he hca (folder_eq k)).mpr ⟨k, rfl⟩, ?_⟩
      have hs := suffix_folder_of_within (by simp [deeper_succ]) (by simp [deeper_succ]) hw
      rw [Place.facet, folder_eq k] at hs
      exact suffix_facet_iff.mpr (Or.inr hs)

theorem suffix_keeper (f : Facet) (hops : List Step) : hops <:+ (keeper f hops).hops := by
  cases f
  · exact List.suffix_rfl
  · exact List.suffix_rfl
  · exact List.suffix_cons ..

theorem not_cons_suffix {α : Type} (s : α) (hops : List α) : ¬ s :: hops <:+ hops := by
  intro h
  have := h.length_le
  rw [List.length_cons] at this
  omega

theorem not_within_self (hops : List Step) : ¬ Within hops hops := by
  rintro ⟨s, -, h⟩
  exact not_cons_suffix s hops h

/-- A container takes itself, its metadata and what is inside, all of which is inside. -/
theorem removed_container_iff {above hops : List Step} {f : Facet} (he : CanonicalHops (.dir :: above))
    (hc : CanonicalHops hops) :
    Removed ⟨.dir :: above⟩ ((placeOf hops).facet f) ↔ Within above (keeper f hops).hops := by
  have hchildren : (placeOf (.dir :: above)).children = (placeOf above).facet .children := by
    rw [← children_eq_facet he.1 he.2.1]
    simp [placeOf, Place.children]
  have hinside : Within above (.dir :: above) := within_dir_cons.mpr (Or.inl rfl)
  simp only [Removed, place, isRoot, List.isEmpty_cons, Bool.false_eq_true, if_false, hchildren,
    children_suffix_facet_iff he.2.2 hc he.1 he.2.1, metadata_suffix_facet_iff he hc]
  constructor
  · rintro (h | h | h)
    · obtain ⟨rfl, rfl⟩ := facet_inj (g := .data) hc he h
      exact hinside
    · exact hinside.trans_suffix ((List.suffix_cons ..).trans (h.trans (suffix_keeper ..)))
    · exact h
  · intro h
    exact Or.inr (Or.inr h)

/-- A leaf view takes everything that extends it, but not its own content that is being written. -/
theorem removed_leaf_iff {e hops : List Step} {f : Facet} (he : CanonicalHops e) (hc : CanonicalHops hops)
    (h0 : e ≠ []) (hd : e.head? ≠ some .dir) :
    Removed ⟨e⟩ ((placeOf hops).facet f) ↔ e <:+ (keeper f hops).hops ∧ ¬ (f = .staging ∧ hops = e) := by
  have hnot : ¬ (⟨e⟩ : EntryPath).isRoot = true := by simpa [isRoot] using h0
  simp only [Removed, place, if_neg hnot, children_eq_facet h0 hd, children_suffix_facet_iff he hc h0 hd,
    metadata_suffix_facet_iff he hc]
  constructor
  · rintro (h | h | h)
    · obtain ⟨rfl, rfl⟩ := facet_inj (g := .data) hc he h
      exact ⟨List.suffix_rfl, by simp⟩
    · refine ⟨(List.suffix_cons ..).trans (h.trans (suffix_keeper ..)), ?_⟩
      rintro ⟨-, rfl⟩
      exact not_cons_suffix _ hops h
    · refine ⟨h.suffix, ?_⟩
      rintro ⟨rfl, rfl⟩
      exact not_within_self hops h
  · rintro ⟨h, hs⟩
    have hsuffix : e <:+ hops := by
      cases f
      · exact h
      · exact h
      · rcases List.suffix_cons_iff.mp h with rfl | h
        · exact absurd rfl hd
        · exact h
    rcases within_or_metadata hsuffix with rfl | hw | hm
    · cases f
      · exact Or.inl rfl
      · exact absurd ⟨rfl, rfl⟩ hs
      · exact Or.inr (Or.inr (within_dir_cons.mpr (Or.inl rfl)))
    · exact Or.inr (Or.inr (hw.trans_suffix (suffix_keeper ..)))
    · exact Or.inr (Or.inl hm)

/-- Of the facets of all entries a removal takes those of the branch. Only the content that is being written
to the removed entry itself stays, unless the folder that it lies in goes as well. -/
theorem removed_facet_iff {e : EntryPath} {hops : List Step} {f : Facet} (he : e.Canonical)
    (hc : CanonicalHops hops) : Removed e ((placeOf hops).facet f) ↔
      e.Covers (keeper f hops) ∧ ¬ (f = .staging ∧ hops = e.hops ∧ e.isContainer = false) := by
  obtain ⟨ehops⟩ := e
  match ehops, he with
  | [], _ =>
    have hne : (placeOf hops).facet f ≠ [] := by simp [Place.facet]
    have hcovers : Covers ⟨[]⟩ (keeper f hops) := covers_root _
    simp [Removed, isRoot, isContainer, hne, hcovers]
  | .dir :: above, he =>
    rw [removed_container_iff he hc, covers_container]
    simp [isContainer]
  | .child n :: above, he =>
    rw [removed_leaf_iff he hc (by simp) (by simp), covers_leaf (by simp)]
    simp [isContainer]
  | .metadata :: above, he =>
    rw [removed_leaf_iff he hc (by simp) (by simp), covers_leaf (by simp)]
    simp [isContainer]

end Store
end EntryServer
