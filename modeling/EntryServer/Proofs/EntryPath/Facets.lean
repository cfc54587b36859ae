import EntryServer.EntryPath.Place
import EntryServer.Proofs.EntryPath.Branch

/-! # Facets on disk

What an entry keeps on disk is a stem followed by one of three endings. The ending can be read off a name,
the stem and the folder give back the way to the entry, and the folders on the way to a facet are the
children folders of the entries that the way leads through. So no two entries share a facet, and what lies
below a folder is what lies inside the container. -/
namespace EntryServer
set_option autoImplicit false

/-- What an entry keeps on disk, apart from its metadata. -/
inductive Facet
  | data
  | staging
  | children
  deriving DecidableEq, Repr

namespace Facet

def word : Facet → String
  | data => "data"
  | staging => "data-tmp"
  | children => "dir"

def ending (f : Facet) : Text := f.word.toList

theorem dotless_ending (f : Facet) : '.' ∉ f.ending := by
  cases f <;> simp [ending, word]

theorem ending_ne_nil (f : Facet) : f.ending ≠ [] := by
  cases f <;> simp [ending, word]

/-- The ending, and with it the stem, can be read off the name. -/
theorem ending_inj {stem stem' : Text} {f f' : Facet} (h : stem ++ f.ending = stem' ++ f'.ending) :
    stem = stem' ∧ f = f' := by
  have hlast := congrArg List.getLast? h
  have hf : f = f' := by
    cases f <;> cases f' <;> simp [ending, word] at hlast <;> rfl
  subst hf
  exact ⟨List.append_cancel_right h, rfl⟩

end Facet

/-- The location of a facet. The folder of the children exists only beside a stem. -/
def Place.facet (at_ : Place) (f : Facet) : Location := (at_.stem ++ f.ending) :: at_.folder

namespace Place

theorem children_of_stem {at_ : Place} (h : at_.stem ≠ []) : at_.children = at_.facet .children := by
  simp [children, facet, h, Facet.ending, Facet.word]

theorem folder_suffix_children (at_ : Place) : at_.folder <:+ at_.children := by
  unfold children
  split
  · exact List.suffix_rfl
  · exact List.suffix_cons ..

theorem facet_inj {at_ at_' : Place} {f f' : Facet} (h : at_.facet f = at_'.facet f') : at_ = at_' ∧ f = f' := by
  obtain ⟨hname, hfolder⟩ := List.cons.inj h
  obtain ⟨hstem, hf⟩ := Facet.ending_inj hname
  cases at_
  cases at_'
  exact ⟨by rw [Place.mk.injEq]; exact ⟨hfolder, hstem⟩, hf⟩

end Place

namespace EntryPath

/-! ## Stems -/

theorem stem_eq_nil_iff {hops : List Step} : (placeOf hops).stem = [] ↔ hops = [] ∨ hops.head? = some .dir := by
  match hops with
  | [] => simp [placeOf]
  | .child n :: above => simp [placeOf]
  | .dir :: above => simp [placeOf]
  | .metadata :: above => simp [placeOf]

theorem stem_ne_nil {hops : List Step} (h : hops ≠ []) (hd : hops.head? ≠ some .dir) :
    (placeOf hops).stem ≠ [] := fun hs =>
  (stem_eq_nil_iff.mp hs).elim h hd

theorem children_eq_facet {hops : List Step} (h : hops ≠ []) (hd : hops.head? ≠ some .dir) :
    (placeOf hops).children = (placeOf hops).facet .children :=
  Place.children_of_stem (stem_ne_nil h hd)

theorem children_of_leaf {p : EntryPath} (hleaf : p.isContainer = false) :
    p.place.children = p.place.facet .children := by
  obtain ⟨h0, hd⟩ := isLeaf_iff.mp hleaf
  exact children_eq_facet h0 hd

theorem children_inj {a b : List Step} (ha : a.head? ≠ some .dir) (hb : b.head? ≠ some .dir)
    (h : (placeOf a).children = (placeOf b).children) : placeOf a = placeOf b := by
  by_cases ha0 : a = []
  · by_cases hb0 : b = []
    · rw [ha0, hb0]
    · rw [children_eq_facet hb0 hb, ha0] at h
      simp [placeOf, Place.children, Place.facet] at h
  · by_cases hb0 : b = []
    · rw [children_eq_facet ha0 ha, hb0] at h
      simp [placeOf, Place.children, Place.facet] at h
    · rw [children_eq_facet ha0 ha, children_eq_facet hb0 hb] at h
      exact (Place.facet_inj h).1

/-! ## The place determines the entry -/

theorem placeOf_inj : ∀ {a b : List Step}, CanonicalHops a → CanonicalHops b → placeOf a = placeOf b → a = b
  | [], [], _, _, _ => rfl
  | [], .child n :: b, _, _, h => by simp [placeOf] at h
  | [], .metadata :: b, _, _, h => by simp [placeOf] at h
  | [], .dir :: b, _, hb, h => by
    have hc := children_eq_facet hb.1 hb.2.1
    simp [placeOf, hc, Place.facet] at h
  | .child n :: a, [], _, _, h => by simp [placeOf] at h
  | .child n :: a, .dir :: b, _, _, h => by simp [placeOf] at h
  | .child n :: a, .metadata :: b, _, _, h => by
    have hlast := congrArg (fun at_ : Place => at_.stem.getLast?) h
    simp [placeOf] at hlast
  | .child n :: a, .child m :: b, ha, hb, h => by
    simp only [placeOf, Place.mk.injEq, List.append_cancel_right_eq] at h
    obtain ⟨hfolder, rfl⟩ := h
    rw [placeOf_inj ha.2.2 hb.2.2 (children_inj ha.2.1 hb.2.1 hfolder)]
  | .dir :: a, [], ha, _, h => by
    have hc := children_eq_facet ha.1 ha.2.1
    simp [placeOf, hc, Place.facet] at h
  | .dir :: a, .child m :: b, _, _, h => by simp [placeOf] at h
  | .dir :: a, .metadata :: b, _, _, h => by simp [placeOf] at h
  | .dir :: a, .dir :: b, ha, hb, h => by
    simp only [placeOf, Place.mk.injEq, and_true] at h
    rw [placeOf_inj ha.2.2 hb.2.2 (children_inj ha.2.1 hb.2.1 h)]
  | .metadata :: a, [], _, _, h => by simp [placeOf] at h
  | .metadata :: a, .child m :: b, _, _, h => by
    have hlast := congrArg (fun at_ : Place => at_.stem.getLast?) h
    simp [placeOf] at hlast
  | .metadata :: a, .dir :: b, _, _, h => by simp [placeOf] at h
  | .metadata :: a, .metadata :: b, ha, hb, h => by
    simp only [placeOf, Place.mk.injEq, List.append_cancel_right_eq] at h
    have hp : placeOf a = placeOf b := by
      cases hpa : placeOf a
      cases hpb : placeOf b
      simp_all
    rw [placeOf_inj (a := a) (b := b) ha hb hp]

/-- A facet belongs to one entry only, and is one facet of it only. -/
theorem facet_inj {a b : List Step} {f g : Facet} (ha : CanonicalHops a) (hb : CanonicalHops b)
    (h : (placeOf a).facet f = (placeOf b).facet g) : a = b ∧ f = g := by
  obtain ⟨hp, hf⟩ := Place.facet_inj h
  exact ⟨placeOf_inj ha hb hp, hf⟩

/-! ## Folders on the way -/

/-- Every folder on the way to a facet is the children folder of an entry that the way leads through. -/
theorem exists_of_suffix_folder {hops : List Step} (hc : CanonicalHops hops) {l : Location}
    (hl : l <:+ (placeOf hops).folder) (hne : l ≠ []) :
    ∃ a, CanonicalHops a ∧ a ≠ [] ∧ a.head? ≠ some .dir ∧ Within a hops ∧
      l = (placeOf a).facet .children := by
  -- the folder of a child or a container is the children folder of what is above it
  have opened : ∀ above : List Step, CanonicalHops above → above.head? ≠ some .dir →
      (l <:+ (placeOf above).folder → ∃ a, CanonicalHops a ∧ a ≠ [] ∧ a.head? ≠ some .dir ∧
        Within a above ∧ l = (placeOf a).facet .children) →
      l <:+ (placeOf above).children →
      ∃ a, CanonicalHops a ∧ a ≠ [] ∧ a.head? ≠ some .dir ∧ (above = a ∨ Within a above) ∧
        l = (placeOf a).facet .children := by
    intro above ha hd ih hl
    by_cases h0 : above = []
    · subst h0
      exact absurd (List.suffix_nil.mp hl) hne
    · rw [children_eq_facet h0 hd] at hl
      rcases List.suffix_cons_iff.mp hl with rfl | hl
      · exact ⟨above, ha, h0, hd, Or.inl rfl, rfl⟩
      · obtain ⟨a, h1, h2, h3, h4, h5⟩ := ih hl
        exact ⟨a, h1, h2, h3, Or.inr h4, h5⟩
  induction hops with
  | nil => exact absurd (List.suffix_nil.mp hl) hne
  | cons s above ih =>
    have habove := hc.tail
    cases s with
    | child n =>
      obtain ⟨a, h1, h2, h3, h4, h5⟩ := opened above habove hc.2.1 (ih habove) hl
      exact ⟨a, h1, h2, h3, within_child_cons.mpr h4, h5⟩
    | dir =>
      obtain ⟨a, h1, h2, h3, h4, h5⟩ := opened above habove hc.2.1 (ih habove) hl
      exact ⟨a, h1, h2, h3, within_dir_cons.mpr h4, h5⟩
    | metadata =>
      obtain ⟨a, h1, h2, h3, h4, h5⟩ := ih habove hl
      exact ⟨a, h1, h2, h3, within_metadata_cons.mpr h4, h5⟩

theorem suffix_folder_of_within {a hops : List Step} (ha : a ≠ []) (hd : a.head? ≠ some .dir)
    (h : Within a hops) : (placeOf a).facet .children <:+ (placeOf hops).folder := by
  induction hops with
  | nil => exact absurd h (within_nil a)
  | cons s above ih =>
    cases s with
    | child n =>
      rcases within_child_cons.mp h with rfl | h
      · rw [← children_eq_facet ha hd]
        exact List.suffix_rfl
      · exact (ih h).trans (placeOf above).folder_suffix_children
    | dir =>
      rcases within_dir_cons.mp h with rfl | h
      · rw [← children_eq_facet ha hd]
        exact List.suffix_rfl
      · exact (ih h).trans (placeOf above).folder_suffix_children
    | metadata => exact ih (within_metadata_cons.mp h)

/-- A children folder lies above exactly the facets of what is inside the container. -/
theorem suffix_folder_iff {a hops : List Step} (hca : CanonicalHops a) (hc : CanonicalHops hops) (ha : a ≠ [])
    (hd : a.head? ≠ some .dir) :
    (placeOf a).facet .children <:+ (placeOf hops).folder ↔ Within a hops := by
  constructor
  · intro h
    obtain ⟨b, hcb, -, -, hw, hb⟩ := exists_of_suffix_folder hc h (by simp [Place.facet])
    rwa [(facet_inj hca hcb hb).1]
  · exact suffix_folder_of_within ha hd

theorem children_suffix_folder {p q : EntryPath} (hleaf : p.isContainer = false) (hq : Within p.hops q.hops) :
    p.place.children <:+ q.place.folder := by
  obtain ⟨h0, hd⟩ := isLeaf_iff.mp hleaf
  rw [children_of_leaf hleaf]
  exact suffix_folder_of_within h0 hd hq

theorem children_suffix_children {p q : EntryPath} (hleaf : p.isContainer = false)
    (hq : q.hops = p.hops ∨ Within p.hops q.hops) : p.place.children <:+ q.place.children := by
  rcases hq with heq | hw
  · obtain rfl := EntryPath.ext heq
    exact List.suffix_rfl
  · exact (children_suffix_folder hleaf hw).trans q.place.folder_suffix_children

end EntryPath
end EntryServer
