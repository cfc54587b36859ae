import EntryServer.Proofs.Store.Listing
import EntryServer.Proofs.Store.Writing

/-! # Removing what was written

Writes in the branch of an entry and the removal of that entry leave what was there before, if nothing of the
branch was there. But the directories that lead to the entry are made for the writes and never removed, so they
may stay. -/
namespace EntryServer.Store
set_option autoImplicit false
open EntryPath FileTree

/-- What a sequence of writes makes of a store, with whatever a failing one leaves behind. -/
def writeAll (writes : List (EntryPath × Bytes)) (t : FileTree) : FileTree :=
  writes.foldl (fun t w => ((write w.1 w.2).run.run t).2) t

/-- Besides what removing an entry takes, and a draft of its content, a store sees what another one sees, and
perhaps new directories on the way to the entry. -/
structure Beside (p : EntryPath) (t t' : FileTree) : Prop where
  root : t'.root = t.root
  sight : ∀ l, ¬ Removed p l → l ≠ p.place.staging →
    t'.sight l = t.sight l ∨ l <:+ p.place.folder ∧ t.sight l = none ∧ t'.sight l = some .directory

namespace Beside
variable {p q : EntryPath} {t t' t'' : FileTree}

theorem refl (p : EntryPath) (t : FileTree) : Beside p t t := ⟨rfl, fun _ _ _ => Or.inl rfl⟩

theorem trans (h : Beside p t t') (h' : Beside p t' t'') : Beside p t t'' := by
  refine ⟨h'.root.trans h.root, fun l hl hs => ?_⟩
  rcases h.sight l hl hs with h1 | ⟨h1, h2, h3⟩
  · rcases h'.sight l hl hs with h4 | ⟨h4, h5, h6⟩
    · exact Or.inl (h4.trans h1)
    · exact Or.inr ⟨h4, h1 ▸ h5, h6⟩
  · rcases h'.sight l hl hs with h4 | ⟨-, h5, -⟩
    · exact Or.inr ⟨h1, h2, h4.trans h3⟩
    · rw [h3] at h5
      cases h5

end Beside

/-! ## Writes -/

section Writes
variable {p q : EntryPath} {t : FileTree}

/-- The folders on the way to what is in the branch are on the way to its entry, or go with it. -/
theorem folder_of_covered (hp : p.Canonical) (hleaf : p.isContainer = false) (hq : q.Canonical) (h : p.Covers q)
    {l : Location} (hl : l <:+ q.place.folder) : l <:+ p.place.folder ∨ Removed p l := by
  by_cases h0 : l = []
  · exact Or.inl (h0 ▸ List.nil_suffix)
  · obtain ⟨a, ha, ha0, hd, hw, rfl⟩ := exists_of_suffix_folder hq hl h0
    have hpd := (isLeaf_iff.mp hleaf).2
    rw [covers_leaf hpd] at h
    obtain ⟨s, hs, hsq⟩ := hw
    have hinside : s :: a <:+ p.hops → (placeOf a).facet .children <:+ p.place.folder := fun hle =>
      suffix_folder_of_within ha0 hd ⟨s, hs, hle⟩
    rcases List.suffix_or_suffix_of_suffix hsq h with hle | hle
    · exact Or.inl (hinside hle)
    · rcases List.suffix_cons_iff.mp hle with heq | hle
      · exact Or.inl (hinside (heq ▸ List.suffix_rfl))
      · refine Or.inr ((removed_facet_iff hp ha).mpr ⟨?_, by simp⟩)
        rw [covers_leaf hpd]
        exact hle.trans (List.suffix_cons ..)

theorem write_beside (ht : Sound t) (hp : p.Canonical) (hleaf : p.isContainer = false) (hq : q.Canonical)
    (h : p.Covers q) (bytes : Bytes) :
    Sound ((write q bytes).run.run t).2 ∧ Beside p t ((write q bytes).run.run t).2 := by
  obtain ⟨r, t', hrun, ht', hroot, hframe, -⟩ := run_write_frame ht hq bytes
  have hfolders : ∀ {l}, l <:+ q.place.folder → t'.sight l = t.sight l ∨
      t.sight l = none ∧ t'.sight l = some .directory := by
    intro l hl
    have := run_write_folders ht hq bytes hl
    rwa [hrun] at this
  rw [hrun]
  refine ⟨ht', hroot, fun l hl hs => ?_⟩
  by_cases hw : Written q l
  · rcases hw with hw | rfl | rfl
    · rcases folder_of_covered hp hleaf hq h hw with hway | hgone
      · exact (hfolders hw).imp_right fun h => ⟨hway, h⟩
      · exact absurd hgone hl
    · refine absurd ((removed_facet_iff (f := .staging) hp hq).mpr ⟨h, ?_⟩) hl
      rintro ⟨-, heq, -⟩
      exact hs (by rw [EntryPath.ext heq])
    · exact absurd ((removed_facet_iff (f := .data) hp hq).mpr ⟨h, by simp⟩) hl
  · exact Or.inl (hframe l hw)

theorem writeAll_beside (ht : Sound t) (hp : p.Canonical) (hleaf : p.isContainer = false)
    (writes : List (EntryPath × Bytes)) (h : ∀ w ∈ writes, w.1.Canonical ∧ p.Covers w.1) :
    Sound (writeAll writes t) ∧ Beside p t (writeAll writes t) := by
  induction writes generalizing t with
  | nil => exact ⟨ht, Beside.refl p t⟩
  | cons w writes ih =>
    obtain ⟨hw, hcovers⟩ := h w (List.mem_cons_self ..)
    obtain ⟨ht₁, hbeside⟩ := write_beside ht hp hleaf hw hcovers w.2
    obtain ⟨ht', hbeside'⟩ := ih ht₁ fun x hx => h x (List.mem_cons_of_mem _ hx)
    exact ⟨ht', hbeside.trans hbeside'⟩

end Writes

/-! ## Names of a child -/

section Child
variable {t : FileTree} {d : Text} {above : List Step}

/-- Everything that removing a child takes is at or below a name that lists the child. -/
theorem name_of_removed (hd : IsSegment d) {l : Location} (h : Removed ⟨.child d :: above⟩ l) :
    ∃ name, childBase? name = some d ∧ name :: (placeOf above).children <:+ l := by
  have hroot : ¬ (⟨.child d :: above⟩ : EntryPath).isRoot = true := by simp [isRoot]
  rw [Removed, if_neg hroot] at h
  rcases h with rfl | ⟨name, hname, hl⟩ | hl
  · refine ⟨d ++ ['.'] ++ "data".toList, ?_, List.suffix_rfl⟩
    rw [childBase?_append hd (by decide), if_pos (Or.inl rfl)]
  · refine ⟨name, ?_, hl⟩
    obtain ⟨rest, rfl, -, hdot⟩ := isMetadataOf_iff.mp hname
    rw [List.append_assoc]
    refine (childBase?_append hd ?_).trans (if_pos (Or.inr (Or.inr ?_)))
    · rw [List.mem_append, not_or]
      exact ⟨by decide, hdot⟩
    · exact List.isPrefixOf_iff_prefix.mpr (List.prefix_append ..)
  · rw [place, children_eq_facet (by simp) (by simp)] at hl
    refine ⟨d ++ ['.'] ++ "dir".toList, ?_, hl⟩
    rw [childBase?_append hd (by decide), if_pos (Or.inr (Or.inl rfl))]

theorem absent_of_names (ht : t.Sound) (hd : IsSegment d)
    (h : ∀ name ∈ t.namesIn (placeOf above).children, childBase? name ≠ some d) {l : Location}
    (hl : Removed ⟨.child d :: above⟩ l) : t.sight l = none := by
  obtain ⟨name, hname, hbelow⟩ := name_of_removed hd hl
  have hnone : t.sight (name :: (placeOf above).children) = none :=
    Decidable.not_not.mp fun hsome => h name (mem_namesIn_iff.mpr hsome) hname
  exact sight_eq_none.mpr (ht.node_below hbelow (sight_eq_none.mp hnone))

end Child

/-! ## The removal -/

/-- A store sees what another one sees, a draft of an entry apart, and perhaps new directories on the way to it. -/
structure Restored (p : EntryPath) (t t' : FileTree) : Prop where
  sight : ∀ l, l ≠ p.place.staging →
    t'.sight l = t.sight l ∨ l <:+ p.place.folder ∧ t.sight l = none ∧ t'.sight l = some .directory

/-- Where nothing of a branch was there, removing it takes back what was written into it. -/
theorem run_deleteAll_restores {p : EntryPath} {t : FileTree} (ht : Sound t) (hp : p.Canonical)
    (hleaf : p.isContainer = false) (habsent : ∀ l, Removed p l → t.sight l = none)
    (writes : List (EntryPath × Bytes)) (hwrites : ∀ w ∈ writes, w.1.Canonical ∧ p.Covers w.1) :
    ∃ r t', (deleteAll p).run.run (writeAll writes t) = (r, t') ∧ Sound t' ∧ t'.root = t.root ∧
      (t.Fits p.place.data → r = .ok ()) ∧
      (r = .ok () → t.pathSize p.place.data < pathLimit ∧ Restored p t t') := by
  obtain ⟨ht₁, hbeside⟩ := writeAll_beside ht hp hleaf writes hwrites
  rcases ht₁.deleteAll hp with ⟨hdata, t', hrun, ht', hcut⟩ | ⟨e, he, hslot, hrun⟩
  · have hsize := (accessible_iff.mp hdata).2.1
    rw [pathSize, hbeside.root, ← pathSize] at hsize
    refine ⟨_, t', hrun, ht', hcut.root.trans hbeside.root, fun _ => rfl, fun _ => ⟨hsize, ⟨fun l hs => ?_⟩⟩⟩
    by_cases hl : Removed p l
    · rw [hcut.sight_gone hl, habsent l hl]
      exact Or.inl rfl
    · rw [hcut.sight_kept hl]
      exact hbeside.sight l hl hs
  · refine ⟨_, _, hrun, ht₁, hbeside.root, fun hfits => ?_, fun hok => by cases hok⟩
    exact absurd (ht₁.missing_of_fits hp (hfits.congr _ hbeside.root) hslot) he

end EntryServer.Store
