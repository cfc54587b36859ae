import EntryServer.Proofs.Store.Pruning

/-! # Deletions in a sound store

Deleting an entry takes its content. Deleting all of it takes the locations of `Removed`, neither more nor
less, and fails only where deleting the content fails, so a failure leaves the store as it was: what can be
looked up at first can still be looked up when a part of it is gone, so no later step fails. -/
namespace EntryServer.Store
set_option autoImplicit false
open EntryPath FileTree

/-! ## The content -/

/-- Where the system accepts the path, a content can only be missing. -/
theorem Sound.missing_of_fits {t : FileTree} (ht : Sound t) {p : EntryPath} (hp : p.Canonical)
    (hfits : t.Fits p.place.data) {e : FileError} (h : t.slot p.place.data = .error e) : e = .notFound := by
  have hclear : t.Clear p.place.folder := ht.clear_folder hp
  rw [Place.data, ht.tree.slot_clear hclear hfits] at h
  split at h
  · cases h
  · exact (Except.error.inj h).symm

/-- What a deletion of the content comes to. It fails where the look for the content does. -/
theorem Sound.delete {t : FileTree} (ht : Sound t) {p : EntryPath} (hp : p.Canonical) :
    (Accessible t p.place.data ∧
      ∃ t', (Store.delete p).run.run t = (.ok (), t') ∧ Sound t' ∧ Cut t t' (· = p.place.data)) ∨
    ∃ e, e ≠ .notFound ∧ t.slot p.place.data = .error e ∧
      (Store.delete p).run.run t = (.error (.ofFile (p.dataText t.root) e), t) := by
  by_cases hdata : Accessible t p.place.data
  · obtain ⟨t', hrun⟩ := delete_ok hdata (ht.no_directory (f := .data) hp (by decide))
    obtain ⟨-, hrooted, hcut⟩ := delete_takes ht.tree.rooted hrun
    exact Or.inl ⟨hdata, t', hrun, ht.cut hrooted hcut.toCut, hcut.toCut⟩
  · obtain ⟨e, hslot, he⟩ : ∃ e, t.slot p.place.data = .error e ∧ e ≠ .notFound := by
      simpa [Accessible] using hdata
    refine Or.inr ⟨e, he, hslot, ?_⟩
    rw [run_delete, FileTree.unlink, hslot]
    split
    · next h => cases h
    · next h => exact absurd (Except.error.inj h) he
    · next h => rw [Except.error.inj h]

/-! ## The whole branch -/

/-- The folder that an entry lies in is above everything that its removal takes. -/
theorem folder_suffix_of_removed {p : EntryPath} (hp : p.isRoot = false) {l : Location} (h : Removed p l) :
    p.place.folder <:+ l := by
  rw [Removed, hp] at h
  rcases h with rfl | ⟨name, -, hs⟩ | hs
  · exact List.suffix_cons ..
  · exact (List.suffix_cons ..).trans hs
  · exact p.place.folder_suffix_children.trans hs

/-- The folder of the children is looked up like the content, whose path is as long as its own with a slash. -/
theorem accessibleFolder_children {t : FileTree} (ht : Sound t) {p : EntryPath} (hp : p.Canonical)
    (h : Accessible t p.place.data) : AccessibleFolder t p.place.children := by
  by_cases hstem : p.place.stem = []
  · have hchildren : p.place.children = p.place.folder := by simp [Place.children, hstem]
    rw [hchildren]
    exact h.folder
  · have hsize := (accessible_iff.mp h).2.1
    rw [Place.children_of_stem hstem]
    refine accessibleFolder_iff.mpr ⟨h.beside ?_ fun hm => ?_, fun i hslot => ?_, ?_⟩
    · simp only [Utf8.size_append]
      exact Nat.add_le_add_left (by decide) _
    · rw [List.mem_append] at hm ⊢
      exact hm.imp_right fun hm => by simp [Facet.ending, Facet.word] at hm
    · exact ht.no_file hp i (node?_of_slot hslot)
    · have hword : Utf8.size (Facet.children.ending) + 1 = Utf8.size "data".toList := by decide
      simp only [Place.data, pathSize, folderSize, Place.facet, namesSize_cons, Utf8.size_append] at hsize ⊢
      omega

theorem children_ok {t : FileTree} (ht : Sound t) {p : EntryPath} (hp : p.Canonical)
    (hdata : Accessible t p.place.data) (path : Text) :
    ∃ t', (if p.isRoot then (emptyFolder path p.place.children).run.run t
      else (removeFolder path p.place.children).run.run t) = (.ok (), t') := by
  have hchildren := accessibleFolder_children ht hp hdata
  split
  · exact emptyFolder_ok ht.tree.rooted ht.tree.texts hchildren path fun name n hn =>
      accessible_of_node ht.tree hn (List.cons_ne_nil name _)
  · exact removeFolder_ok hchildren path

/-- Removing an entry takes exactly the locations of `Removed`. Where the look for the content fails, it fails
and changes nothing. -/
theorem Sound.deleteAll {t : FileTree} (ht : Sound t) {p : EntryPath} (hp : p.Canonical) :
    (Accessible t p.place.data ∧
      ∃ t', (Store.deleteAll p).run.run t = (.ok (), t') ∧ Sound t' ∧ Cut t t' (Removed p)) ∨
    ∃ e, e ≠ .notFound ∧ t.slot p.place.data = .error e ∧
      (Store.deleteAll p).run.run t = (.error (.ofFile (p.dataText t.root) e), t) := by
  rcases ht.delete hp with ⟨hdata, t₁, hrun₁, ht₁, hcut₁⟩ | ⟨e, he, hslot, hrun⟩
  · have hdata₁ := hdata.of_cut ht.tree.rooted ht₁.tree.rooted hcut₁
    obtain ⟨t₂, hrun₂⟩ := removeListed_ok ht₁.tree.rooted hdata₁.folder
      ((p.render t₁.root).reverse.dropWhile (· ≠ '/')).reverse (isMetadataOf p.place.stem)
      fun name n hn => accessible_of_node ht₁.tree hn (List.cons_ne_nil name _)
    obtain ⟨-, hrooted₂, hcut₂⟩ := removeListed_takes ht₁.tree.rooted hrun₂
    have hcut₂ := hcut₂.toCut
    have hdata₂ := hdata₁.of_cut ht₁.tree.rooted hrooted₂ hcut₂
    obtain ⟨t', hrun'⟩ := children_ok (ht₁.cut hrooted₂ hcut₂) hp hdata₂ (p.childrenText t₁.root)
    have hrun : (Store.deleteAll p).run.run t = (.ok (), t') := by
      rw [run_deleteAll]
      simp only [hrun₁, hrun₂]
      exact hrun'
    obtain ⟨hrooted, hcut, -, -⟩ := deleteAll_takes ht.tree.rooted hp hrun
    exact Or.inl ⟨hdata, t', hrun, ht.cut hrooted hcut, hcut⟩
  · exact Or.inr ⟨e, he, hslot, by rw [run_deleteAll, hrun]⟩

theorem Sound.deleteAll_of_fits {t : FileTree} (ht : Sound t) {p : EntryPath} (hp : p.Canonical)
    (hfits : t.Fits p.place.data) :
    ∃ t', (Store.deleteAll p).run.run t = (.ok (), t') ∧ Sound t' ∧ Cut t t' (Removed p) := by
  rcases ht.deleteAll hp with ⟨-, h⟩ | ⟨e, he, hslot, -⟩
  · exact h
  · exact absurd (ht.missing_of_fits hp hfits hslot) he

/-! ## What stays in any tree -/

section Kept
variable {t t' : FileTree} {l l' : Location}

theorem sight_erase (hne : l ≠ []) (hl : l' ≠ l) : (t.erase l).sight l' = t.sight l' :=
  sight_congr (by rw [node?_erase t hne, if_neg hl]) fun _ _ => rfl

theorem sight_unlink (hne : l ≠ []) (h : t.unlink l = .ok t') (hl : l' ≠ l) : t'.sight l' = t.sight l' := by
  unfold FileTree.unlink at h
  split at h
  · cases h
  · cases h
  · cases h
  · obtain rfl := Except.ok.inj h
    exact sight_erase hne hl

theorem sight_remove (h : t.remove l = .ok t') (hl : ¬ l <:+ l') : t'.sight l' = t.sight l' := by
  have hne : l ≠ [] := fun h0 => hl (h0 ▸ List.nil_suffix)
  unfold FileTree.remove at h
  split at h
  · cases h
  · cases h
  · obtain rfl := Except.ok.inj h
    exact (cut_branch t hne).sight_kept hl
  · obtain rfl := Except.ok.inj h
    exact sight_erase hne fun heq => hl (heq ▸ List.suffix_rfl)

theorem sight_delete (t : FileTree) {p : EntryPath} (hl : l ≠ p.place.data) :
    ((delete p).run.run t).2.sight l = t.sight l := by
  rw [run_delete]
  split
  · next t' h => exact sight_unlink (List.cons_ne_nil _ _) h hl
  · rfl
  · rfl

theorem sight_removeAny (t : FileTree) (path : Text) (hl : ¬ l <:+ l') :
    ((removeAny path l).run.run t).2.sight l' = t.sight l' := by
  rw [run_removeAny]
  split
  · next t' h => exact sight_remove h hl
  · rfl
  · rfl

theorem sight_removeFolder (t : FileTree) (path : Text) (hl : ¬ l <:+ l') :
    ((removeFolder path l).run.run t).2.sight l' = t.sight l' := by
  rw [run_removeFolder]
  split
  · next t' h =>
    have haccess : AccessibleFolder t l := by
      intro e he
      rw [FileTree.removeFolder, he] at h
      cases h
    rw [removeFolder_eq_remove haccess] at h
    exact sight_remove h hl
  · rfl
  · rfl

theorem sight_removeAll (t : FileTree) (path : Text) (folder : Location) (names : List Text)
    (hl : ∀ name ∈ names, ¬ name :: folder <:+ l) :
    ((removeAll path folder names).run.run t).2.sight l = t.sight l := by
  induction names generalizing t with
  | nil => rfl
  | cons name names ih =>
    have hkept := sight_removeAny t (path ++ name) (hl name (List.mem_cons_self ..))
    rw [removeAll, run_bind]
    cases hrun : (removeAny (path ++ name) (name :: folder)).run.run t with
    | mk r t₁ =>
      rw [hrun] at hkept
      cases r with
      | error e => exact hkept
      | ok u => exact (ih t₁ fun name hname => hl name (List.mem_cons_of_mem _ hname)).trans hkept

theorem sight_removeListed (t : FileTree) (path : Text) (folder : Location) (which : Text → Bool)
    (hl : ∀ name, which name = true → ¬ name :: folder <:+ l) :
    ((removeListed path folder which).run.run t).2.sight l = t.sight l := by
  rw [run_removeListed]
  split
  · exact sight_removeAll t path folder _ fun name hname => hl name (List.mem_filter.mp hname).2
  · rfl
  · rfl

theorem sight_removeStrays (t : FileTree) (path : Text) (strays : List Stray) (l : Location) :
    ((removeStrays path strays).run.run t).2.sight l = t.sight l := by
  induction strays generalizing t with
  | nil => rfl
  | cons s strays ih =>
    rw [run_removeStrays]
    split
    · rfl
    · exact ih (t.eraseStray s)

theorem sight_emptyFolder (t : FileTree) (path : Text) (folder : Location)
    (hl : ∀ name : Text, ¬ name :: folder <:+ l) :
    ((emptyFolder path folder).run.run t).2.sight l = t.sight l := by
  have hlisted := sight_removeListed t path folder (fun _ => true) fun name _ => hl name
  rw [run_emptyFolder]
  split
  · next t₁ hrun =>
    rw [hrun] at hlisted
    exact hlisted
  · next t₁ hrun =>
    rw [hrun] at hlisted
    exact (sight_removeStrays t₁ path _ l).trans hlisted

/-- Whatever the tree holds and whether or not it succeeds, a removal takes nothing but the locations of
`Removed`. -/
theorem sight_deleteAll (t : FileTree) {p : EntryPath} (hl : ¬ Removed p l) :
    ((deleteAll p).run.run t).2.sight l = t.sight l := by
  rw [Removed, not_or, not_or] at hl
  obtain ⟨hdata, hmetadata, hchildren⟩ := hl
  have hdeleted := sight_delete t hdata
  rw [run_deleteAll]
  cases hrun : (delete p).run.run t with
  | mk r t₁ =>
    rw [hrun] at hdeleted
    cases r with
    | error e => exact hdeleted
    | ok u =>
      have hlisted := sight_removeListed t₁ ((p.render t₁.root).reverse.dropWhile (· ≠ '/')).reverse p.place.folder
        (isMetadataOf p.place.stem) fun name hname hs => hmetadata ⟨name, hname, hs⟩
      simp only
      cases hrun' : (removeListed ((p.render t₁.root).reverse.dropWhile (· ≠ '/')).reverse p.place.folder
        (isMetadataOf p.place.stem)).run.run t₁ with
      | mk r t₂ =>
        rw [hrun'] at hlisted
        cases r with
        | error e => exact hlisted.trans hdeleted
        | ok u =>
          refine Eq.trans ?_ (hlisted.trans hdeleted)
          simp only
          split
          · next hroot =>
            rw [if_pos hroot, not_not] at hchildren
            subst hchildren
            exact sight_emptyFolder t₂ _ _ fun name hs => List.cons_ne_nil _ _ (List.suffix_nil.mp hs)
          · next hroot =>
            rw [if_neg hroot] at hchildren
            exact sight_removeFolder t₂ _ hchildren

end Kept

end EntryServer.Store
