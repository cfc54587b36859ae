import EntryServer.Proofs.Store.Contents

/-! # What writing touches

Replacing a content touches the folders on the way to the entry, the draft and the content, and nothing else,
whether it succeeds or not. Whether it succeeds depends on the path alone. -/
namespace EntryServer.Store
set_option autoImplicit false
open EntryPath FileTree
open Http.Entry (appendAll)

def Written (p : EntryPath) (l : Location) : Prop :=
  l <:+ p.place.folder ∨ l = p.place.staging ∨ l = p.place.data

section Frames
variable {t : FileTree} {p : EntryPath}

theorem run_create_frame (ht : Sound t) (hp : p.Canonical) :
    ∃ r t', (create p).run.run t = (r, t') ∧ Sound t' ∧ t'.root = t.root ∧
      (∀ l, ¬ Written p l → t'.sight l = t.sight l) ∧
      match r with
      | .ok w => t.Fits p.place.staging ∧ w.entry = p ∧ Draft t' w []
      | .error e => ¬ t.Fits p.place.staging ∧ e.isNotFound = false := by
  obtain ⟨t₁, ht₁, hgrown, h⟩ := ht.create hp
  have hframe : ∀ l, ¬ Written p l → t₁.sight l = t.sight l := by
    intro l hl
    rcases hgrown.sight l with hs | ⟨-, -, hs⟩
    · exact hs
    · exact absurd (Or.inl hs) hl
  rcases h with ⟨hfits, -, h, t', hrun, ht', ho⟩ | ⟨hunfit, e, he, hrun⟩
  · refine ⟨_, t', hrun, ht', ho.root.trans hgrown.root, fun l hl => ?_, hfits, rfl, ?_, ?_, ho.start⟩
    · rw [ho.sight ht₁.tree, if_neg fun heq => hl (Or.inr (Or.inl heq)), hframe l hl]
    · rw [ho.node, if_pos rfl]
    · rw [ho.content, if_pos rfl]
  · exact ⟨_, t₁, hrun, ht₁, hgrown.root, hframe, hunfit, he⟩

/-- Chunks after a beginning make up the draft and touch no more than it. -/
theorem appendAll_frame (ht : Sound t) {w : Writer} (h : Draft t w []) (chunks : List Bytes) :
    Sound (appendAll w t chunks).2 ∧ Draft (appendAll w t chunks).2 (appendAll w t chunks).1 chunks.flatten ∧
      ∀ l, ¬ Written w.entry l → (appendAll w t chunks).2.sight l = t.sight l := by
  obtain ⟨hsound, hdraft, hsight⟩ := draft_appendAll ht h chunks
  rw [List.nil_append] at hdraft
  exact ⟨hsound, hdraft, fun l hl => hsight l fun heq => hl (Or.inr (Or.inl heq))⟩

theorem run_commit_frame (ht : Sound t) {w : Writer} (hw : w.entry.Canonical) (h : Draft t w [])
    (chunks : List Bytes) :
    ∃ t', (appendAll w t chunks).1.commit.run.run (appendAll w t chunks).2 = (.ok (), t') ∧ Sound t' ∧
      t'.root = t.root ∧ ∀ l, ¬ Written w.entry l → t'.sight l = t.sight l := by
  obtain ⟨ht₁, hdraft, hframe⟩ := appendAll_frame ht h chunks
  have hentry := appendAll_entry w t chunks
  obtain ⟨t', hrun, hroot, ht', -, hsight⟩ := hdraft.commit ht₁ (by rw [hentry]; exact hw)
  rw [hentry] at hsight
  refine ⟨t', hrun, ht', hroot.trans (appendAll_root w t chunks), fun l hl => ?_⟩
  rw [hsight l (fun heq => hl (Or.inr (Or.inr heq))) fun heq => hl (Or.inr (Or.inl heq)), hframe l hl]

theorem run_write_frame (ht : Sound t) (hp : p.Canonical) (bytes : Bytes) :
    ∃ r t', (write p bytes).run.run t = (r, t') ∧ Sound t' ∧ t'.root = t.root ∧
      (∀ l, ¬ Written p l → t'.sight l = t.sight l) ∧
      match r with
      | .ok () => t.Fits p.place.staging
      | .error e => ¬ t.Fits p.place.staging ∧ e.isNotFound = false := by
  obtain ⟨r, t₁, hrun, ht₁, hroot, hframe, hr⟩ := run_create_frame ht hp
  rw [run_write, hrun]
  cases r with
  | error e => exact ⟨_, t₁, rfl, ht₁, hroot, hframe, hr⟩
  | ok w =>
    obtain ⟨hfits, rfl, hdraft⟩ := hr
    obtain ⟨t', hrun', ht', hroot', hframe'⟩ := run_commit_frame ht₁ hp hdraft [bytes]
    exact ⟨_, t', hrun', ht', hroot'.trans hroot, fun l hl => (hframe' l hl).trans (hframe l hl), hfits⟩

/-- On the way to the entry, writing makes the directories that are missing and changes nothing else. -/
theorem run_write_folders (ht : Sound t) (hp : p.Canonical) (bytes : Bytes) {l : Location}
    (hl : l <:+ p.place.folder) : ((write p bytes).run.run t).2.sight l = t.sight l ∨
      t.sight l = none ∧ ((write p bytes).run.run t).2.sight l = some .directory := by
  have hdata : l ≠ p.place.data := by
    rintro rfl
    exact not_cons_suffix _ _ hl
  have hstaging : l ≠ p.place.staging := by
    rintro rfl
    exact not_cons_suffix _ _ hl
  obtain ⟨t₁, ht₁, hgrown, h⟩ := ht.create hp
  have hfolder : t₁.sight l = t.sight l ∨ t.sight l = none ∧ t₁.sight l = some .directory :=
    (hgrown.sight l).imp_right fun h => ⟨h.1, h.2.1⟩
  rw [run_write]
  rcases h with ⟨-, -, h, t₂, hrun, ht₂, ho⟩ | ⟨-, e, -, hrun⟩
  · have hdraft : Draft t₂ ⟨p, h⟩ [] := ⟨by rw [ho.node, if_pos rfl], by rw [ho.content, if_pos rfl], ho.start⟩
    obtain ⟨t', hcommit, -, -, -, hsight⟩ := (hdraft.append ht₂ bytes).commit (ht₂.append _ bytes) hp
    rw [hrun]
    simp only [hcommit]
    rw [hsight l hdata hstaging, sight_append ht₂ hdraft bytes hstaging, ho.sight ht₁.tree, if_neg hstaging]
    exact hfolder
  · rw [hrun]
    exact hfolder

end Frames

end EntryServer.Store
