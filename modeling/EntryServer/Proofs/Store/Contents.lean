import EntryServer.Http.Entry
import EntryServer.Proofs.Store.Deletion

/-! # Contents of entries

What reading gives in a sound store, and what each operation does to the contents of all entries. A content
that is being written is seen nowhere until it is committed. -/
namespace EntryServer.Store
set_option autoImplicit false
open EntryPath FileTree
open Http.Entry (appendAll)

/-! ## Reading -/

/-- The content of an entry, if it has one. -/
def content? (t : FileTree) (p : EntryPath) : Option Bytes :=
  match t.sight p.place.data with
  | some (.file content) => some content
  | _ => none

theorem content?_eq_some_iff {t : FileTree} {p : EntryPath} {content : Bytes} :
    content? t p = some content ↔ ∃ i, t.node? p.place.data = some (.file i) ∧ t.blob i = content := by
  rw [← sight_eq_file, content?]
  split
  · next h => simp [h]
  · next h =>
    simp only [reduceCtorEq, false_iff]
    exact h content

theorem content?_congr {t t' : FileTree} {p : EntryPath} (h : t'.sight p.place.data = t.sight p.place.data) :
    content? t' p = content? t p := by
  rw [content?, content?, h]

theorem content?_empty (root : Text) (p : EntryPath) : content? (FileTree.empty root) p = none := by
  simp [content?, sight, node?, FileTree.empty, place, Place.data]

namespace Sound
variable {t t' : FileTree} {p q : EntryPath}

theorem content?_none (ht : Sound t) (hp : p.Canonical) (h : content? t p = none) :
    t.node? p.place.data = none := by
  rcases ht.file_or_none (f := .data) hp (by simp) with hnone | ⟨i, hi⟩
  · exact hnone
  · rw [content?_eq_some_iff.mpr ⟨i, hi, rfl⟩] at h
    cases h

theorem read_ok_iff (ht : Sound t) {content : Bytes} :
    read t p = .ok content ↔ content? t p = some content := by
  rw [content?_eq_some_iff, read, FileTree.read]
  have hne : p.place.data ≠ [] := List.cons_ne_nil _ _
  constructor
  · intro h
    cases hslot : t.slot p.place.data with
    | error e =>
      rw [hslot] at h
      cases h
    | ok there =>
      rw [hslot] at h
      match there, hslot, h with
      | some (.file i), hslot, h => exact ⟨i, node?_of_slot hslot, Except.ok.inj h⟩
  · rintro ⟨i, hi, rfl⟩
    rw [ht.tree.slot hi hne]

/-- Without a content the entry is reported as not found, if the system accepts its path. -/
theorem read_missing (ht : Sound t) (hp : p.Canonical) (hfits : t.Fits p.place.data)
    (h : content? t p = none) : read t p = .error (.notFound (p.dataText t.root)) := by
  have hnone := ht.content?_none hp h
  have hclear : t.Clear p.place.folder := ht.clear_folder hp
  have hslot : t.slot p.place.data = .ok none ∨ t.slot p.place.data = .error .notFound := by
    rw [Place.data, ht.tree.slot_clear hclear hfits]
    split
    · exact Or.inl (congrArg Except.ok hnone)
    · exact Or.inr rfl
  rw [read, FileTree.read]
  rcases hslot with hs | hs
  · rw [hs]
    rfl
  · rw [hs]
    rfl

theorem hasData_iff (ht : Sound t) : hasData t p = true ↔ ∃ content, content? t p = some content := by
  simp only [content?_eq_some_iff]
  have hne : p.place.data ≠ [] := List.cons_ne_nil _ _
  rw [hasData, isFile]
  constructor
  · intro h
    split at h
    · next i hslot => exact ⟨_, i, node?_of_slot hslot, rfl⟩
    · cases h
  · rintro ⟨-, i, hi, -⟩
    rw [ht.tree.slot hi hne]

end Sound

/-! ## Drafts -/

/-- A writer has written these bytes so far, and its file is still the one that a commit takes. -/
structure Draft (t : FileTree) (w : Writer) (content : Bytes) : Prop where
  file : t.node? w.entry.place.staging = some (.file w.handle.blob)
  written : t.blob w.handle.blob = content
  offset : w.handle.offset = content.length

theorem Draft.append {t : FileTree} {w : Writer} {content : Bytes} (ht : Sound t) (h : Draft t w content)
    (bytes : Bytes) : Draft (w.append t bytes).2 (w.append t bytes).1 (content ++ bytes) where
  file := h.file
  written := by
    have hb := blob_write (ht.tree.bounded h.file) bytes w.handle.blob
    rw [if_pos rfl, h.written, h.offset, overwrite_at_end] at hb
    exact hb
  offset := by
    rw [List.length_append, ← h.offset]
    rfl

theorem sight_append {t : FileTree} {w : Writer} {content : Bytes} (ht : Sound t) (h : Draft t w content)
    (bytes : Bytes) {l : Location} (hl : l ≠ w.entry.place.staging) :
    (w.append t bytes).2.sight l = t.sight l := by
  have hsight := ht.tree.sight_write h.file bytes l
  rw [if_neg hl] at hsight
  exact hsight

theorem appendAll_cons (w : Writer) (t : FileTree) (chunk : Bytes) (chunks : List Bytes) :
    appendAll w t (chunk :: chunks) = appendAll (w.append t chunk).1 (w.append t chunk).2 chunks := rfl

theorem appendAll_entry (w : Writer) (t : FileTree) (chunks : List Bytes) :
    (appendAll w t chunks).1.entry = w.entry := by
  induction chunks generalizing w t with
  | nil => rfl
  | cons chunk chunks ih =>
    rw [appendAll_cons, ih]
    rfl

theorem appendAll_root (w : Writer) (t : FileTree) (chunks : List Bytes) :
    (appendAll w t chunks).2.root = t.root := by
  induction chunks generalizing w t with
  | nil => rfl
  | cons chunk chunks ih =>
    rw [appendAll_cons, ih]
    rfl

theorem draft_appendAll {t : FileTree} {w : Writer} {content : Bytes} (ht : Sound t) (h : Draft t w content)
    (chunks : List Bytes) :
    Sound (appendAll w t chunks).2 ∧
      Draft (appendAll w t chunks).2 (appendAll w t chunks).1 (content ++ chunks.flatten) ∧
      ∀ l, l ≠ w.entry.place.staging → (appendAll w t chunks).2.sight l = t.sight l := by
  induction chunks generalizing w t content with
  | nil =>
    rw [List.flatten_nil, List.append_nil]
    exact ⟨ht, h, fun _ _ => rfl⟩
  | cons chunk chunks ih =>
    obtain ⟨hsound, hdraft, hsight⟩ := ih (ht.append w chunk) (h.append ht chunk)
    rw [List.flatten_cons, ← List.append_assoc]
    refine ⟨hsound, hdraft, fun l hl => ?_⟩
    rw [appendAll_cons, hsight l hl, sight_append ht h chunk hl]

/-! ## Effects on all contents -/

section Effects
variable {t t' : FileTree} {p q : EntryPath}

theorem data_ne_staging (hp : p.Canonical) (hq : q.Canonical) : q.place.data ≠ p.place.staging := by
  intro h
  obtain ⟨-, hf⟩ := facet_inj (f := .data) (g := .staging) hq hp h
  cases hf

theorem data_inj (hp : p.Canonical) (hq : q.Canonical) : q.place.data = p.place.data ↔ q = p := by
  constructor
  · intro h
    exact EntryPath.ext (facet_inj (f := .data) (g := .data) hq hp h).1
  · rintro rfl
    rfl

theorem content?_grown {l : Location} (h : Grown t t' l) (q : EntryPath) : content? t' q = content? t q := by
  rcases h.sight q.place.data with hs | ⟨hnone, hdir, -⟩
  · exact content?_congr hs
  · rw [content?, content?, hnone, hdir]

theorem content?_moved (hp : p.Canonical) (hq : q.Canonical) {i : Nat}
    (h : Moved t p.place.staging p.place.data i t') :
    content? t' q = if q = p then some (t.blob i) else content? t q := by
  have hsight := h.sight q.place.data
  rw [if_neg (data_ne_staging hp hq)] at hsight
  split
  · next heq =>
    rw [if_pos ((data_inj hp hq).mpr heq)] at hsight
    rw [content?, hsight]
  · next hne =>
    rw [if_neg (hne ∘ (data_inj hp hq).mp)] at hsight
    exact content?_congr hsight

theorem content?_deleted (hp : p.Canonical) (hq : q.Canonical) (h : Cut t t' (· = p.place.data)) :
    content? t' q = if q = p then none else content? t q := by
  split
  · next heq => rw [content?, h.sight_gone ((data_inj hp hq).mpr heq)]
  · next hne => exact content?_congr (h.sight_kept (hne ∘ (data_inj hp hq).mp))

theorem content?_removed (hp : p.Canonical) (hq : q.Canonical) (h : Cut t t' (Removed p)) :
    content? t' q = if p.Covers q then none else content? t q := by
  have hiff : Removed p q.place.data ↔ p.Covers q := by
    refine (removed_facet_iff (f := .data) hp hq).trans ?_
    simp [keeper]
  split
  · next hc => rw [content?, h.sight_gone (hiff.mpr hc)]
  · next hc => exact content?_congr (h.sight_kept (hc ∘ hiff.mp))

/-- A new content begins empty, and no content of an entry changes. -/
theorem Sound.begin_draft (ht : Sound t) (hp : p.Canonical) (hfits : t.Fits p.place.staging) :
    ∃ w t', (Store.create p).run.run t = (.ok w, t') ∧ w.entry = p ∧ t'.root = t.root ∧ Sound t' ∧ Draft t' w [] ∧
      ∀ q, q.Canonical → content? t' q = content? t q := by
  obtain ⟨t₁, ht₁, hgrown, ⟨-, -, h, t', hrun, ht', ho⟩ | ⟨hunfit, -⟩⟩ := ht.create hp
  · refine ⟨⟨p, h⟩, t', hrun, rfl, ho.root.trans hgrown.root, ht', ⟨?_, ?_, ho.start⟩, fun q hq => ?_⟩
    · rw [ho.node, if_pos rfl]
    · rw [ho.content, if_pos rfl]
    · rw [← content?_grown hgrown q]
      apply content?_congr
      rw [ho.sight ht₁.tree, if_neg (data_ne_staging hp hq)]
  · exact absurd hfits hunfit

/-- A commit makes the draft the content of its entry and changes no other content. -/
theorem Draft.commit {w : Writer} {content : Bytes} (ht : Sound t) (hw : w.entry.Canonical)
    (h : Draft t w content) : ∃ t', w.commit.run.run t = (.ok (), t') ∧ t'.root = t.root ∧ Sound t' ∧
      (∀ q, q.Canonical → content? t' q = if q = w.entry then some content else content? t q) ∧
      ∀ l, l ≠ w.entry.place.data → l ≠ w.entry.place.staging → t'.sight l = t.sight l := by
  rcases ht.commit w hw with ⟨i, t', hi, hrun, ht', hmoved⟩ | ⟨hnone, -⟩
  · obtain rfl : w.handle.blob = i := by simpa [h.file] using hi
    refine ⟨t', hrun, hmoved.root, ht', fun q hq => ?_, fun l hd hs => ?_⟩
    · rw [content?_moved hw hq hmoved, h.written]
    · rw [hmoved.sight, if_neg hd, if_neg hs]
  · rw [h.file] at hnone
    cases hnone

end Effects

/-! ## Built stores -/

/-- Stores that operations on entries have made of the empty directory, in any order and with any number of
writers. What a failing operation leaves behind counts as well. -/
inductive Built (root : Text) : FileTree → Prop
  | empty : Built root (FileTree.empty root)
  | create {t : FileTree} {p : EntryPath} : Reachable p → Built root t → Built root ((create p).run.run t).2
  | append {t : FileTree} (w : Writer) (bytes : Bytes) : Built root t → Built root (w.append t bytes).2
  | commit {t : FileTree} {w : Writer} : Reachable w.entry → Built root t → Built root (w.commit.run.run t).2
  | delete {t : FileTree} {p : EntryPath} : Reachable p → Built root t → Built root ((delete p).run.run t).2
  | deleteAll {t : FileTree} {p : EntryPath} : Reachable p → Built root t → Built root ((deleteAll p).run.run t).2

theorem Built.write {root : Text} {t : FileTree} {p : EntryPath} (hp : Reachable p) (h : Built root t)
    (bytes : Bytes) : Built root ((Store.write p bytes).run.run t).2 := by
  have hcreate := h.create hp
  rw [run_write]
  rw [run_create] at hcreate ⊢
  cases hmake : t.makeDirectories p.place.folder with
  | mk r t₁ =>
    rw [hmake] at hcreate
    cases r with
    | error e => exact hcreate
    | ok u =>
      simp only at hcreate ⊢
      cases hopen : t₁.create p.place.staging with
      | error e =>
        rw [hopen] at hcreate
        exact hcreate
      | ok x =>
        rw [hopen] at hcreate
        exact (hcreate.append ⟨p, x.1⟩ bytes).commit hp

theorem Built.sound {root : Text} {t : FileTree} (h : Built root t) : Sound t ∧ t.root = root := by
  induction h with
  | empty => exact ⟨Sound.empty root, rfl⟩
  | create hp _ ih =>
    obtain ⟨t₁, ht₁, hgrown, ⟨-, -, h, t', hrun, ht', ho⟩ | ⟨-, e, -, hrun⟩⟩ := ih.1.create hp.canonical
    · rw [hrun]
      exact ⟨ht', (ho.root.trans hgrown.root).trans ih.2⟩
    · rw [hrun]
      exact ⟨ht₁, hgrown.root.trans ih.2⟩
  | append w bytes _ ih => exact ⟨ih.1.append w bytes, ih.2⟩
  | commit hw _ ih =>
    rcases ih.1.commit _ hw.canonical with ⟨i, t', -, hrun, ht', hmoved⟩ | ⟨-, e, hrun⟩
    · rw [hrun]
      exact ⟨ht', hmoved.root.trans ih.2⟩
    · rw [hrun]
      exact ih
  | delete hp _ ih =>
    rcases ih.1.delete hp.canonical with ⟨-, t', hrun, ht', hcut⟩ | ⟨e, -, -, hrun⟩
    · rw [hrun]
      exact ⟨ht', hcut.root.trans ih.2⟩
    · rw [hrun]
      exact ih
  | deleteAll hp _ ih =>
    rcases ih.1.deleteAll hp.canonical with ⟨-, t', hrun, ht', hcut⟩ | ⟨e, -, -, hrun⟩
    · rw [hrun]
      exact ⟨ht', hcut.root.trans ih.2⟩
    · rw [hrun]
      exact ih

end EntryServer.Store
