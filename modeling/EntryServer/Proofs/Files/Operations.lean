import EntryServer.Proofs.Files.Tree

/-! # What operations on files change

For each operation on a sound tree: which names it changes, which contents it changes, and that the tree
stays sound. Making directories only adds directories on the way, removing only takes whole branches away,
and opening, writing and renaming touch one file. -/
namespace EntryServer.FileTree
set_option autoImplicit false

/-! ## What is seen at a location -/

inductive Sight
  | directory
  | file (content : Bytes)
  deriving DecidableEq, Repr

/-- A directory, or a file with its content, whatever its number is. -/
def sight (t : FileTree) (l : Location) : Option Sight :=
  match t.node? l with
  | none => none
  | some .directory => some .directory
  | some (.file i) => some (.file (t.blob i))

theorem sight_eq_none {t : FileTree} {l : Location} : t.sight l = none ↔ t.node? l = none := by
  unfold sight
  split <;> simp_all

theorem sight_eq_directory {t : FileTree} {l : Location} :
    t.sight l = some .directory ↔ t.node? l = some .directory := by
  unfold sight
  split <;> simp_all

theorem sight_eq_file {t : FileTree} {l : Location} {content : Bytes} :
    t.sight l = some (.file content) ↔ ∃ i, t.node? l = some (.file i) ∧ t.blob i = content := by
  unfold sight
  split <;> simp_all

theorem sight_congr {t t' : FileTree} {l : Location} (hn : t'.node? l = t.node? l)
    (hb : ∀ i, t.node? l = some (.file i) → t'.blob i = t.blob i) : t'.sight l = t.sight l := by
  unfold sight
  rw [hn]
  split
  · rfl
  · rfl
  · next i h => rw [hb i h]

/-! ## Directories added on the way to a location -/

/-- The second tree is the first one with some directories added above or at a location. -/
structure Grown (t t' : FileTree) (l : Location) : Prop where
  root : t'.root = t.root
  blobs : t'.blobs = t.blobs
  strays : t'.strays = t.strays
  nodes : ∀ s, t'.node? s = t.node? s ∨
    t.node? s = none ∧ t'.node? s = some .directory ∧ s <:+ l

namespace Grown
variable {t t' t'' : FileTree} {l l' : Location}

theorem refl (t : FileTree) (l : Location) : Grown t t l := ⟨rfl, rfl, rfl, fun _ => Or.inl rfl⟩

theorem mono (h : Grown t t' l) (hl : l <:+ l') : Grown t t' l' :=
  ⟨h.root, h.blobs, h.strays, fun s => (h.nodes s).imp id fun ⟨h1, h2, h3⟩ => ⟨h1, h2, h3.trans hl⟩⟩

theorem trans (h : Grown t t' l) (h' : Grown t' t'' l) : Grown t t'' l := by
  refine ⟨h'.root.trans h.root, h'.blobs.trans h.blobs, h'.strays.trans h.strays, fun s => ?_⟩
  rcases h.nodes s with h1 | ⟨h1, h2, h3⟩
  · rcases h'.nodes s with h4 | ⟨h4, h5, h6⟩
    · exact Or.inl (h4.trans h1)
    · exact Or.inr ⟨h1 ▸ h4, h5, h6⟩
  · rcases h'.nodes s with h4 | ⟨h4, -, -⟩
    · exact Or.inr ⟨h1, h4.trans h2, h3⟩
    · simp [h2] at h4

theorem keeps (h : Grown t t' l) {s : Location} {n : Node} (hs : t.node? s = some n) : t'.node? s = some n := by
  rcases h.nodes s with h1 | ⟨h1, -, -⟩
  · rw [h1, hs]
  · simp [hs] at h1

theorem file_iff (h : Grown t t' l) {s : Location} {i : Nat} :
    t'.node? s = some (.file i) ↔ t.node? s = some (.file i) := by
  refine ⟨fun hs => ?_, h.keeps⟩
  rcases h.nodes s with h1 | ⟨-, h2, -⟩
  · rw [← h1, hs]
  · simp [hs] at h2

theorem clear (h : Grown t t' l) {s : Location} (hc : t.Clear s) : t'.Clear s :=
  fun r hr i hi => hc r hr i (h.file_iff.mp hi)

theorem sight (h : Grown t t' l) (s : Location) : t'.sight s = t.sight s ∨
    t.sight s = none ∧ t'.sight s = some .directory ∧ s <:+ l := by
  rcases h.nodes s with h1 | ⟨h1, h2, h3⟩
  · exact Or.inl (sight_congr h1 fun i _ => by rw [blob, blob, h.blobs])
  · exact Or.inr ⟨sight_eq_none.mpr h1, sight_eq_directory.mpr h2, h3⟩

end Grown

/-- A sound tree stays sound when one node is put where the system accepts the path, all directories are
kept, and no other name leads to the file that was put. -/
theorem Sound.placed {t t' : FileTree} (ht : t.Sound) {l : Location} {n : Node}
    (hslot : ∃ there, t.slot l = .ok there) (hroot : t'.root = t.root)
    (hstrays : t'.strays = t.strays) (hsize : t.blobs.size ≤ t'.blobs.size)
    (hdir : ∀ folder, t.node? folder = some .directory → t'.node? folder = some .directory)
    (hold : ∀ s m, t'.node? s = some m → s = l ∧ m = n ∨ t.node? s = some m)
    (hfile : ∀ i, n = .file i → i < t'.blobs.size ∧ ∀ s, t'.node? s = some (.file i) → s = l) : t'.Sound := by
  obtain ⟨there, hslot⟩ := hslot
  refine ⟨fun {name folder m} hm => ?_, fun {s m} hm hs => ?_, fun {s s' i} hi hi' => ?_, fun {s i} hi => ?_,
    hstrays.trans ht.texts⟩
  · apply hdir
    rcases hold _ m hm with ⟨rfl, -⟩ | hm
    · exact folder_of_slot hslot
    · exact ht.folder hm
  · rcases hold s m hm with ⟨rfl, -⟩ | hm
    · exact (fits_of_slot hslot).congr t' hroot
    · exact (ht.fits hm hs).congr t' hroot
  · rcases hold s _ hi with ⟨hs, hn⟩ | ho
    · rw [hs, (hfile i hn.symm).2 s' hi']
    · rcases hold s' _ hi' with ⟨hs', hn⟩ | ho'
      · rw [hs', (hfile i hn.symm).2 s hi]
      · exact ht.single ho ho'
  · rcases hold s _ hi with ⟨-, hn⟩ | ho
    · exact (hfile i hn.symm).1
    · exact Nat.lt_of_lt_of_le (ht.bounded ho) hsize

theorem Sound.put_directory {t : FileTree} (ht : t.Sound) {l : Location} (h : t.slot l = .ok none) :
    (t.put l .directory).Sound ∧ Grown t (t.put l .directory) l := by
  have hnone := node?_of_slot h
  have hl : l ≠ [] := by
    rintro rfl
    simp at hnone
  have hput := node?_put t hl .directory
  have hgrown : Grown t (t.put l .directory) l := by
    refine ⟨rfl, rfl, rfl, fun s => ?_⟩
    rw [hput]
    split
    · next heq =>
      subst heq
      exact Or.inr ⟨hnone, rfl, List.suffix_rfl⟩
    · exact Or.inl rfl
  have hold : ∀ s m, (t.put l .directory).node? s = some m → s = l ∧ m = .directory ∨ t.node? s = some m := by
    intro s m hm
    rw [hput] at hm
    split at hm
    · exact Or.inl ⟨‹_›, (Option.some.inj hm).symm⟩
    · exact Or.inr hm
  refine ⟨ht.placed ⟨none, h⟩ rfl rfl (Nat.le_refl _) (fun folder hf => hgrown.keeps hf) hold ?_, hgrown⟩
  intro i hi
  cases hi

theorem Sound.madeOrThere {t t' : FileTree} (ht : t.Sound) {l : Location} (hc : t.Clear l)
    {r : Except FileError Unit} (h : t.madeOrThere l = (r, t')) :
    t'.Sound ∧ Grown t t' l ∧
      match r with
      | .ok () => t'.node? l = some .directory
      | .error e => t.slot l = .error e := by
  unfold FileTree.madeOrThere makeDirectory isDirectory at h
  cases hs : t.slot l with
  | error e =>
    simp only [hs, Bool.false_eq_true, if_false, Prod.mk.injEq] at h
    obtain ⟨rfl, rfl⟩ := h
    exact ⟨ht, Grown.refl t l, rfl⟩
  | ok there =>
    cases there with
    | none =>
      simp only [hs, Prod.mk.injEq] at h
      obtain ⟨rfl, rfl⟩ := h
      obtain ⟨hsound, hgrown⟩ := ht.put_directory hs
      refine ⟨hsound, hgrown, ?_⟩
      have hl : l ≠ [] := by
        rintro rfl
        simpa using node?_of_slot hs
      simp [node?_put t hl]
    | some n =>
      have hn := node?_of_slot hs
      cases n with
      | file i => exact absurd hn (hc l List.suffix_rfl i)
      | directory =>
        simp only [hs, if_true, Prod.mk.injEq] at h
        obtain ⟨rfl, rfl⟩ := h
        exact ⟨ht, Grown.refl t l, hn⟩

theorem slot_nil (t : FileTree) :
    t.slot [] = if pathLimit ≤ t.pathSize [] then .error .nameTooLong else .ok (some .directory) := by
  simp [slot, walk]

/-- Where the folder stands, or the failure is not that it is missing, it is the path itself that the
system refuses. -/
theorem Sound.refused_of_slot {t : FileTree} (ht : t.Sound) {name : Text} {folder : Location}
    (hc : t.Clear folder) {e : FileError} (hs : t.slot (name :: folder) = .error e)
    (hfolder : e = .notFound → t.node? folder = some .directory) :
    ¬ t.Fits (name :: folder) ∧ (e = .nulInName ∨ e = .nameTooLong) := by
  have hunfit : ¬ t.Fits (name :: folder) := by
    intro hf
    have hmissing := ht.slot_clear hc hf
    rw [hs] at hmissing
    split at hmissing
    · contradiction
    · next hnot => exact hnot (hfolder (Except.error.inj hmissing))
  refine ⟨hunfit, ?_⟩
  rcases ht.slot_unfit hc hunfit with hnul | hlong | ⟨hmissing, hnot⟩
  · exact Or.inl (Except.error.inj (hs.symm.trans hnul))
  · exact Or.inr (Except.error.inj (hs.symm.trans hlong))
  · exact absurd (hfolder (Except.error.inj (hs.symm.trans hmissing))) hnot

/-- Making a directory with those on the way succeeds where the system accepts the path, and adds nothing
but directories in any case. -/
theorem Sound.makeDirectories {t t' : FileTree} (ht : t.Sound) {l : Location} (hc : t.Clear l)
    {r : Except FileError Unit} (h : t.makeDirectories l = (r, t')) :
    t'.Sound ∧ Grown t t' l ∧
      match r with
      | .ok () => t'.node? l = some .directory
      | .error e => ¬ t.Fits l ∧ (e = .nulInName ∨ e = .nameTooLong) := by
  induction l generalizing r t' with
  | nil =>
    obtain ⟨hsound, hgrown, hr⟩ := ht.madeOrThere hc (by simpa only [FileTree.makeDirectories] using h)
    refine ⟨hsound, hgrown, ?_⟩
    cases r with
    | ok u => exact hr
    | error e =>
      simp only at hr ⊢
      refine ⟨fun hf => by simp [hf.slot, FileTree.walk] at hr, ?_⟩
      rw [slot_nil] at hr
      split at hr
      · exact Or.inr (Except.error.inj hr).symm
      · contradiction
  | cons name folder ih =>
    have hcf : t.Clear folder := hc.suffix (List.suffix_cons ..)
    rw [FileTree.makeDirectories] at h
    by_cases hmissing : t.makeDirectory (name :: folder) = .error .notFound
    · rw [hmissing] at h
      simp only at h
      cases hup : t.makeDirectories folder with
      | mk r₁ t₁ =>
        obtain ⟨hsound₁, hgrown₁, hr₁⟩ := ih hcf hup
        have hgrown₁' := hgrown₁.mono (List.suffix_cons name folder)
        rw [hup] at h
        cases r₁ with
        | error e =>
          simp only [Prod.mk.injEq] at h
          obtain ⟨rfl, rfl⟩ := h
          exact ⟨hsound₁, hgrown₁', fun hf => hr₁.1 (hf.suffix (List.suffix_cons ..)), hr₁.2⟩
        | ok u =>
          obtain ⟨hsound, hgrown, hr⟩ := hsound₁.madeOrThere (hgrown₁'.clear hc) h
          refine ⟨hsound, hgrown₁'.trans hgrown, ?_⟩
          cases r with
          | ok u => exact hr
          | error e =>
            simp only at hr hr₁ ⊢
            obtain ⟨hunfit, he⟩ := hsound₁.refused_of_slot (hgrown₁.clear hcf) hr fun _ => hr₁
            exact ⟨fun hf => hunfit (hf.congr t₁ hgrown₁.root), he⟩
    · have hmade : t.madeOrThere (name :: folder) = (r, t') := by
        split at h
        · exact absurd ‹_› hmissing
        · exact h
      obtain ⟨hsound, hgrown, hr⟩ := ht.madeOrThere hc hmade
      refine ⟨hsound, hgrown, ?_⟩
      cases r with
      | ok u => exact hr
      | error e =>
        simp only at hr ⊢
        have hfound : e ≠ .notFound := by
          rintro rfl
          exact hmissing (by simp [makeDirectory, hr])
        exact ht.refused_of_slot hcf hr fun he => absurd he hfound

/-! ## Locations taken away -/

/-- The second tree is the first one without some locations. -/
structure Cut (t t' : FileTree) (taken : Location → Prop) : Prop where
  root : t'.root = t.root
  blobs : t'.blobs = t.blobs
  strays : t'.strays ⊆ t.strays
  gone : ∀ l, taken l → t'.node? l = none
  kept : ∀ l, ¬ taken l → t'.node? l = t.node? l

namespace Cut
variable {t t' t'' : FileTree} {taken taken' : Location → Prop}

theorem of_absent (h : ∀ l, taken l → t.node? l = none) : Cut t t taken :=
  ⟨rfl, rfl, List.Subset.refl _, h, fun _ _ => rfl⟩

/-- Locations at which nothing stands count as taken away or not, as one likes. -/
theorem congr (h : Cut t t' taken) (hg : ∀ l, t.node? l ≠ none → (taken l ↔ taken' l)) : Cut t t' taken' := by
  have absent : ∀ l, t.node? l = none → t'.node? l = none := by
    intro l hl
    by_cases htaken : taken l
    · exact h.gone l htaken
    · rw [h.kept l htaken, hl]
  refine ⟨h.root, h.blobs, h.strays, fun l hl => ?_, fun l hl => ?_⟩
  · by_cases hn : t.node? l = none
    · exact absent l hn
    · exact h.gone l ((hg l hn).mpr hl)
  · by_cases hn : t.node? l = none
    · rw [hn, absent l hn]
    · exact h.kept l fun htaken => hl ((hg l hn).mp htaken)

theorem trans (h : Cut t t' taken) (h' : Cut t' t'' taken') : Cut t t'' fun l => taken l ∨ taken' l := by
  refine ⟨h'.root.trans h.root, h'.blobs.trans h.blobs, List.Subset.trans h'.strays h.strays, fun l hl => ?_,
    fun l hl => ?_⟩
  · by_cases hg : taken' l
    · exact h'.gone l hg
    · rw [h'.kept l hg]
      exact h.gone l (hl.resolve_right hg)
  · rw [not_or] at hl
    rw [h'.kept l hl.2, h.kept l hl.1]

theorem node?_of_some (h : Cut t t' taken) {l : Location} {n : Node} (hn : t'.node? l = some n) :
    ¬ taken l ∧ t.node? l = some n := by
  by_cases hg : taken l
  · rw [h.gone l hg] at hn
    cases hn
  · exact ⟨hg, h.kept l hg ▸ hn⟩

theorem sight_kept (h : Cut t t' taken) {l : Location} (hl : ¬ taken l) : t'.sight l = t.sight l :=
  sight_congr (h.kept l hl) fun i _ => by rw [blob, blob, h.blobs]

theorem sight_gone (h : Cut t t' taken) {l : Location} (hl : taken l) : t'.sight l = none :=
  sight_eq_none.mpr (h.gone l hl)

/-- What is taken away goes with everything below it, so the rest still lies in directories. -/
theorem rooted (ht : t.Rooted) (h : Cut t t' taken) (hg : ∀ l name, taken l → taken (name :: l)) : t'.Rooted := by
  refine rooted_iff.mpr fun name folder n hn => ?_
  obtain ⟨hkept, hn⟩ := h.node?_of_some hn
  rw [h.kept folder fun hf => hkept (hg folder name hf)]
  exact ht.folder hn

theorem sound (ht : t.Sound) (ht' : t'.Rooted) (h : Cut t t' taken) : t'.Sound := by
  refine ⟨ht'.folder, fun {l n} hn hl => ?_, fun {l l' i} hl hl' => ?_, fun {l i} hl => ?_,
    List.subset_nil.mp (ht.texts ▸ h.strays)⟩
  · exact (ht.fits (h.node?_of_some hn).2 hl).congr t' h.root
  · exact ht.single (h.node?_of_some hl).2 (h.node?_of_some hl').2
  · rw [h.blobs]
    exact ht.bounded (h.node?_of_some hl).2

end Cut

theorem Sound.node_below {t : FileTree} (ht : t.Sound) {s l : Location} (hs : s <:+ l) (hn : t.node? s = none) :
    t.node? l = none := ht.rooted.node_below hs hn

theorem cut_erase (t : FileTree) {l : Location} (hne : l ≠ []) : Cut t (t.erase l) (· = l) := by
  refine ⟨rfl, rfl, List.Subset.refl _, fun l' h => ?_, fun l' h => ?_⟩
  · rw [node?_erase t hne, if_pos h]
  · rw [node?_erase t hne, if_neg h]

/-- Where a file is taken away, there is nothing below that would stay. -/
theorem Rooted.cut_file {t : FileTree} (ht : t.Rooted) {l : Location} (hne : l ≠ []) {i : Nat}
    (hl : t.node? l = some (.file i)) : Cut t (t.erase l) (l <:+ ·) := by
  refine (cut_erase t hne).congr fun l' hl' => ⟨?_, fun hs => ?_⟩
  · rintro rfl
    exact List.suffix_rfl
  · by_cases heq : l' = l
    · exact heq
    · exact absurd (ht.below_file hl hs heq) hl'

theorem cut_branch (t : FileTree) {l : Location} (hne : l ≠ []) : Cut t (t.eraseBranch l) (l <:+ ·) := by
  refine ⟨rfl, rfl, List.filter_sublist.subset, fun l' h => ?_, fun l' h => ?_⟩
  · rw [node?_eraseBranch t hne, if_pos h]
  · rw [node?_eraseBranch t hne, if_neg h]

theorem suffix_cons_of_suffix {s l : Location} (name : Text) (h : s <:+ l) : s <:+ name :: l :=
  h.trans (List.suffix_cons ..)

/-- The names that are no texts go with the directories that they lie in, and only with them. -/
structure Pruned (t t' : FileTree) (taken : Location → Prop) : Prop extends Cut t t' taken where
  left : t.Settled → ∀ s, s ∈ t'.strays ↔ s ∈ t.strays ∧ ¬ taken s.folder

namespace Pruned
variable {t t' t'' : FileTree} {taken taken' : Location → Prop}

theorem settled (ht : t.Settled) (h : Pruned t t' taken) : t'.Settled := by
  intro s hs
  obtain ⟨hs, hkept⟩ := (h.left ht s).mp hs
  rw [h.kept _ hkept, ht s hs]

/-- What goes was no directory, so no name goes with it. -/
theorem of_cut (h : Cut t t' taken) (hstrays : t'.strays = t.strays)
    (hdir : ∀ l, taken l → t.node? l ≠ some .directory) : Pruned t t' taken where
  toCut := h
  left ht s := by
    rw [hstrays]
    exact ⟨fun hs => ⟨hs, fun htaken => hdir _ htaken (ht s hs)⟩, And.left⟩

theorem of_absent (h : ∀ l, taken l → t.node? l = none) : Pruned t t taken :=
  of_cut (.of_absent h) rfl fun l hl => by simp [h l hl]

theorem congr (h : Pruned t t' taken) (hg : ∀ l, t.node? l ≠ none → (taken l ↔ taken' l)) : Pruned t t' taken' where
  toCut := h.toCut.congr hg
  left ht s := (h.left ht s).trans <| and_congr_right fun hs => not_congr (hg _ (by simp [ht s hs]))

theorem trans (h : Pruned t t' taken) (h' : Pruned t' t'' taken') : Pruned t t'' fun l => taken l ∨ taken' l where
  toCut := h.toCut.trans h'.toCut
  left ht s := by rw [h'.left (h.settled ht), h.left ht, not_or, and_assoc]

end Pruned

theorem pruned_erase (t : FileTree) {l : Location} (hne : l ≠ []) (hdir : t.node? l ≠ some .directory) :
    Pruned t (t.erase l) (· = l) :=
  .of_cut (cut_erase t hne) rfl fun _ hl => hl ▸ hdir

theorem Rooted.pruned_file {t : FileTree} (ht : t.Rooted) {l : Location} (hne : l ≠ []) {i : Nat}
    (hl : t.node? l = some (.file i)) : Pruned t (t.erase l) (l <:+ ·) := by
  refine .of_cut (ht.cut_file hne hl) rfl fun l' hs => ?_
  by_cases heq : l' = l
  · rw [heq, hl]
    nofun
  · rw [ht.below_file hl hs heq]
    nofun

theorem pruned_branch (t : FileTree) {l : Location} (hne : l ≠ []) : Pruned t (t.eraseBranch l) (l <:+ ·) where
  toCut := cut_branch t hne
  left _ s := by simp only [eraseBranch, List.mem_filter, Bool.not_eq_true', ← Bool.not_eq_true,
    List.isSuffixOf_iff_suffix]

/-! ## Files opened for writing -/

theorem blob_set (blobs : Array Bytes) (i j : Nat) (c : Bytes) (hi : i < blobs.size) :
    (blobs.setIfInBounds i c).getD j [] = if j = i then c else blobs.getD j [] := by
  by_cases h : j = i
  · subst h
    simp [Array.getD, hi]
  · simp [Array.getD_eq_getD_getElem?, Ne.symm h, h]

/-- A file is open at its start, and empty. It is the file that was there, or a new one. -/
structure Opened (t : FileTree) (l : Location) (h : Handle) (t' : FileTree) : Prop where
  root : t'.root = t.root
  strays : t'.strays = t.strays
  start : h.offset = 0
  node : ∀ s, t'.node? s = if s = l then some (.file h.blob) else t.node? s
  content : ∀ i, t'.blob i = if i = h.blob then [] else t.blob i
  origin : t.node? l = some (.file h.blob) ∨ t.node? l = none ∧ h.blob = t.blobs.size
  bounded : h.blob < t'.blobs.size
  size : t.blobs.size ≤ t'.blobs.size

theorem Opened.sound {t t' : FileTree} {l : Location} {h : Handle} (ht : t.Sound) (ho : Opened t l h t')
    (hslot : ∃ there, t.slot l = .ok there) : t'.Sound := by
  have hold : ∀ s m, t'.node? s = some m → s = l ∧ m = .file h.blob ∨ t.node? s = some m := by
    intro s m hm
    rw [ho.node] at hm
    split at hm
    · exact Or.inl ⟨‹_›, (Option.some.inj hm).symm⟩
    · exact Or.inr hm
  refine ht.placed hslot ho.root ho.strays ho.size ?_ hold ?_
  · intro folder hf
    rw [ho.node]
    split
    · next heq =>
      subst heq
      rcases ho.origin with hl | ⟨hl, -⟩
      · rw [hl] at hf
        cases hf
      · rw [hl] at hf
        cases hf
    · exact hf
  · intro i hi
    obtain rfl : h.blob = i := Node.file.inj hi
    refine ⟨ho.bounded, fun s hs => ?_⟩
    rcases hold s _ hs with ⟨heq, -⟩ | hs
    · exact heq
    · rcases ho.origin with hl | ⟨-, hb⟩
      · exact ht.single hs hl
      · have := ht.bounded hs
        omega

theorem Opened.file_iff {t t' : FileTree} {l s : Location} {h : Handle} (ho : Opened t l h t') {i : Nat}
    (hi : i < t.blobs.size) : t'.node? s = some (.file i) ↔ t.node? s = some (.file i) := by
  rw [ho.node]
  split
  · next heq =>
    rw [heq]
    rcases ho.origin with hl | ⟨hl, hb⟩
    · rw [hl]
    · simp only [hl, Option.some.injEq, Node.file.injEq, reduceCtorEq, iff_false]
      omega
  · rfl

theorem Opened.sight {t t' : FileTree} {l : Location} {h : Handle} (ht : t.Sound) (ho : Opened t l h t')
    (s : Location) : t'.sight s = if s = l then some (.file []) else t.sight s := by
  split
  · next heq =>
    rw [sight_eq_file]
    exact ⟨h.blob, by rw [ho.node, if_pos heq], by rw [ho.content, if_pos rfl]⟩
  · next hne =>
    apply sight_congr
    · rw [ho.node, if_neg hne]
    · intro i hi
      rw [ho.content, if_neg]
      rintro rfl
      rcases ho.origin with hl | ⟨-, hb⟩
      · exact hne (ht.single hi hl)
      · have := ht.bounded hi
        omega

theorem Sound.create {t : FileTree} (ht : t.Sound) {l : Location} (hne : l ≠ []) :
    match t.create l with
    | .ok (h, t') => t'.Sound ∧ Opened t l h t'
    | .error e => t.slot l = .error e ∨ e = .isADirectory ∧ t.node? l = some .directory := by
  unfold FileTree.create
  cases hs : t.slot l with
  | error e => exact Or.inl rfl
  | ok there =>
    have hn := node?_of_slot hs
    match there, hn with
    | some .directory, hn => exact Or.inr ⟨rfl, hn⟩
    | some (.file i), hn =>
      have hi := ht.bounded hn
      have ho : Opened t l ⟨i, 0⟩ { t with blobs := t.blobs.setIfInBounds i [] } := by
        refine ⟨rfl, rfl, rfl, fun s => ?_, fun j => blob_set t.blobs i j [] hi, Or.inl hn, by simpa using hi,
          by simp⟩
        split
        · next heq =>
          rw [heq]
          exact hn
        · rfl
      exact ⟨ho.sound ht ⟨_, hs⟩, ho⟩
    | none, hn =>
      have ho : Opened t l ⟨t.blobs.size, 0⟩ { t.put l (.file t.blobs.size) with blobs := t.blobs.push [] } := by
        refine ⟨rfl, rfl, rfl, node?_put t hne _, fun j => ?_, Or.inr ⟨hn, rfl⟩, by simp, by simp⟩
        simp only [blob, Array.getD_eq_getD_getElem?, Array.getElem?_push]
        split
        · rfl
        · rfl
      exact ⟨ho.sound ht ⟨_, hs⟩, ho⟩

theorem Sound.of_contents {t t' : FileTree} (ht : t.Sound) (hroot : t'.root = t.root)
    (hnodes : t'.nodes = t.nodes) (hstrays : t'.strays = t.strays) (hsize : t'.blobs.size = t.blobs.size) :
    t'.Sound := by
  have hnode : ∀ l, t'.node? l = t.node? l := fun l => by rw [node?, node?, hnodes]
  refine ⟨fun {name folder n} hn => ?_, fun {l n} hn hl => ?_, fun {l l' i} hl hl' => ?_, fun {l i} hl => ?_,
    hstrays.trans ht.texts⟩
  · rw [hnode] at hn ⊢
    exact ht.folder hn
  · rw [hnode] at hn
    exact (ht.fits hn hl).congr t' hroot
  · rw [hnode] at hl hl'
    exact ht.single hl hl'
  · rw [hnode] at hl
    rw [hsize]
    exact ht.bounded hl

theorem Sound.write {t : FileTree} (ht : t.Sound) (h : Handle) (bytes : Bytes) : (t.write h bytes).2.Sound :=
  ht.of_contents rfl rfl rfl (by simp [FileTree.write])

theorem node?_write (t : FileTree) (h : Handle) (bytes : Bytes) (l : Location) :
    (t.write h bytes).2.node? l = t.node? l := rfl

theorem blob_write {t : FileTree} {h : Handle} (hb : h.blob < t.blobs.size) (bytes : Bytes) (i : Nat) :
    (t.write h bytes).2.blob i = if i = h.blob then overwrite (t.blob h.blob) h.offset bytes else t.blob i :=
  blob_set t.blobs h.blob i _ hb

/-- Writing to a file changes what is seen at the names that lead to it. There may be none any more. -/
theorem sight_write {t : FileTree} {h : Handle} (hbound : h.blob < t.blobs.size) (bytes : Bytes) (s : Location) :
    (t.write h bytes).2.sight s = if t.node? s = some (.file h.blob) then
      some (.file (overwrite (t.blob h.blob) h.offset bytes)) else t.sight s := by
  have hb := blob_write hbound bytes
  split
  · next hs => exact sight_eq_file.mpr ⟨h.blob, hs, by rw [hb, if_pos rfl]⟩
  · next hs =>
    apply sight_congr (node?_write t h bytes s)
    intro i hi
    rw [hb, if_neg]
    rintro rfl
    exact hs hi

theorem Sound.sight_write {t : FileTree} (ht : t.Sound) {l : Location} {h : Handle}
    (hl : t.node? l = some (.file h.blob)) (bytes : Bytes) (s : Location) :
    (t.write h bytes).2.sight s =
      if s = l then some (.file (overwrite (t.blob h.blob) h.offset bytes)) else t.sight s := by
  rw [FileTree.sight_write (ht.bounded hl)]
  by_cases heq : s = l
  · rw [if_pos heq, if_pos (heq ▸ hl)]
  · rw [if_neg heq, if_neg fun hs => heq (ht.single hs hl)]

theorem overwrite_at_end (old new : Bytes) : overwrite old old.length new = old ++ new := by
  unfold overwrite
  split
  · next h => simp [h]
  · simp

theorem overwrite_eq_nil_iff {old new : Bytes} {offset : Nat} :
    overwrite old offset new = [] ↔ old = [] ∧ new = [] := by
  unfold overwrite
  split
  · next h => simp [h]
  · next h => simp [h]

/-! ## Files renamed -/

/-- A file has another name, under which it may replace another one. -/
structure Moved (t : FileTree) (source target : Location) (i : Nat) (t' : FileTree) : Prop where
  root : t'.root = t.root
  blobs : t'.blobs = t.blobs
  strays : t'.strays = t.strays
  node : ∀ l, t'.node? l = if l = target then some (.file i) else if l = source then none else t.node? l

theorem Moved.sight {t t' : FileTree} {source target : Location} {i : Nat} (h : Moved t source target i t')
    (s : Location) : t'.sight s =
      if s = target then some (.file (t.blob i)) else if s = source then none else t.sight s := by
  have hblob : ∀ j, t'.blob j = t.blob j := fun j => by rw [blob, blob, h.blobs]
  split
  · next heq => exact sight_eq_file.mpr ⟨i, by rw [h.node, if_pos heq], hblob i⟩
  · next hne =>
    split
    · next heq => exact sight_eq_none.mpr (by rw [h.node, if_neg hne, if_pos heq])
    · next hne' => exact sight_congr (by rw [h.node, if_neg hne, if_neg hne']) fun j _ => hblob j

theorem rename_file {t : FileTree} {source target : Location} {i : Nat} {there : Option Node}
    (hs : t.slot source = .ok (some (.file i))) (ht : t.slot target = .ok there) (hd : there ≠ some .directory)
    (hsource : source ≠ []) (htarget : target ≠ []) :
    ∃ t', t.rename source target = .ok t' ∧ Moved t source target i t' := by
  refine ⟨(t.erase source).put target (.file i), ?_, rfl, rfl, rfl, fun l => ?_⟩
  · rw [FileTree.rename, hs, ht]
    match there, hd with
    | none, _ => rfl
    | some (.file j), _ => rfl
    | some .directory, hd => exact absurd rfl hd
  · rw [node?_put _ htarget, node?_erase _ hsource]

theorem Moved.sound {t t' : FileTree} {source target : Location} {i : Nat} (ht : t.Sound)
    (h : Moved t source target i t') (hs : t.node? source = some (.file i))
    (htarget : ∃ there, t.slot target = .ok there ∧ there ≠ some .directory) : t'.Sound := by
  obtain ⟨there, hslot, hd⟩ := htarget
  have hthere := node?_of_slot hslot
  have old : ∀ l n, t'.node? l = some n → l = target ∧ n = .file i ∨ l ≠ source ∧ t.node? l = some n := by
    intro l n hn
    rw [h.node] at hn
    split at hn
    · next heq => exact Or.inl ⟨heq, (Option.some.inj hn).symm⟩
    · split at hn
      · cases hn
      · exact Or.inr ⟨‹_›, hn⟩
  have hsize : t.blobs.size ≤ t'.blobs.size := Nat.le_of_eq (by rw [h.blobs])
  refine ht.placed ⟨there, hslot⟩ h.root h.strays hsize ?_ (fun l n hn => (old l n hn).imp id And.right) ?_
  -- a directory is neither the source nor the target
  · intro folder hf
    rw [h.node]
    split
    · next heq =>
      subst heq
      exact absurd (hthere.symm.trans hf) hd
    · split
      · next heq =>
        rw [heq, hs] at hf
        cases hf
      · exact hf
  · intro j hj
    obtain rfl : i = j := Node.file.inj hj
    refine ⟨Nat.lt_of_lt_of_le (ht.bounded hs) hsize, fun l hl => ?_⟩
    rcases old l _ hl with ⟨heq, -⟩ | ⟨hne, hl⟩
    · exact heq
    · exact absurd (ht.single hl hs) hne

end EntryServer.FileTree
