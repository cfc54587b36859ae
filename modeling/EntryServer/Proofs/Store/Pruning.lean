import EntryServer.Proofs.EntryPath.Layout
import EntryServer.Proofs.Store.Operations

/-! # Pruning a branch

What deleting all of an entry takes from a tree that may hold anything: stray files and directories, contents that
were never committed, names that look like those of facets, names that are no texts. Where it succeeds it takes the
locations of `Removed`, which are the facets of the branch and none of any other entry, and then there is nothing
left for a second time. -/
namespace EntryServer.Store
set_option autoImplicit false
open EntryPath FileTree

/-! ## Looking again -/

/-- The walk to a location comes to its end, or to something that is missing. -/
def Passable (t : FileTree) (l : Location) : Prop := ∀ e, t.walk l = .error e → e = .notFound

/-- The system accepts the path as well. -/
def Accessible (t : FileTree) (l : Location) : Prop := ∀ e, t.slot l = .error e → e = .notFound

/-- The path is accepted with a slash at its end, too, and no file stands there. -/
def AccessibleFolder (t : FileTree) (l : Location) : Prop := ∀ e, t.folderSlot l = .error e → e = .notFound

/-- Nothing stands at a location, which is all that the look comes to. -/
def Missing (t : FileTree) (l : Location) : Prop := t.slot l = .ok none ∨ t.slot l = .error .notFound

section Looks
variable {t t' : FileTree} {taken : Location → Prop} {l up : Location} {name : Text}

theorem passable_cons_iff : Passable t (name :: up) ↔ Passable t up ∧
    (∀ i, t.walk up ≠ .ok (some (.file i))) ∧
    (t.walk up = .ok (some .directory) → Utf8.size name ≤ nameLimit) := by
  unfold Passable
  rw [FileTree.walk]
  cases t.walk up with
  | error e => simp
  | ok there =>
    cases there with
    | none => simp
    | some n =>
      cases n with
      | file i => simp
      | directory =>
        by_cases hlong : nameLimit < Utf8.size name
        · simp [hlong]
        · simp [hlong, Nat.le_of_not_lt hlong]

theorem accessible_iff : Accessible t l ↔
    l.any (·.contains '\x00') = false ∧ t.pathSize l < pathLimit ∧ Passable t l := by
  unfold Accessible Passable FileTree.slot
  cases l.any (·.contains '\x00') with
  | true => simp
  | false =>
    by_cases hlong : pathLimit ≤ t.pathSize l
    · simp [hlong, Nat.not_lt.mpr hlong]
    · simp [hlong, Nat.lt_of_not_le hlong]

theorem accessible_of_ok {there : Option Node} (h : t.slot l = .ok there) : Accessible t l := by
  intro e he
  rw [h] at he
  cases he

theorem accessible_of_notFound (h : t.slot l = .error .notFound) : Accessible t l := fun _ he =>
  (Except.error.inj (h.symm.trans he)).symm

theorem accessibleFolder_of_ok {there : Option Node} (h : t.folderSlot l = .ok there) : AccessibleFolder t l := by
  intro e he
  rw [h] at he
  cases he

theorem accessibleFolder_of_notFound (h : t.folderSlot l = .error .notFound) : AccessibleFolder t l := fun _ he =>
  (Except.error.inj (h.symm.trans he)).symm

theorem accessibleFolder_iff : AccessibleFolder t l ↔
    Accessible t l ∧ (∀ i, t.slot l ≠ .ok (some (.file i))) ∧ t.folderSize l < pathLimit := by
  unfold AccessibleFolder Accessible
  by_cases hsize : t.folderSize l < pathLimit
  · rw [folderSlot_of_short hsize]
    cases t.slot l with
    | error e => simp [hsize]
    | ok there =>
      match there with
      | none => simp [hsize]
      | some .directory => simp [hsize]
      | some (.file i) => simp
  · simp only [hsize, and_false, iff_false]
    rcases folderSlot_of_long (Nat.not_lt.mp hsize) with h | h
    · simp [h]
    · simp [h]

/-- A directory goes by a path with a slash as it does by one without. -/
theorem removeFolder_eq_remove (h : AccessibleFolder t l) : t.removeFolder l = t.remove l := by
  rw [FileTree.removeFolder, FileTree.remove]
  cases hs : t.folderSlot l with
  | error e =>
    obtain rfl := h e hs
    rw [(slot_of_folderSlot_notFound hs).1]
  | ok there =>
    obtain ⟨hslot, hfile, -⟩ := folderSlot_eq_ok_iff.mp hs
    rw [hslot]
    cases there with
    | none => rfl
    | some n =>
      cases n with
      | directory => rfl
      | file i => exact absurd rfl (hfile i)

theorem accessible_of_node {n : Node} (ht : t.Sound) (hn : t.node? l = some n) (hl : l ≠ []) : Accessible t l :=
  accessible_of_ok (ht.slot hn hl)

theorem node?_of_slot_notFound (ht : t.Rooted) (h : t.slot l = .error .notFound) : t.node? l = none := by
  unfold FileTree.slot at h
  split at h
  · cases h
  · split at h
    · cases h
    · exact ht.node?_of_notFound h

theorem node?_of_folderSlot_notFound (ht : t.Rooted) (h : t.folderSlot l = .error .notFound) : t.node? l = none :=
  node?_of_slot_notFound ht (slot_of_folderSlot_notFound h).1

theorem node?_of_folderSlot {there : Option Node} (h : t.folderSlot l = .ok there) : t.node? l = there :=
  node?_of_slot (folderSlot_eq_ok_iff.mp h).1

theorem Accessible.slot {n : Node} (h : Accessible t l) (ht : t.Rooted) (hn : t.node? l = some n) :
    t.slot l = .ok (some n) := by
  cases hs : t.slot l with
  | error e =>
    obtain rfl := h e hs
    rw [node?_of_slot_notFound ht hs] at hn
    cases hn
  | ok there => rw [← node?_of_slot hs, hn]

theorem Passable.walk {n : Node} (h : Passable t l) (ht : t.Rooted) (hn : t.node? l = some n) :
    t.walk l = .ok (some n) := by
  cases hw : t.walk l with
  | error e =>
    obtain rfl := h e hw
    rw [ht.node?_of_notFound hw] at hn
    cases hn
  | ok there => rw [← node?_of_walk hw, hn]

theorem Accessible.folder (h : Accessible t (name :: up)) : AccessibleFolder t up := by
  obtain ⟨hnul, hsize, hwalk⟩ := accessible_iff.mp h
  obtain ⟨hfolder, hfile, -⟩ := passable_cons_iff.mp hwalk
  rw [List.any_cons, Bool.or_eq_false_iff] at hnul
  have hle := t.pathSize_suffix (List.suffix_cons name up)
  refine accessibleFolder_iff.mpr ⟨accessible_iff.mpr ⟨hnul.2, Nat.lt_of_le_of_lt hle hsize, hfolder⟩, ?_, ?_⟩
  · exact fun i hslot => hfile i (walk_of_slot hslot)
  · exact Nat.lt_of_le_of_lt (t.folderSize_le name up) hsize

/-- Beside a name that can be looked up, a name that is no longer can be looked up. -/
theorem Accessible.beside {a b : Text} (h : Accessible t (a :: up)) (hsize : Utf8.size b ≤ Utf8.size a)
    (hb : '\x00' ∈ b → '\x00' ∈ a) : Accessible t (b :: up) := by
  obtain ⟨hnul, hpath, hwalk⟩ := accessible_iff.mp h
  obtain ⟨hfolder, hfile, hname⟩ := passable_cons_iff.mp hwalk
  refine accessible_iff.mpr ⟨?_, ?_, passable_cons_iff.mpr ⟨hfolder, hfile, fun hw => Nat.le_trans hsize (hname hw)⟩⟩
  · rw [List.any_cons, Bool.or_eq_false_iff] at hnul ⊢
    refine ⟨?_, hnul.2⟩
    simp only [List.contains_eq_mem, decide_eq_false_iff_not] at hnul ⊢
    exact fun hm => hnul.1 (hb hm)
  · simp only [pathSize, namesSize_cons] at hpath ⊢
    omega

theorem walk_of_cut (ht : t.Rooted) (ht' : t'.Rooted) (h : Cut t t' taken) (hl : Passable t l) :
    t'.walk l = .ok (t'.node? l) ∨ t'.walk l = .error .notFound ∧ t'.node? l = none := by
  induction l with
  | nil => exact Or.inl (by rw [FileTree.walk, node?_nil])
  | cons name folder ih =>
    obtain ⟨hfolder, hfile, hname⟩ := passable_cons_iff.mp hl
    have hbelow : t'.node? folder = none → t'.node? (name :: folder) = none :=
      ht'.node_below (List.suffix_cons name folder)
    rw [FileTree.walk]
    rcases ih hfolder with hw | ⟨hw, hnone⟩
    · rw [hw]
      cases hn : t'.node? folder with
      | none => exact Or.inr ⟨rfl, hbelow hn⟩
      | some n =>
        -- what the folder is now, it was before
        have hbefore := hfolder.walk ht (h.node?_of_some hn).2
        cases n with
        | file i => exact absurd hbefore (hfile i)
        | directory =>
          simp only
          rw [if_neg (Nat.not_lt.mpr (hname hbefore))]
          exact Or.inl rfl
    · rw [hw]
      exact Or.inr ⟨rfl, hbelow hnone⟩

/-- What is left of a tree is looked up as before. -/
theorem slot_of_cut (ht : t.Rooted) (ht' : t'.Rooted) (h : Cut t t' taken) (hl : Accessible t l) :
    t'.slot l = .ok (t'.node? l) ∨ t'.slot l = .error .notFound ∧ t'.node? l = none := by
  obtain ⟨hnul, hsize, hwalk⟩ := accessible_iff.mp hl
  have hsize' : t'.pathSize l < pathLimit := by
    rw [pathSize, h.root]
    exact hsize
  rw [FileTree.slot, hnul, if_neg (by decide), if_neg (Nat.not_le.mpr hsize')]
  exact walk_of_cut ht ht' h hwalk

theorem Accessible.of_cut (hl : Accessible t l) (ht : t.Rooted) (ht' : t'.Rooted) (h : Cut t t' taken) :
    Accessible t' l := by
  rcases slot_of_cut ht ht' h hl with hs | ⟨hs, -⟩
  · exact accessible_of_ok hs
  · exact accessible_of_notFound hs

/-- A folder out of which names were taken is found as it was, or is gone as well. -/
theorem AccessibleFolder.of_cut (hl : AccessibleFolder t l) (ht : t.Rooted) (ht' : t'.Rooted) (h : Cut t t' taken) :
    AccessibleFolder t' l := by
  obtain ⟨haccess, hfile, hsize⟩ := accessibleFolder_iff.mp hl
  refine accessibleFolder_iff.mpr ⟨haccess.of_cut ht ht' h, fun i hslot => ?_, ?_⟩
  · have hbefore := (h.node?_of_some (node?_of_slot hslot)).2
    exact hfile i (haccess.slot ht hbefore)
  · rw [folderSize, h.root]
    exact hsize

theorem missing_of_cut (ht : t.Rooted) (ht' : t'.Rooted) (h : Cut t t' taken) (hl : Accessible t l)
    (htaken : taken l) : Missing t' l := by
  have hnone := h.gone l htaken
  rcases slot_of_cut ht ht' h hl with hs | ⟨hs, -⟩
  · exact Or.inl (by rw [hs, hnone])
  · exact Or.inr hs

theorem Missing.unlink (h : Missing t l) : t.unlink l = .error .notFound := by
  rw [FileTree.unlink]
  rcases h with h | h
  · rw [h]
  · rw [h]

end Looks

/-! ## Steps that succeed -/

section Steps
variable {t t' : FileTree} {l folder : Location} {p : EntryPath}

theorem delete_takes (ht : t.Rooted) (h : (delete p).run.run t = (.ok (), t')) :
    Accessible t p.place.data ∧ t'.Rooted ∧ Pruned t t' (· = p.place.data) := by
  have hne : p.place.data ≠ [] := List.cons_ne_nil _ _
  rw [run_delete, FileTree.unlink] at h
  cases hslot : t.slot p.place.data with
  | error e =>
    rw [hslot] at h
    cases e <;> cases h
    refine ⟨accessible_of_notFound hslot, ht, Pruned.of_absent fun l hl => ?_⟩
    rw [hl]
    exact node?_of_slot_notFound ht hslot
  | ok there =>
    have haccess := accessible_of_ok hslot
    have hnode := node?_of_slot hslot
    rw [hslot] at h
    cases there with
    | none =>
      cases h
      exact ⟨haccess, ht, Pruned.of_absent fun l hl => by rw [hl, hnode]⟩
    | some n =>
      cases n with
      | directory => cases h
      | file i =>
        cases h
        have hcut := ht.cut_file hne hnode
        exact ⟨haccess, hcut.rooted ht fun _ name => suffix_cons_of_suffix name,
          pruned_erase t hne (by rw [hnode]; nofun)⟩

theorem removeAny_takes (ht : t.Rooted) (hl : l ≠ []) {path : Text}
    (h : (removeAny path l).run.run t = (.ok (), t')) : t'.Rooted ∧ Pruned t t' (l <:+ ·) := by
  rw [run_removeAny, FileTree.remove] at h
  cases hslot : t.slot l with
  | error e =>
    rw [hslot] at h
    cases e <;> cases h
    exact ⟨ht, Pruned.of_absent fun l' hs => ht.node_below hs (node?_of_slot_notFound ht hslot)⟩
  | ok there =>
    have hnode := node?_of_slot hslot
    rw [hslot] at h
    cases there with
    | none =>
      cases h
      exact ⟨ht, Pruned.of_absent fun l' hs => ht.node_below hs hnode⟩
    | some n =>
      cases n with
      | directory =>
        cases h
        have hcut := pruned_branch t hl
        exact ⟨hcut.rooted ht fun _ name => suffix_cons_of_suffix name, hcut⟩
      | file i =>
        cases h
        have hcut := ht.pruned_file hl hnode
        exact ⟨hcut.rooted ht fun _ name => suffix_cons_of_suffix name, hcut⟩

theorem removeFolder_takes (ht : t.Rooted) (hne : folder ≠ []) {path : Text}
    (h : (removeFolder path folder).run.run t = (.ok (), t')) :
    AccessibleFolder t folder ∧ t'.Rooted ∧ Pruned t t' (folder <:+ ·) := by
  have haccess : AccessibleFolder t folder := by
    intro e he
    rw [run_removeFolder, FileTree.removeFolder, he] at h
    cases e <;> cases h
    rfl
  rw [run_removeFolder, removeFolder_eq_remove haccess, ← run_removeAny] at h
  exact ⟨haccess, removeAny_takes ht hne h⟩

theorem removeAll_takes (ht : t.Rooted) {folderText : Text} {names : List Text}
    (h : (removeAll folderText folder names).run.run t = (.ok (), t')) :
    t'.Rooted ∧ Pruned t t' fun l => ∃ name ∈ names, name :: folder <:+ l := by
  induction names generalizing t with
  | nil =>
    cases h
    exact ⟨ht, Pruned.of_absent fun l ⟨_, hm, _⟩ => absurd hm List.not_mem_nil⟩
  | cons name names ih =>
    rw [removeAll, run_bind] at h
    cases hrun : (removeAny (folderText ++ name) (name :: folder)).run.run t with
    | mk r t₁ =>
      rw [hrun] at h
      cases r with
      | error e => cases h
      | ok u =>
        obtain ⟨ht₁, hcut₁⟩ := removeAny_takes ht (List.cons_ne_nil _ _) hrun
        obtain ⟨ht', hcut⟩ := ih ht₁ h
        exact ⟨ht', (hcut₁.trans hcut).congr fun l _ => by simp⟩

theorem removeListed_takes (ht : t.Rooted) {folderText : Text} {which : Text → Bool}
    (h : (removeListed folderText folder which).run.run t = (.ok (), t')) :
    AccessibleFolder t folder ∧ t'.Rooted ∧ Pruned t t' fun l => ∃ name, which name = true ∧ name :: folder <:+ l := by
  have hnothing : t.node? folder = none → Pruned t t fun l => ∃ name, which name = true ∧ name :: folder <:+ l :=
    fun hnone => Pruned.of_absent fun l ⟨name, _, hs⟩ => ht.node_below ((List.suffix_cons ..).trans hs) hnone
  rw [run_removeListed, FileTree.list] at h
  cases hslot : t.folderSlot folder with
  | error e =>
    rw [hslot] at h
    cases e <;> cases h
    exact ⟨accessibleFolder_of_notFound hslot, ht, hnothing (node?_of_folderSlot_notFound ht hslot)⟩
  | ok there =>
    have haccess := accessibleFolder_of_ok hslot
    rw [hslot] at h
    cases there with
    | none =>
      cases h
      exact ⟨haccess, ht, hnothing (node?_of_folderSlot hslot)⟩
    | some n =>
      obtain ⟨ht', hcut⟩ := removeAll_takes ht h
      refine ⟨haccess, ht', hcut.congr fun l hl => ⟨?_, ?_⟩⟩
      · rintro ⟨name, hname, hs⟩
        exact ⟨name, (List.mem_filter.mp hname).2, hs⟩
      · rintro ⟨name, hname, hs⟩
        have hthere : name ∈ t.namesIn folder := by
          rw [mem_namesIn, Option.isSome_iff_ne_none]
          exact fun hnone => hl (ht.node_below hs hnone)
        exact ⟨name, List.mem_filter.mpr ⟨hthere, hname⟩, hs⟩

/-- Everything below a directory lies at or below a name in it. -/
theorem exists_name_suffix_iff {l : Location} : (∃ name : Text, name :: folder <:+ l) ↔ folder <:+ l ∧ l ≠ folder := by
  constructor
  · rintro ⟨name, hs⟩
    refine ⟨(List.suffix_cons name folder).trans hs, ?_⟩
    rintro rfl
    exact not_cons_suffix name l hs
  · rintro ⟨⟨way, rfl⟩, hne⟩
    rcases List.eq_nil_or_concat way with rfl | ⟨above, name, rfl⟩
    · exact absurd rfl hne
    · exact ⟨name, above, by simp⟩

/-- Names that are no texts are removed without touching anything else. -/
theorem removeStrays_takes {path : Text} {strays : List Stray}
    (h : (removeStrays path strays).run.run t = (.ok (), t')) :
    t' = { t with strays := t.strays.filter (· ∉ strays) } := by
  induction strays generalizing t with
  | nil =>
    cases h
    simp
  | cons s strays ih =>
    rw [run_removeStrays] at h
    split at h
    · cases h
    · rw [ih h]
      simp only [eraseStray, List.filter_filter, List.mem_cons, not_or, FileTree.mk.injEq, true_and]
      exact List.filter_congr fun s' _ => by rw [Bool.and_comm, ← Bool.decide_and]

theorem emptyFolder_takes (ht : t.Rooted) {path : Text} (h : (emptyFolder path folder).run.run t = (.ok (), t')) :
    AccessibleFolder t folder ∧ t'.Rooted ∧
      Cut t t' (fun l => ∃ name : Text, name :: folder <:+ l) ∧ t'.straysIn folder = [] ∧
      (t.Settled → ∀ s, s ∈ t'.strays ↔ s ∈ t.strays ∧ ¬ folder <:+ s.folder) := by
  rw [run_emptyFolder] at h
  split at h
  · cases h
  · next t₁ hlisted =>
    obtain ⟨hfolder, ht₁, hcut⟩ := removeListed_takes ht hlisted
    simp only [true_and] at hcut
    obtain rfl := removeStrays_takes h
    refine ⟨hfolder, ht₁, ⟨hcut.root, hcut.blobs, ?_, hcut.gone, hcut.kept⟩, ?_, fun hsettled s => ?_⟩
    · exact List.Subset.trans List.filter_sublist.subset hcut.strays
    · simp only [straysIn, List.mem_filter, List.filter_filter, List.filter_eq_nil_iff, decide_eq_true_eq,
        Bool.and_eq_true]
      tauto
    · have hself : s.folder = folder → folder <:+ s.folder := fun h => h ▸ List.suffix_rfl
      simp only [List.mem_filter, straysIn, hcut.left hsettled, exists_name_suffix_iff, decide_eq_true_eq]
      tauto

/-! ## Steps that cannot fail -/

theorem delete_ok (h : Accessible t p.place.data) (hdir : t.node? p.place.data ≠ some .directory) :
    ∃ t', (delete p).run.run t = (.ok (), t') := by
  rw [run_delete, FileTree.unlink]
  cases hslot : t.slot p.place.data with
  | error e =>
    obtain rfl := h e hslot
    exact ⟨t, rfl⟩
  | ok there =>
    cases there with
    | none => exact ⟨t, rfl⟩
    | some n =>
      cases n with
      | directory => exact absurd (node?_of_slot hslot) hdir
      | file i => exact ⟨_, rfl⟩

theorem removeAny_ok (h : Accessible t l) (path : Text) : ∃ t', (removeAny path l).run.run t = (.ok (), t') := by
  rw [run_removeAny, FileTree.remove]
  cases hslot : t.slot l with
  | error e =>
    obtain rfl := h e hslot
    exact ⟨t, rfl⟩
  | ok there =>
    match there with
    | none => exact ⟨t, rfl⟩
    | some .directory => exact ⟨_, rfl⟩
    | some (.file i) => exact ⟨_, rfl⟩

theorem removeFolder_ok (h : AccessibleFolder t folder) (path : Text) :
    ∃ t', (removeFolder path folder).run.run t = (.ok (), t') := by
  rw [run_removeFolder, removeFolder_eq_remove h, ← run_removeAny]
  exact removeAny_ok (accessibleFolder_iff.mp h).1 path

theorem removeAll_ok (ht : t.Rooted) (folderText : Text) {names : List Text}
    (h : ∀ name ∈ names, Accessible t (name :: folder)) :
    ∃ t', (removeAll folderText folder names).run.run t = (.ok (), t') := by
  induction names generalizing t with
  | nil => exact ⟨t, rfl⟩
  | cons name names ih =>
    obtain ⟨t₁, hrun⟩ := removeAny_ok (h name (List.mem_cons_self ..)) (folderText ++ name)
    obtain ⟨ht₁, hcut⟩ := removeAny_takes ht (List.cons_ne_nil _ _) hrun
    obtain ⟨t', hrest⟩ := ih ht₁ fun m hm => (h m (List.mem_cons_of_mem _ hm)).of_cut ht ht₁ hcut.toCut
    refine ⟨t', ?_⟩
    rw [removeAll, run_bind, hrun]
    exact hrest

theorem removeListed_ok (ht : t.Rooted) (hfolder : AccessibleFolder t folder) (folderText : Text)
    (which : Text → Bool) (h : ∀ name n, t.node? (name :: folder) = some n → Accessible t (name :: folder)) :
    ∃ t', (removeListed folderText folder which).run.run t = (.ok (), t') := by
  rw [run_removeListed, FileTree.list]
  cases hslot : t.folderSlot folder with
  | error e =>
    obtain rfl := hfolder e hslot
    exact ⟨t, rfl⟩
  | ok there =>
    cases there with
    | none => exact ⟨t, rfl⟩
    | some n =>
      refine removeAll_ok ht folderText fun name hname => ?_
      obtain ⟨n, hn⟩ := Option.isSome_iff_exists.mp (mem_namesIn.mp (List.mem_filter.mp hname).1)
      exact h name n hn

/-- Where every name is a text, a directory is emptied of its names. -/
theorem emptyFolder_ok (ht : t.Rooted) (htexts : t.strays = []) (hfolder : AccessibleFolder t folder) (path : Text)
    (h : ∀ name n, t.node? (name :: folder) = some n → Accessible t (name :: folder)) :
    ∃ t', (emptyFolder path folder).run.run t = (.ok (), t') := by
  obtain ⟨t₁, hlisted⟩ := removeListed_ok ht hfolder path (fun _ => true) h
  obtain ⟨-, -, hcut⟩ := removeListed_takes ht hlisted
  have hnone : t₁.straysIn folder = [] := by
    have hstrays := hcut.strays
    rw [htexts, List.subset_nil] at hstrays
    rw [straysIn, hstrays, List.filter_nil]
  refine ⟨t₁, ?_⟩
  rw [run_emptyFolder, hlisted]
  simp only [hnone]
  rfl

/-! ## Steps that find nothing -/

theorem delete_missing (h : Missing t p.place.data) : (delete p).run.run t = (.ok (), t) := by
  rw [run_delete, h.unlink]

theorem removeFolder_missing (h : AccessibleFolder t folder) (hnone : t.node? folder = none) (path : Text) :
    (removeFolder path folder).run.run t = (.ok (), t) := by
  rw [run_removeFolder, FileTree.removeFolder]
  cases hslot : t.folderSlot folder with
  | error e =>
    obtain rfl := h e hslot
    rfl
  | ok there =>
    obtain rfl := (node?_of_folderSlot hslot).symm.trans hnone
    rfl

theorem removeListed_missing (which : Text → Bool) (folderText : Text) (h : AccessibleFolder t folder)
    (hnone : ∀ name, which name = true → t.node? (name :: folder) = none) :
    (removeListed folderText folder which).run.run t = (.ok (), t) := by
  have hnames : (t.namesIn folder).filter which = [] := by
    refine List.filter_eq_nil_iff.mpr fun name hname hwhich => ?_
    rw [mem_namesIn, hnone name hwhich] at hname
    cases hname
  rw [run_removeListed, FileTree.list]
  cases hslot : t.folderSlot folder with
  | error e =>
    obtain rfl := h e hslot
    rfl
  | ok there =>
    cases there with
    | none => rfl
    | some n =>
      simp only [hnames]
      rfl

theorem emptyFolder_missing (path : Text) (h : AccessibleFolder t folder)
    (hnone : ∀ name, t.node? (name :: folder) = none) (hstrays : t.straysIn folder = []) :
    (emptyFolder path folder).run.run t = (.ok (), t) := by
  rw [run_emptyFolder, removeListed_missing _ path h fun name _ => hnone name]
  simp only [hstrays]
  rfl

end Steps

/-! ## The whole deletion -/

section Whole
variable {t t' : FileTree} {e q : EntryPath}

theorem run_deleteAll (p : EntryPath) (t : FileTree) : (deleteAll p).run.run t =
    match (Store.delete p).run.run t with
    | (.error e, t') => (.error e, t')
    | (.ok (), t₁) =>
      match (removeListed ((p.render t₁.root).reverse.dropWhile (· ≠ '/')).reverse p.place.folder
        (isMetadataOf p.place.stem)).run.run t₁ with
      | (.error e, t') => (.error e, t')
      | (.ok (), t₂) =>
        if p.isRoot then (emptyFolder (p.childrenText t₁.root) p.place.children).run.run t₂
        else (removeFolder (p.childrenText t₁.root) p.place.children).run.run t₂ := by
  simp only [deleteAll, run_bind, run_get]
  cases (Store.delete p).run.run t with
  | mk r t₁ =>
    cases r with
    | error e => rfl
    | ok u =>
      simp only
      cases (removeListed ((p.render t₁.root).reverse.dropWhile (· ≠ '/')).reverse p.place.folder
        (isMetadataOf p.place.stem)).run.run t₁ with
      | mk r t₂ =>
        cases r with
        | error e => rfl
        | ok u =>
          simp only
          split
          · rfl
          · rfl

theorem children_ne_nil {p : EntryPath} (hp : p.Canonical) (hroot : p.isRoot = false) : p.place.children ≠ [] := by
  obtain ⟨hops⟩ := p
  match hops, hp, hroot with
  | .child n :: above, _, _ => simp [place, placeOf, Place.children]
  | .metadata :: above, _, _ => simp [place, placeOf, Place.children]
  | .dir :: above, hp, _ =>
    have hchildren : (placeOf (.dir :: above)).children = (placeOf above).children := by
      simp [placeOf, Place.children]
    rw [place, hchildren, children_eq_facet hp.1 hp.2.1]
    exact facet_ne_nil above .children

/-- A deletion that succeeds goes through three steps that succeed. -/
theorem deleteAll_steps (h : (deleteAll e).run.run t = (.ok (), t')) :
    ∃ folderText childrenText t₁ t₂, (delete e).run.run t = (.ok (), t₁) ∧
      (removeListed folderText e.place.folder (isMetadataOf e.place.stem)).run.run t₁ = (.ok (), t₂) ∧
      (if e.isRoot then (emptyFolder childrenText e.place.children).run.run t₂
        else (removeFolder childrenText e.place.children).run.run t₂) = (.ok (), t') := by
  rw [run_deleteAll] at h
  split at h
  · cases h
  · next t₁ hdelete =>
    split at h
    · cases h
    · next t₂ hlisted => exact ⟨_, _, t₁, t₂, hdelete, hlisted, h⟩

theorem children_of_root (h : e.isRoot = true) : e.place.children = [] := by
  obtain ⟨hops⟩ := e
  obtain rfl : hops = [] := List.isEmpty_iff.mp h
  rfl

/-- The last step takes the folder of the children, or what is in the root directory. Done again, it finds nothing. -/
theorem children_takes (ht : t.Rooted) (he : e.Canonical) {text : Text}
    (h : (if e.isRoot then (emptyFolder text e.place.children).run.run t
      else (removeFolder text e.place.children).run.run t) = (.ok (), t')) :
    t'.Rooted ∧ Cut t t' (fun l => if e.isRoot then l ≠ [] else e.place.children <:+ l) ∧
      (t.Settled → ∀ s, s ∈ t'.strays ↔ s ∈ t.strays ∧ ¬ e.place.children <:+ s.folder) ∧
      ∀ again, (if e.isRoot then (emptyFolder again e.place.children).run.run t'
        else (removeFolder again e.place.children).run.run t') = (.ok (), t') := by
  cases hroot : e.isRoot with
  | true =>
    rw [hroot, if_pos rfl, children_of_root hroot] at h
    obtain ⟨hfolder, ht', hcut, hstrays, hleft⟩ := emptyFolder_takes ht h
    simp only [exists_name_suffix_iff, List.nil_suffix, true_and] at hcut
    refine ⟨ht', by simpa only [if_true] using hcut, children_of_root hroot ▸ hleft, fun again => ?_⟩
    rw [if_pos rfl, children_of_root hroot]
    exact emptyFolder_missing again (hfolder.of_cut ht ht' hcut)
      (fun name => hcut.gone _ (List.cons_ne_nil name [])) hstrays
  | false =>
    rw [hroot, if_neg (by decide)] at h
    obtain ⟨hchildren, ht', hcut⟩ := removeFolder_takes ht (children_ne_nil he hroot) h
    refine ⟨ht', by simpa only [Bool.false_eq_true, if_false] using hcut.toCut, hcut.left, fun again => ?_⟩
    rw [if_neg (by decide)]
    exact removeFolder_missing (hchildren.of_cut ht ht' hcut.toCut) (hcut.gone _ List.suffix_rfl) again

/-- A deletion that succeeds takes the locations of `Removed`, and done again it changes nothing. -/
theorem deleteAll_takes (ht : t.Rooted) (he : e.Canonical) (h : (deleteAll e).run.run t = (.ok (), t')) :
    t'.Rooted ∧ Cut t t' (Removed e) ∧
      (t.Settled → ∀ s, s ∈ t'.strays ↔ s ∈ t.strays ∧ e.isRoot = false ∧ ¬ Removed e s.folder) ∧
      (deleteAll e).run.run t' = (.ok (), t') := by
  obtain ⟨folderText, childrenText, t₁, t₂, hdelete, hlisted, hchildren⟩ := deleteAll_steps h
  obtain ⟨hdata, ht₁, hcut₁⟩ := delete_takes ht hdelete
  obtain ⟨hfolder, ht₂, hcut₂⟩ := removeListed_takes ht₁ hlisted
  obtain ⟨ht', hcut₃, hleft, hagain⟩ := children_takes ht₂ he hchildren
  have hcut₁₂ := hcut₁.trans hcut₂
  have hcut : Cut t t' (Removed e) := (hcut₁₂.toCut.trans hcut₃).congr fun l _ => or_assoc
  have hmissing : Missing t' e.place.data := missing_of_cut ht ht' hcut hdata (Or.inl rfl)
  have hlistedAgain := removeListed_missing (isMetadataOf e.place.stem)
    ((e.render t'.root).reverse.dropWhile (· ≠ '/')).reverse
    (hfolder.of_cut ht₁ ht' (hcut₂.toCut.trans hcut₃))
    fun name hname => hcut.gone _ (Or.inr (Or.inl ⟨name, hname, List.suffix_rfl⟩))
  refine ⟨ht', hcut, fun hsettled s => ?_, ?_⟩
  · rw [hleft (hcut₁₂.settled hsettled), hcut₁₂.left hsettled, Removed]
    cases hroot : e.isRoot with
    | true => simp [children_of_root hroot]
    | false => simp only [Bool.false_eq_true, if_false, true_and, and_assoc, not_or]
  · rw [run_deleteAll, delete_missing hmissing]
    simp only [hlistedAgain]
    exact hagain _

/-! ## The facets of the branch -/

theorem not_removed_nil (he : e.Canonical) : ¬ Removed e [] := by
  rintro (h | ⟨name, -, h⟩ | h)
  · exact List.cons_ne_nil _ _ h.symm
  · exact List.cons_ne_nil _ _ (List.suffix_nil.mp h)
  · split at h
    · exact h rfl
    · next hroot => exact children_ne_nil he (Bool.eq_false_iff.mpr hroot) (List.suffix_nil.mp h)

theorem removed_data_iff (he : e.Canonical) (hq : q.Canonical) : Removed e q.place.data ↔ e.Covers q := by
  have h : Removed e q.place.data ↔ e.Covers q ∧ _ := removed_facet_iff (f := .data) he hq
  simpa using h

/-- A content that is being written to the removed entry itself stays, unless the folder that it lies in goes. -/
theorem removed_staging_iff (he : e.Canonical) (hq : q.Canonical) :
    Removed e q.place.staging ↔ e.Covers q ∧ ¬ (q = e ∧ e.isContainer = false) := by
  have h : Removed e q.place.staging ↔ e.Covers q ∧ _ := removed_facet_iff (f := .staging) he hq
  simpa [EntryPath.ext_iff] using h

/-- Both views of an entry have one folder of children, which goes with the container. The root directory stays. -/
theorem removed_children_iff (he : e.Canonical) (hq : q.Canonical) :
    Removed e q.place.children ↔ e.Covers q.dir ∧ q.isRoot = false := by
  cases hroot : q.isRoot with
  | true => simp [children_of_root hroot, not_removed_nil he]
  | false =>
    have hleaf : q.file.hops ≠ [] := file_hops_ne_nil hq fun h => by simp [EntryPath.isRoot, h] at hroot
    have hkeeper : keeper .children q.file.hops = q.dir := by
      rw [← dir_file hq, dir_of_leaf (isLeaf_iff.mpr ⟨hleaf, file_head_ne_dir hq⟩)]
      rfl
    have h := removed_facet_iff (f := .children) he hq.file
    rw [← children_eq_facet hleaf (file_head_ne_dir hq), hkeeper] at h
    rw [← children_file q, EntryPath.place, h]
    simp

/-- The name `a.meta` with a byte behind it that is no text. -/
def strayMetadata : Stray := ⟨[], [0x61, 0x2e, 0x6d, 0x65, 0x74, 0x61, 0xff], by decide +kernel⟩

/-- Beside the page `a`, its metadata and its children lie a content that is being written, a page `a.meta`, and names
that are no facets: `a.metax` goes with what is below, `a.meta` and `a.metax.y` stay. Names that are no texts lie beside
the page and among its children. -/
def littered : FileTree where
  root := "data/".toList
  nodes := [(["a.data".toList], .file 0), (["a.data-tmp".toList], .file 1), (["a.dir".toList], .directory),
    (["stray".toList, "a.dir".toList], .file 2), (["a.metadata".toList], .file 3), (["a.metax".toList], .directory),
    (["y".toList, "a.metax".toList], .file 4), (["a.meta".toList], .file 5), (["a.meta.data".toList], .file 6),
    (["a.metax.y".toList], .file 7)]
  blobs := #[[0], [1], [2], [3], [4], [5], [6], [7]]
  strays := [strayMetadata, { strayMetadata with folder := ["a.dir".toList] }]

/-- What is left of `littered` without the branch of `a`. -/
def swept : FileTree :=
  { littered with
    nodes := [(["a.data-tmp".toList], .file 1), (["a.meta".toList], .file 5), (["a.meta.data".toList], .file 6),
      (["a.metax.y".toList], .file 7)]
    strays := [strayMetadata] }

end Whole
end EntryServer.Store
