import EntryServer.Files.Tree

/-! # Lookups in a tree of files

What stands where after each change of a tree, and when the walk to a slot succeeds. In any tree everything lies in
a directory. A tree that is changed by the operations alone stays sound as well: everything in it is reached by
names that are texts and that the system accepts, and no two names lead to one file. In a sound tree a slot can be
looked up at once. -/
namespace EntryServer.FileTree
set_option autoImplicit false

/-! ## Lookups -/

theorem lookup_filter (keep : Location → Bool) (l : Location) (nodes : List (Location × Node)) :
    (nodes.filter fun kv => keep kv.1).lookup l = if keep l then nodes.lookup l else none := by
  induction nodes with
  | nil => simp
  | cons kv nodes ih =>
    obtain ⟨k, n⟩ := kv
    by_cases hl : l = k
    · subst hl
      cases hk : keep l <;> simp [hk, ih]
    · have hb : (l == k) = false := beq_eq_false_iff_ne.mpr hl
      cases hk : keep k <;> simp [hk, ih, List.lookup_cons, hb]

@[simp] theorem node?_nil (t : FileTree) : t.node? [] = some .directory := by
  simp [node?]

theorem node?_of_ne_nil (t : FileTree) {l : Location} (h : l ≠ []) : t.node? l = t.nodes.lookup l := by
  simp [node?, h]

theorem node?_put (t : FileTree) {l : Location} (hl : l ≠ []) (n : Node) (l' : Location) :
    (t.put l n).node? l' = if l' = l then some n else t.node? l' := by
  by_cases h0 : l' = []
  · subst h0
    simp [Ne.symm hl]
  · rw [node?_of_ne_nil _ h0, node?_of_ne_nil _ h0, put, List.lookup_append, lookup_filter (fun k => k ≠ l)]
    by_cases h : l' = l
    · simp [h]
    · have hb : (l' == l) = false := beq_eq_false_iff_ne.mpr h
      simp [List.lookup_cons, h, hb]

theorem node?_erase (t : FileTree) {l : Location} (hl : l ≠ []) (l' : Location) :
    (t.erase l).node? l' = if l' = l then none else t.node? l' := by
  by_cases h0 : l' = []
  · subst h0
    simp [Ne.symm hl]
  · rw [node?_of_ne_nil _ h0, node?_of_ne_nil _ h0, erase, lookup_filter (fun k => k ≠ l)]
    by_cases h : l' = l <;> simp [h]

theorem node?_eraseBranch (t : FileTree) {l : Location} (hl : l ≠ []) (l' : Location) :
    (t.eraseBranch l).node? l' = if l <:+ l' then none else t.node? l' := by
  by_cases h0 : l' = []
  · subst h0
    simp [hl]
  · rw [node?_of_ne_nil _ h0, node?_of_ne_nil _ h0, eraseBranch, lookup_filter (fun k => !l.isSuffixOf k)]
    by_cases h : l <:+ l'
    · simp [h, List.isSuffixOf_iff_suffix.mpr h]
    · have hb : l.isSuffixOf l' = false := by
        rw [← Bool.not_eq_true, List.isSuffixOf_iff_suffix]
        exact h
      simp [h, hb]

theorem mem_namesIn {t : FileTree} {folder : Location} {name : Text} :
    name ∈ t.namesIn folder ↔ (t.node? (name :: folder)).isSome = true := by
  rw [node?_of_ne_nil _ (List.cons_ne_nil _ _), List.lookup_isSome_iff, namesIn, List.mem_filterMap]
  constructor
  · rintro ⟨⟨at_, n⟩, hm, h⟩
    match at_, h with
    | up :: rest, h =>
      by_cases hr : rest = folder
      · simp only [hr, if_true, Option.some.injEq] at h
        subst h hr
        exact ⟨_, hm, beq_self_eq_true _⟩
      · simp [hr] at h
  · rintro ⟨⟨at_, n⟩, hm, h⟩
    obtain rfl : name :: folder = at_ := by simpa using h
    exact ⟨_, hm, by simp⟩

/-! ## Locations that the system accepts -/

/-- No name holds a NUL or is too long, and the whole path is not too long. -/
structure Fits (t : FileTree) (l : Location) : Prop where
  noNul : ∀ name ∈ l, '\x00' ∉ name
  path : t.pathSize l < pathLimit
  names : ∀ name ∈ l, Utf8.size name ≤ nameLimit

instance (t : FileTree) (l : Location) : Decidable (t.Fits l) :=
  decidable_of_iff ((∀ name ∈ l, '\x00' ∉ name) ∧ t.pathSize l < pathLimit ∧
    ∀ name ∈ l, Utf8.size name ≤ nameLimit) ⟨fun h => ⟨h.1, h.2.1, h.2.2⟩, fun h => ⟨h.1, h.2, h.3⟩⟩

theorem namesSize_cons (name : Text) (folder : Location) :
    namesSize (name :: folder) = Utf8.size name + 1 + namesSize folder := rfl

theorem namesSize_append (way folder : Location) : namesSize (way ++ folder) = namesSize way + namesSize folder := by
  induction way with
  | nil => exact (Nat.zero_add _).symm
  | cons name way ih =>
    rw [List.cons_append, namesSize_cons, namesSize_cons, ih]
    omega

theorem pathSize_suffix (t : FileTree) {s l : Location} (h : s <:+ l) : t.pathSize s ≤ t.pathSize l := by
  obtain ⟨way, rfl⟩ := h
  rw [pathSize, pathSize, namesSize_append]
  omega

theorem folderSize_suffix (t : FileTree) {s l : Location} (h : s <:+ l) : t.folderSize s ≤ t.folderSize l := by
  obtain ⟨way, rfl⟩ := h
  rw [folderSize, folderSize, namesSize_append]
  omega

theorem Fits.suffix {t : FileTree} {s l : Location} (h : t.Fits l) (hs : s <:+ l) : t.Fits s where
  noNul := fun name hn => h.noNul name (hs.subset hn)
  path := Nat.lt_of_le_of_lt (t.pathSize_suffix hs) h.path
  names := fun name hn => h.names name (hs.subset hn)

theorem Fits.congr {t : FileTree} {l : Location} (h : t.Fits l) (t' : FileTree) (hroot : t'.root = t.root) :
    t'.Fits l where
  noNul := h.noNul
  path := by
    rw [pathSize, hroot]
    exact h.path
  names := h.names

theorem Fits.shorter {t : FileTree} {a b : Text} {folder : Location} (h : t.Fits (a :: folder))
    (hsize : Utf8.size b ≤ Utf8.size a) (hnul : '\x00' ∉ b) : t.Fits (b :: folder) where
  noNul := List.forall_mem_cons.mpr ⟨hnul, (List.forall_mem_cons.mp h.noNul).2⟩
  path := by
    have hpath := h.path
    simp only [pathSize, namesSize_cons] at hpath ⊢
    omega
  names := by
    have hnames := List.forall_mem_cons.mp h.names
    exact List.forall_mem_cons.mpr ⟨Nat.le_trans hsize hnames.1, hnames.2⟩

/-- Nothing but the names and the whole length stands in the way of the walk. -/
theorem Fits.slot {t : FileTree} {l : Location} (h : t.Fits l) : t.slot l = t.walk l := by
  have hnul : ¬ l.any (·.contains '\x00') = true := by
    rw [List.any_eq_true]
    rintro ⟨name, hn, hc⟩
    exact h.noNul name hn (by simpa using hc)
  rw [FileTree.slot, if_neg hnul, if_neg (Nat.not_le.mpr h.path)]

/-! ## Walking -/

theorem node?_of_walk {t : FileTree} {l : Location} {there : Option Node} (h : t.walk l = .ok there) :
    t.node? l = there := by
  cases l with
  | nil =>
    simp only [walk, Except.ok.injEq] at h
    rw [node?_nil, h]
  | cons name folder =>
    rw [walk] at h
    split at h <;> try contradiction
    split at h
    · contradiction
    · exact Except.ok.inj h

theorem walk_of_slot {t : FileTree} {l : Location} {there : Option Node} (h : t.slot l = .ok there) :
    t.walk l = .ok there := by
  unfold slot at h
  split at h
  · contradiction
  · split at h
    · contradiction
    · exact h

theorem node?_of_slot {t : FileTree} {l : Location} {there : Option Node} (h : t.slot l = .ok there) :
    t.node? l = there := node?_of_walk (walk_of_slot h)

theorem folder_of_walk {t : FileTree} {name : Text} {folder : Location} {there : Option Node}
    (h : t.walk (name :: folder) = .ok there) :
    t.walk folder = .ok (some .directory) ∧ Utf8.size name ≤ nameLimit := by
  rw [walk] at h
  split at h <;> try contradiction
  next hf =>
    split at h
    · contradiction
    · exact ⟨hf, by omega⟩

theorem names_of_walk {t : FileTree} {l : Location} {there : Option Node} (h : t.walk l = .ok there) :
    ∀ name ∈ l, Utf8.size name ≤ nameLimit := by
  induction l generalizing there with
  | nil => simp
  | cons name folder ih =>
    obtain ⟨hf, hn⟩ := folder_of_walk h
    intro m hm
    rcases List.mem_cons.mp hm with rfl | hm
    · exact hn
    · exact ih hf m hm

theorem fits_of_slot {t : FileTree} {l : Location} {there : Option Node} (h : t.slot l = .ok there) :
    t.Fits l := by
  refine ⟨?_, ?_, names_of_walk (walk_of_slot h)⟩
  · intro name hn hnul
    have hany : l.any (·.contains '\x00') = true := List.any_eq_true.mpr ⟨name, hn, by simpa using hnul⟩
    rw [slot, if_pos hany] at h
    contradiction
  · unfold slot at h
    split at h
    · contradiction
    · split at h
      · contradiction
      · omega

theorem folder_of_slot {t : FileTree} {name : Text} {folder : Location} {there : Option Node}
    (h : t.slot (name :: folder) = .ok there) : t.node? folder = some .directory :=
  node?_of_walk (folder_of_walk (walk_of_slot h)).1

/-! ## Paths with a slash at their end -/

/-- What lies in a directory has a path that is at least as long as that of the directory with its slash. -/
theorem folderSize_le (t : FileTree) (name : Text) (folder : Location) :
    t.folderSize folder ≤ t.pathSize (name :: folder) := by
  rw [folderSize, pathSize, namesSize_cons]
  omega

theorem folderSlot_of_short {t : FileTree} {l : Location} (h : t.folderSize l < pathLimit) :
    t.folderSlot l = match t.slot l with
      | .ok (some (.file _)) => .error .notADirectory
      | there => there := if_neg fun hlong => Nat.not_le.mpr h hlong.2

theorem folderSlot_of_long {t : FileTree} {l : Location} (h : pathLimit ≤ t.folderSize l) :
    t.folderSlot l = .error .nulInName ∨ t.folderSlot l = .error .nameTooLong := by
  rw [folderSlot]
  split
  · exact Or.inr rfl
  · next hnul =>
    have hnul : l.any (·.contains '\x00') = true := by simpa [h] using hnul
    rw [slot, if_pos hnul]
    exact Or.inl rfl

/-- A slash at the end is no hindrance to a directory, but for the length. -/
theorem folderSlot_eq_ok_iff {t : FileTree} {l : Location} {there : Option Node} :
    t.folderSlot l = .ok there ↔
      t.slot l = .ok there ∧ (∀ i, there ≠ some (.file i)) ∧ t.folderSize l < pathLimit := by
  by_cases hsize : t.folderSize l < pathLimit
  · rw [folderSlot_of_short hsize]
    cases t.slot l with
    | error e => simp
    | ok found =>
      match found with
      | none =>
        simp only [Except.ok.injEq, hsize, and_true]
        exact ⟨fun h => ⟨h, by simp [← h]⟩, And.left⟩
      | some .directory =>
        simp only [Except.ok.injEq, hsize, and_true]
        exact ⟨fun h => ⟨h, by simp [← h]⟩, And.left⟩
      | some (.file i) =>
        simp only [Except.ok.injEq, reduceCtorEq, false_iff, not_and]
        exact fun h hfile => absurd h.symm (hfile i)
  · simp only [hsize, and_false, iff_false]
    rcases folderSlot_of_long (Nat.not_lt.mp hsize) with h | h
    · simp [h]
    · simp [h]

theorem slot_of_folderSlot_notFound {t : FileTree} {l : Location} (h : t.folderSlot l = .error .notFound) :
    t.slot l = .error .notFound ∧ t.folderSize l < pathLimit := by
  by_cases hsize : t.folderSize l < pathLimit
  · rw [folderSlot_of_short hsize] at h
    split at h
    · cases h
    · exact ⟨h, hsize⟩
  · rcases folderSlot_of_long (Nat.not_lt.mp hsize) with hlong | hlong
    · simp [hlong] at h
    · simp [hlong] at h

/-- What can be looked up has its directory above it. -/
theorem isFolder_above {t : FileTree} {name : Text} {folder : Location} {there : Option Node}
    (h : t.slot (name :: folder) = .ok there) : t.isFolder folder = true := by
  have hfits := fits_of_slot h
  have hslot : t.slot folder = .ok (some .directory) := by
    rw [(hfits.suffix (List.suffix_cons name folder)).slot, (folder_of_walk (walk_of_slot h)).1]
  have hsize := Nat.lt_of_le_of_lt (t.folderSize_le name folder) hfits.path
  rw [isFolder, folderSlot_eq_ok_iff.mpr ⟨hslot, nofun, hsize⟩]

/-! ## Rooted trees -/

/-- Everything lies in a directory. Apart from that the tree holds what it likes: anything may stand at any place,
paths may be too long to be looked up, and one file may have two names. -/
def Rooted (t : FileTree) : Prop := ∀ kv ∈ t.nodes, t.node? kv.1.tail = some .directory

instance (t : FileTree) : Decidable t.Rooted := inferInstanceAs (Decidable (∀ kv ∈ t.nodes, _))

theorem mem_nodes_of_node? {t : FileTree} {l : Location} {n : Node} (h : t.node? l = some n) (hl : l ≠ []) :
    (l, n) ∈ t.nodes := by
  rw [node?_of_ne_nil t hl] at h
  obtain ⟨before, after, hsplit, -⟩ := List.lookup_eq_some_iff.mp h
  rw [hsplit]
  exact List.mem_append_right _ (List.mem_cons_self ..)

theorem node?_of_mem_nodes {t : FileTree} {kv : Location × Node} (h : kv ∈ t.nodes) : ∃ n, t.node? kv.1 = some n := by
  by_cases hl : kv.1 = []
  · exact ⟨.directory, by rw [hl, node?_nil]⟩
  · rw [node?_of_ne_nil t hl]
    exact Option.isSome_iff_exists.mp (List.lookup_isSome_iff.mpr ⟨kv, h, beq_self_eq_true _⟩)

theorem rooted_iff {t : FileTree} : t.Rooted ↔
    ∀ name folder n, t.node? (name :: folder) = some n → t.node? folder = some .directory := by
  constructor
  · intro h name folder n hn
    exact h _ (mem_nodes_of_node? hn (List.cons_ne_nil _ _))
  · rintro h ⟨l, m⟩ hkv
    cases l with
    | nil => exact node?_nil t
    | cons name folder =>
      obtain ⟨n, hn⟩ := node?_of_mem_nodes hkv
      exact h name folder n hn

namespace Rooted
variable {t : FileTree} {l l' : Location}

theorem folder (ht : t.Rooted) {name : Text} {folder : Location} {n : Node} (h : t.node? (name :: folder) = some n) :
    t.node? folder = some .directory := rooted_iff.mp ht name folder n h

theorem node_below (ht : t.Rooted) (hs : l <:+ l') (hn : t.node? l = none) : t.node? l' = none := by
  induction l' with
  | nil =>
    rw [← List.suffix_nil.mp hs]
    exact hn
  | cons name up ih =>
    rcases List.suffix_cons_iff.mp hs with rfl | hs
    · exact hn
    · cases h : t.node? (name :: up) with
      | none => rfl
      | some n =>
        rw [ht.folder h] at ih
        cases ih hs

theorem below_file (ht : t.Rooted) {i : Nat} (hl : t.node? l = some (.file i)) (hs : l <:+ l') (hne : l' ≠ l) :
    t.node? l' = none := by
  induction l' with
  | nil => exact absurd (List.suffix_nil.mp hs).symm hne
  | cons name up ih =>
    have hup : l <:+ up := (List.suffix_cons_iff.mp hs).resolve_left fun h => hne h.symm
    cases hn : t.node? (name :: up) with
    | none => rfl
    | some n =>
      have hdir := ht.folder hn
      by_cases heq : up = l
      · subst heq
        rw [hl] at hdir
        cases hdir
      · rw [ih hup heq] at hdir
        cases hdir

/-- Where the walk ends with something that is missing, nothing stands. -/
theorem node?_of_notFound (ht : t.Rooted) (h : t.walk l = .error .notFound) : t.node? l = none := by
  induction l with
  | nil => cases h
  | cons name folder ih =>
    refine ht.node_below (List.suffix_cons name folder) ?_
    rw [walk] at h
    split at h
    · next hf =>
      obtain rfl := Except.error.inj h
      exact ih hf
    · next hf => exact node?_of_walk hf
    · cases h
    · split at h
      · cases h
      · cases h

end Rooted

/-- Every name that is no text lies in a directory as well. -/
def Settled (t : FileTree) : Prop := ∀ s ∈ t.strays, t.node? s.folder = some .directory

instance (t : FileTree) : Decidable t.Settled := inferInstanceAs (Decidable (∀ s ∈ t.strays, _))

/-! ## Sound trees -/

structure Sound (t : FileTree) : Prop where
  /-- Everything lies in a directory. -/
  folder : ∀ {name folder n}, t.node? (name :: folder) = some n → t.node? folder = some .directory
  /-- Everything is where the system accepts a path. -/
  fits : ∀ {l n}, t.node? l = some n → l ≠ [] → t.Fits l
  /-- No two names lead to one file. -/
  single : ∀ {l l' i}, t.node? l = some (.file i) → t.node? l' = some (.file i) → l = l'
  bounded : ∀ {l i}, t.node? l = some (.file i) → i < t.blobs.size
  /-- Every name is a text. -/
  texts : t.strays = []

theorem Sound.rooted {t : FileTree} (ht : t.Sound) : t.Rooted := rooted_iff.mpr fun _ _ _ => ht.folder

theorem sound_empty (root : Text) : (empty root).Sound := by
  have hnone : ∀ l : Location, l ≠ [] → (empty root).node? l = none := by
    intro l hl
    simp [node?, hl, empty]
  refine ⟨?_, ?_, ?_, ?_, rfl⟩
  · intro name folder n h
    rw [hnone _ (List.cons_ne_nil _ _)] at h
    contradiction
  · intro l n h hl
    rw [hnone l hl] at h
    contradiction
  · intro l l' i h
    by_cases hl : l = []
    · simp [hl] at h
    · rw [hnone l hl] at h
      contradiction
  · intro l i h
    by_cases hl : l = []
    · simp [hl] at h
    · rw [hnone l hl] at h
      contradiction

theorem Sound.walk {t : FileTree} (ht : t.Sound) {l : Location} {n : Node} (h : t.node? l = some n) :
    t.walk l = .ok (some n) := by
  induction l generalizing n with
  | nil =>
    rw [node?_nil] at h
    rw [FileTree.walk, h]
  | cons name folder ih =>
    have hf := ih (ht.folder h)
    have hn := (ht.fits h (List.cons_ne_nil _ _)).names name (List.mem_cons_self ..)
    rw [FileTree.walk, hf]
    simp [Nat.not_lt.mpr hn, h]

theorem Sound.slot {t : FileTree} (ht : t.Sound) {l : Location} {n : Node} (h : t.node? l = some n)
    (hl : l ≠ []) : t.slot l = .ok (some n) := by
  rw [(ht.fits h hl).slot, ht.walk h]

theorem Sound.slot_in {t : FileTree} (ht : t.Sound) {name : Text} {folder : Location}
    (hf : t.node? folder = some .directory) (h : t.Fits (name :: folder)) :
    t.slot (name :: folder) = .ok (t.node? (name :: folder)) := by
  rw [h.slot, FileTree.walk, ht.walk hf]
  simp [Nat.not_lt.mpr (h.names name (List.mem_cons_self ..))]

/-- No file stands on the way to a location. -/
def Clear (t : FileTree) (l : Location) : Prop := ∀ s, s <:+ l → ∀ i, t.node? s ≠ some (.file i)

theorem Clear.suffix {t : FileTree} {s l : Location} (h : t.Clear l) (hs : s <:+ l) : t.Clear s :=
  fun r hr => h r (hr.trans hs)

/-- Where a directory is missing on a clear way, the walk ends with that, or with a name that is too long
before. -/
theorem Sound.walk_missing {t : FileTree} (ht : t.Sound) (name : Text) {folder : Location}
    (hc : t.Clear folder) (hf : t.node? folder ≠ some .directory) :
    t.walk (name :: folder) = .error .notFound ∨
      t.walk (name :: folder) = .error .nameTooLong ∧ ∃ m ∈ folder, nameLimit < Utf8.size m := by
  induction folder generalizing name with
  | nil => exact absurd (node?_nil t) hf
  | cons n up ih =>
    by_cases hup : t.node? up = some .directory
    · have hnone : t.node? (n :: up) = none := by
        cases hn : t.node? (n :: up) with
        | none => rfl
        | some there =>
          cases there with
          | file i => exact absurd hn (hc _ List.suffix_rfl i)
          | directory => exact absurd hn hf
      rw [FileTree.walk, FileTree.walk, ht.walk hup]
      by_cases hlong : nameLimit < Utf8.size n
      · exact Or.inr ⟨by simp [hlong], n, List.mem_cons_self .., hlong⟩
      · exact Or.inl (by simp [hlong, hnone])
    · rw [FileTree.walk]
      rcases ih n (hc.suffix (List.suffix_cons ..)) hup with h | ⟨h, m, hm, hlong⟩
      · exact Or.inl (by rw [h])
      · exact Or.inr ⟨by rw [h], m, List.mem_cons_of_mem _ hm, hlong⟩

theorem Sound.slot_clear {t : FileTree} (ht : t.Sound) {name : Text} {folder : Location}
    (hc : t.Clear folder) (h : t.Fits (name :: folder)) :
    t.slot (name :: folder) =
      if t.node? folder = some .directory then .ok (t.node? (name :: folder)) else .error .notFound := by
  split
  · next hf => exact ht.slot_in hf h
  · next hf =>
    rw [h.slot]
    rcases ht.walk_missing name hc hf with hw | ⟨-, m, hm, hlong⟩
    · exact hw
    · have := h.names m (List.mem_cons_of_mem _ hm)
      omega

/-- A location that is not accepted gives one of three errors on a clear way. -/
theorem Sound.slot_unfit {t : FileTree} (ht : t.Sound) {name : Text} {folder : Location}
    (hc : t.Clear folder) (h : ¬ t.Fits (name :: folder)) :
    t.slot (name :: folder) = .error .nulInName ∨ t.slot (name :: folder) = .error .nameTooLong ∨
      t.slot (name :: folder) = .error .notFound ∧ t.node? folder ≠ some .directory := by
  unfold FileTree.slot
  split
  · exact Or.inl rfl
  · split
    · exact Or.inr (Or.inl rfl)
    · by_cases hf : t.node? folder = some .directory
      · rw [FileTree.walk, ht.walk hf]
        by_cases hlong : nameLimit < Utf8.size name
        · exact Or.inr (Or.inl (by simp [hlong]))
        · exfalso
          apply h
          have hslot : t.slot (name :: folder) = .ok (t.node? (name :: folder)) := by
            rw [FileTree.slot, if_neg ‹_›, if_neg ‹_›, FileTree.walk, ht.walk hf]
            simp [hlong]
          exact fits_of_slot hslot
      · rcases ht.walk_missing name hc hf with hw | ⟨hw, -⟩
        · exact Or.inr (Or.inr ⟨hw, hf⟩)
        · exact Or.inr (Or.inl hw)

end EntryServer.FileTree
