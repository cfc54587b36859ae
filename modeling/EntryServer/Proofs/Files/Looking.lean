import EntryServer.Proofs.Files.Operations

/-! # Looking at a tree

Reading a file, listing a folder and asking what stands at a location all look there first, and what they see
depends on what is seen on the way. So two trees that look alike on the way to a location answer alike. -/
namespace EntryServer.FileTree
set_option autoImplicit false

/-! ## What a look comes to -/

def lookAlong (t : FileTree) : Location → Except FileError Sight
  | [] => .ok .directory
  | name :: folder =>
    match t.lookAlong folder with
    | .error e => .error e
    | .ok (.file _) => .error .notADirectory
    | .ok .directory =>
      if nameLimit < Utf8.size name then .error .nameTooLong
      else match t.sight (name :: folder) with
        | none => .error .notFound
        | some s => .ok s

/-- What is seen at a location, with the first fault on the way there. Nothing there is a fault as well. -/
def look (t : FileTree) (l : Location) : Except FileError Sight :=
  if l.any (·.contains '\x00') then .error .nulInName
  else if pathLimit ≤ t.pathSize l then .error .nameTooLong
  else t.lookAlong l

/-- What is seen at a path with a slash at its end. -/
def lookFolder (t : FileTree) (l : Location) : Except FileError Sight :=
  if !l.any (·.contains '\x00') ∧ pathLimit ≤ t.folderSize l then .error .nameTooLong else t.look l

def seen (t : FileTree) : Option Node → Except FileError Sight
  | none => .error .notFound
  | some .directory => .ok .directory
  | some (.file i) => .ok (.file (t.blob i))

theorem seen_node? (t : FileTree) (l : Location) : t.seen (t.node? l) =
    match t.sight l with
    | none => .error .notFound
    | some s => .ok s := by
  unfold seen sight
  cases t.node? l with
  | none => rfl
  | some n =>
    cases n with
    | file i => rfl
    | directory => rfl

theorem lookAlong_eq_walk (t : FileTree) (l : Location) :
    t.lookAlong l = match t.walk l with
      | .error e => .error e
      | .ok there => t.seen there := by
  induction l with
  | nil => rfl
  | cons name folder ih =>
    rw [lookAlong, ih, walk]
    cases t.walk folder with
    | error e => rfl
    | ok there =>
      cases there with
      | none => rfl
      | some n =>
        cases n with
        | file i => rfl
        | directory =>
          simp only [seen]
          split
          · rfl
          · exact (seen_node? t _).symm

theorem look_eq_slot (t : FileTree) (l : Location) :
    t.look l = match t.slot l with
      | .error e => .error e
      | .ok there => t.seen there := by
  unfold look slot
  split
  · rfl
  · split
    · rfl
    · exact lookAlong_eq_walk t l

/-! ## Questions that look -/

theorem read_eq_look (t : FileTree) (l : Location) : t.read l = match t.look l with
    | .error e => .error e
    | .ok .directory => .error .isADirectory
    | .ok (.file content) => .ok content := by
  rw [look_eq_slot, read]
  cases t.slot l with
  | error e => rfl
  | ok there =>
    match there with
    | none => rfl
    | some .directory => rfl
    | some (.file i) => rfl

theorem isFile_eq_look (t : FileTree) (l : Location) : t.isFile l = match t.look l with
    | .ok (.file _) => true
    | _ => false := by
  rw [look_eq_slot, isFile]
  cases t.slot l with
  | error e => rfl
  | ok there =>
    match there with
    | none => rfl
    | some .directory => rfl
    | some (.file i) => rfl

theorem list_eq_look (t : FileTree) (l : Location) : t.list l = match t.lookFolder l with
    | .error e => .error e
    | .ok (.file _) => .error .notADirectory
    | .ok .directory => .ok (t.namesIn l) := by
  rw [list, folderSlot, lookFolder]
  by_cases hlong : !l.any (·.contains '\x00') ∧ pathLimit ≤ t.folderSize l
  · rw [if_pos hlong, if_pos hlong]
  · rw [if_neg hlong, if_neg hlong, look_eq_slot]
    cases t.slot l with
    | error e => rfl
    | ok there =>
      cases there with
      | none => rfl
      | some n => cases n <;> rfl

theorem isFolder_eq_look (t : FileTree) (l : Location) : t.isFolder l = match t.lookFolder l with
    | .ok .directory => true
    | _ => false := by
  rw [isFolder, folderSlot, lookFolder]
  by_cases hlong : !l.any (·.contains '\x00') ∧ pathLimit ≤ t.folderSize l
  · rw [if_pos hlong, if_pos hlong]
  · rw [if_neg hlong, if_neg hlong, look_eq_slot]
    cases t.slot l with
    | error e => rfl
    | ok there =>
      cases there with
      | none => rfl
      | some n => cases n <;> rfl

/-- Whether the slash makes a path too long depends on where the tree hangs only. -/
theorem lookFolder_cases (t : FileTree) (l : Location) :
    (∀ t' : FileTree, t'.root = t.root → t'.lookFolder l = t'.look l) ∨
      pathLimit ≤ t.folderSize l ∧ ∀ t' : FileTree, t'.root = t.root → t'.lookFolder l = .error .nameTooLong := by
  have hsize : ∀ t' : FileTree, t'.root = t.root → t'.folderSize l = t.folderSize l := fun t' hroot => by
    rw [folderSize, folderSize, hroot]
  by_cases hlong : !l.any (·.contains '\x00') ∧ pathLimit ≤ t.folderSize l
  · exact Or.inr ⟨hlong.2, fun t' hroot => if_pos (by rwa [hsize t' hroot])⟩
  · exact Or.inl fun t' hroot => if_neg (by rwa [hsize t' hroot])

theorem lookFolder_congr {t t' : FileTree} {l : Location} (hroot : t'.root = t.root) (h : t'.look l = t.look l) :
    t'.lookFolder l = t.lookFolder l := by
  rcases t.lookFolder_cases l with hlook | ⟨-, hlong⟩
  · rw [hlook t' hroot, hlook t rfl, h]
  · rw [hlong t' hroot, hlong t rfl]

theorem Sound.look {t : FileTree} (ht : t.Sound) {l : Location} (hl : l ≠ []) {s : Sight}
    (h : t.sight l = some s) : t.look l = .ok s := by
  have hn : t.node? l ≠ none := fun hnone => by
    rw [sight_eq_none.mpr hnone] at h
    cases h
  obtain ⟨n, hn⟩ := Option.ne_none_iff_exists'.mp hn
  have hseen := seen_node? t l
  rw [h, hn] at hseen
  rw [look_eq_slot, ht.slot hn hl]
  exact hseen

theorem Sound.lookAlong {t : FileTree} (ht : t.Sound) {l : Location} (h : t.sight l = some .directory) :
    t.lookAlong l = .ok .directory := by
  rw [lookAlong_eq_walk, ht.walk (sight_eq_directory.mp h)]
  rfl

/-- What is above a directory is a directory. -/
theorem Sound.directory_above {t : FileTree} (ht : t.Sound) {c l : Location} (hl : c <:+ l)
    (h : t.sight l = some .directory) : t.sight c = some .directory := by
  induction l with
  | nil =>
    rw [List.suffix_nil.mp hl]
    exact h
  | cons name folder ih =>
    rcases List.suffix_cons_iff.mp hl with rfl | hl
    · exact h
    · exact ih hl (sight_eq_directory.mpr (ht.folder (sight_eq_directory.mp h)))

theorem isFile_iff {t : FileTree} (ht : t.Sound) {l : Location} (hl : l ≠ []) :
    t.isFile l = true ↔ ∃ content, t.sight l = some (.file content) := by
  rw [isFile]
  constructor
  · intro h
    split at h
    · next i hslot => exact ⟨_, sight_eq_file.mpr ⟨i, node?_of_slot hslot, rfl⟩⟩
    · cases h
  · rintro ⟨content, h⟩
    obtain ⟨i, hi, -⟩ := sight_eq_file.mp h
    rw [ht.slot hi hl]

theorem sight_of_isFolder {t : FileTree} {l : Location} (h : t.isFolder l = true) :
    t.sight l = some .directory ∧ t.folderSize l < pathLimit := by
  rw [isFolder] at h
  split at h
  · next n hslot =>
    obtain ⟨hslot, hfile, hsize⟩ := folderSlot_eq_ok_iff.mp hslot
    have hn := node?_of_slot hslot
    cases n with
    | file i => exact absurd rfl (hfile i)
    | directory => exact ⟨sight_eq_directory.mpr hn, hsize⟩
  · cases h

theorem isFolder_iff {t : FileTree} (ht : t.Sound) {l : Location} (hl : l ≠ []) :
    t.isFolder l = true ↔ t.sight l = some .directory ∧ t.folderSize l < pathLimit := by
  refine ⟨sight_of_isFolder, ?_⟩
  rintro ⟨hdir, hsize⟩
  rw [isFolder, folderSlot_eq_ok_iff.mpr ⟨ht.slot (sight_eq_directory.mp hdir) hl, by simp, hsize⟩]

/-- Nothing is in a directory that is missing, or whose path is too long for anything to be in it. -/
theorem Sound.namesIn_unlisted {t : FileTree} (ht : t.Sound) {l : Location} (h : t.isFolder l = false) :
    t.namesIn l = [] := by
  refine List.eq_nil_iff_forall_not_mem.mpr fun name hname => ?_
  obtain ⟨n, hn⟩ := Option.isSome_iff_exists.mp (mem_namesIn.mp hname)
  rw [isFolder_above (ht.slot hn (List.cons_ne_nil _ _))] at h
  cases h

/-! ## Faults on the way -/

/-- A fault other than a missing file stays the fault of everything below. -/
theorem lookAlong_below {t : FileTree} {c : Location}
    (hc : (∃ e, t.lookAlong c = .error e ∧ e ≠ .notFound) ∨ ∃ content, t.lookAlong c = .ok (.file content))
    {folder : Location} (hsuffix : c <:+ folder) (name : Text) :
    ∃ e, t.lookAlong (name :: folder) = .error e ∧ e ≠ .notFound := by
  induction folder generalizing name with
  | nil =>
    obtain rfl := List.suffix_nil.mp hsuffix
    rcases hc with ⟨e, he, -⟩ | ⟨content, h⟩
    · cases he
    · cases h
  | cons m up ih =>
    rw [lookAlong]
    rcases List.suffix_cons_iff.mp hsuffix with rfl | hup
    · rcases hc with ⟨e, he, hne⟩ | ⟨content, h⟩
      · exact ⟨e, by rw [he], hne⟩
      · exact ⟨.notADirectory, by rw [h], by simp⟩
    · obtain ⟨e, he, hne⟩ := ih hup m
      exact ⟨e, by rw [he], hne⟩

/-- Below a folder that cannot be listed, though it or what leads to it is not missing, nothing can be read. -/
theorem read_below_unlisted {t : FileTree} {c folder : Location} {e : FileError} (hlist : t.list c = .error e)
    (he : e ≠ .notFound) (hsuffix : c <:+ folder) (name : Text) :
    ∃ e', t.read (name :: folder) = .error e' ∧ e' ≠ .notFound := by
  suffices hlook : ∃ e', t.look (name :: folder) = .error e' ∧ e' ≠ .notFound by
    obtain ⟨e', he', hne⟩ := hlook
    exact ⟨e', by rw [read_eq_look, he'], hne⟩
  have hc : c <:+ name :: folder := hsuffix.trans (List.suffix_cons ..)
  have hsize : t.folderSize c ≤ t.pathSize (name :: folder) :=
    Nat.le_trans (t.folderSize_suffix hsuffix) (t.folderSize_le name folder)
  rw [look]
  split
  · exact ⟨_, rfl, by simp⟩
  · next hnul =>
    split
    · exact ⟨_, rfl, by simp⟩
    · next hpath =>
      have hnul' : ¬ c.any (·.contains '\x00') = true := by
        simp only [List.any_eq_true, not_exists, not_and] at hnul ⊢
        exact fun n hn => hnul n (hc.subset hn)
      have hshort : t.folderSize c < pathLimit := by omega
      have hlook : t.lookFolder c = t.lookAlong c := by
        have hpath : ¬ pathLimit ≤ t.pathSize c := Nat.not_le.mpr (Nat.lt_of_le_of_lt (Nat.sub_le ..) hshort)
        rw [lookFolder, if_neg fun h => Nat.not_le.mpr hshort h.2, look, if_neg hnul', if_neg hpath]
      refine lookAlong_below ?_ hsuffix name
      rw [list_eq_look, hlook] at hlist
      cases hx : t.lookAlong c with
      | error e' =>
        rw [hx] at hlist
        exact Or.inl ⟨e', rfl, fun heq => he (Except.error.inj hlist ▸ heq)⟩
      | ok s =>
        rw [hx] at hlist
        cases s with
        | file content => exact Or.inr ⟨content, rfl⟩
        | directory => cases hlist

/-! ## Looking alike -/

/-- No name on the way is too long. -/
def NamesFit (l : Location) : Prop := ∀ name ∈ l, Utf8.size name ≤ nameLimit

instance (l : Location) : Decidable (NamesFit l) := inferInstanceAs (Decidable (∀ name ∈ l, _))

/-- What a look comes to where nothing but a missing file can be the fault. -/
def found : Option Sight → Except FileError Sight
  | none => .error .notFound
  | some s => .ok s

theorem lookAlong_below_found {t : FileTree} (ht : t.Sound) {name : Text} {folder : Location}
    (hc : ∀ i, t.node? folder ≠ some (.file i)) (hname : Utf8.size name ≤ nameLimit)
    (hfolder : t.lookAlong folder = found (t.sight folder)) :
    t.lookAlong (name :: folder) = found (t.sight (name :: folder)) := by
  rw [lookAlong, hfolder]
  cases hs : t.sight folder with
  | none =>
    have hnone := ht.node_below (List.suffix_cons name folder) (sight_eq_none.mp hs)
    rw [sight_eq_none.mpr hnone]
    rfl
  | some s =>
    cases s with
    | file content =>
      obtain ⟨i, hi, -⟩ := sight_eq_file.mp hs
      exact absurd hi (hc i)
    | directory =>
      simp only [found, if_neg (Nat.not_lt.mpr hname)]

/-- Where names are short enough, a look at a clear way finds what is there. -/
theorem lookAlong_of_names {t : FileTree} (ht : t.Sound) {l : Location} (hc : t.Clear l) (hn : NamesFit l) :
    t.lookAlong l = found (t.sight l) := by
  induction l with
  | nil => simp [lookAlong, sight, found]
  | cons name folder ih =>
    obtain ⟨hname, hnames⟩ := List.forall_mem_cons.mp hn
    have hfolder := ih (hc.suffix (List.suffix_cons ..)) hnames
    exact lookAlong_below_found ht (hc folder (List.suffix_cons ..)) hname hfolder

/-- Where names are short enough, a look below a clear way depends on what is there. -/
theorem look_congr_of_names {t t' : FileTree} (ht : t.Sound) (ht' : t'.Sound) (hroot : t'.root = t.root)
    {name : Text} {folder : Location} (hc : t.Clear folder) (hc' : t'.Clear folder) (hn : NamesFit (name :: folder))
    (h : t'.sight (name :: folder) = t.sight (name :: folder)) :
    t'.look (name :: folder) = t.look (name :: folder) := by
  have hsize : t'.pathSize (name :: folder) = t.pathSize (name :: folder) := by rw [pathSize, pathSize, hroot]
  obtain ⟨hname, hnames⟩ := List.forall_mem_cons.mp hn
  have halong := lookAlong_below_found ht (hc folder List.suffix_rfl) hname (lookAlong_of_names ht hc hnames)
  have halong' := lookAlong_below_found ht' (hc' folder List.suffix_rfl) hname (lookAlong_of_names ht' hc' hnames)
  rw [look, look, hsize, halong, halong', h]

/-- Below a folder at which two trees come to the same, they come to the same as long as they look alike. -/
theorem lookAlong_congr {t t' : FileTree} {c l : Location} (hc : t'.lookAlong c = t.lookAlong c) (hcl : c <:+ l)
    (hsame : ∀ r, c <:+ r → r <:+ l → t'.sight r = t.sight r) : t'.lookAlong l = t.lookAlong l := by
  induction l with
  | nil =>
    obtain rfl := List.suffix_nil.mp hcl
    exact hc
  | cons name folder ih =>
    rcases List.suffix_cons_iff.mp hcl with rfl | hcf
    · exact hc
    · have hfolder := ih hcf fun r h1 h2 => hsame r h1 (h2.trans (List.suffix_cons ..))
      rw [lookAlong, lookAlong, hfolder, hsame _ hcl List.suffix_rfl]

theorem look_congr {t t' : FileTree} {c l : Location} (hroot : t'.root = t.root)
    (hc : t'.lookAlong c = t.lookAlong c) (hcl : c <:+ l)
    (hsame : ∀ r, c <:+ r → r <:+ l → t'.sight r = t.sight r) : t'.look l = t.look l := by
  have hsize : t'.pathSize l = t.pathSize l := by rw [pathSize, pathSize, hroot]
  rw [look, look, hsize, lookAlong_congr hc hcl hsame]

/-- A tree looks the same as another one where everything on the way is the same. -/
theorem look_congr_of_sights {t t' : FileTree} {l : Location} (hroot : t'.root = t.root)
    (hsame : ∀ r, r <:+ l → t'.sight r = t.sight r) : t'.look l = t.look l :=
  look_congr (c := []) hroot rfl List.nil_suffix fun r _ => hsame r

theorem mem_namesIn_iff {t : FileTree} {folder : Location} {name : Text} :
    name ∈ t.namesIn folder ↔ t.sight (name :: folder) ≠ none := by
  rw [mem_namesIn, Option.isSome_iff_ne_none]
  exact not_congr sight_eq_none.symm

end EntryServer.FileTree
