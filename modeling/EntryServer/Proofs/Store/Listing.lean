import EntryServer.Proofs.Files.Looking
import EntryServer.Proofs.Store.Contents
import Mathlib.Data.List.Sort

/-! # Listed children

The listed children depend on which names there are and not on their order, so listing, like reading, gives
the same in stores that look alike at the place. -/
namespace EntryServer.Store
set_option autoImplicit false
open EntryPath FileTree

/-! ## Sorted names -/

theorem mem_insertSorted {name x : Text} {names : List Text} :
    x ∈ insertSorted name names ↔ x = name ∨ x ∈ names := by
  induction names with
  | nil => simp [insertSorted]
  | cons first rest ih =>
    rw [insertSorted]
    split
    · next h =>
      subst h
      simp
    · split
      · simp
      · rw [List.mem_cons, ih, List.mem_cons]
        exact or_left_comm

theorem mem_sorted {x : Text} {names : List Text} : x ∈ sorted names ↔ x ∈ names := by
  induction names with
  | nil => simp [sorted]
  | cons first rest ih => rw [sorted, List.foldr_cons, ← sorted, mem_insertSorted, ih, List.mem_cons]

theorem pairwise_insertSorted {name : Text} {names : List Text} (h : names.Pairwise (· < ·)) :
    (insertSorted name names).Pairwise (· < ·) := by
  induction names with
  | nil => simp [insertSorted]
  | cons first rest ih =>
    obtain ⟨hfirst, hrest⟩ := List.pairwise_cons.mp h
    rw [insertSorted]
    split
    · exact h
    · next hne =>
      split
      · next hlt =>
        refine List.pairwise_cons.mpr ⟨fun x hx => ?_, h⟩
        rcases List.mem_cons.mp hx with rfl | hx
        · exact hlt
        · exact List.lt_trans hlt (hfirst x hx)
      · next hlt =>
        refine List.pairwise_cons.mpr ⟨fun x hx => ?_, ih hrest⟩
        rcases mem_insertSorted.mp hx with rfl | hx
        · refine Decidable.byContradiction fun hgt => ?_
          exact hne (List.le_antisymm (List.not_lt.mp hgt) (List.not_lt.mp hlt))
        · exact hfirst x hx

theorem pairwise_sorted (names : List Text) : (sorted names).Pairwise (· < ·) := by
  induction names with
  | nil => exact List.Pairwise.nil
  | cons first rest ih => exact pairwise_insertSorted ih

/-- What is kept of sorted names depends on the names that are kept. -/
theorem filter_sorted_congr {names names' : List Text} (keep : Text → Bool)
    (h : ∀ x, keep x = true → (x ∈ names ↔ x ∈ names')) : (sorted names).filter keep = (sorted names').filter keep := by
  have hnames := (pairwise_sorted names).filter keep
  refine hnames.eq_of_mem_iff ((pairwise_sorted names').filter keep) fun x => ?_
  rw [List.mem_filter, List.mem_filter, mem_sorted, mem_sorted]
  exact and_congr_left (h x)

theorem sorted_congr {names names' : List Text} (h : ∀ x, x ∈ names ↔ x ∈ names') :
    sorted names = sorted names' := by
  refine (pairwise_sorted names).eq_of_mem_iff (pairwise_sorted names') fun x => ?_
  rw [mem_sorted, mem_sorted, h]

/-- The listed children are children by name. -/
theorem mem_children {t : FileTree} {p c : EntryPath} {found : List EntryPath} (h : children t p = .ok found)
    (hc : c ∈ found) : ∃ name, c = p.literalChild name := by
  rw [children] at h
  split at h
  · obtain rfl := Except.ok.inj h
    obtain ⟨name, -, rfl⟩ := List.mem_map.mp hc
    exact ⟨name, rfl⟩
  · obtain rfl := Except.ok.inj h
    cases hc
  · cases h

/-! ## Names that tell of a child -/

theorem splitLast?_append {c : Char} {a b : Text} (h : c ∉ b) : Text.splitLast? c (a ++ c :: b) = some (a, b) := by
  have hreverse : (a ++ c :: b).reverse = b.reverse ++ c :: a.reverse := by simp
  have hb : ∀ x ∈ b.reverse, decide (x ≠ c) = true := by
    intro x hx
    refine decide_eq_true ?_
    rintro rfl
    exact h (List.mem_reverse.mp hx)
  have hdrop : (b.reverse ++ c :: a.reverse).dropWhile (· ≠ c) = c :: a.reverse := by
    rw [List.dropWhile_append_of_pos hb]
    simp
  have htake : (b.reverse ++ c :: a.reverse).takeWhile (· ≠ c) = b.reverse := by
    rw [List.takeWhile_append_of_pos hb]
    simp
  rw [Text.splitLast?, hreverse, hdrop, htake]
  simp only [List.reverse_reverse]

theorem childBase?_append {d facet : Text} (hd : IsSegment d) (hdot : '.' ∉ facet) :
    childBase? (d ++ ['.'] ++ facet) =
      if facet = "data".toList ∨ facet = "dir".toList ∨ "meta".toList.isPrefixOf facet then some d else none := by
  obtain ⟨h1, h2, h3, -⟩ := hd
  rw [childBase?, List.append_assoc, List.singleton_append, splitLast?_append hdot]
  simp only [h1, h2, h3, false_or, if_false]

/-- The facets of a child and of its metadata tell of it, but for its draft. -/
theorem childBase?_facet {n : Text} (hn : IsSegment n) {k : Nat} {f : Facet} (hf : k ≠ 0 ∨ f ≠ .staging) :
    childBase? (n ++ ['.'] ++ (metaText k ++ f.ending)) = some n := by
  rw [childBase?_append hn (by simp [dotless_metaText, f.dotless_ending])]
  refine if_pos ?_
  cases k with
  | succ k => exact Or.inr (Or.inr (by simp [metaText_succ]))
  | zero =>
    cases f with
    | data => exact Or.inl rfl
    | staging => exact absurd rfl (hf.resolve_left (by simp))
    | children => exact Or.inr (Or.inl rfl)

/-- Where the content of a child is while it is being written. -/
def Unfinished (l : Location) : Prop := ∃ name folder, l = (name ++ ['.'] ++ Facet.staging.ending) :: folder

theorem childBase?_unfinished (name : Text) : childBase? (name ++ ['.'] ++ Facet.staging.ending) = none := by
  rw [childBase?, List.append_assoc, List.singleton_append, splitLast?_append (by decide)]
  simp only
  split
  · rfl
  · rfl

theorem not_unfinished_of_child {name : Text} (hname : childBase? name ≠ none) (folder : Location) :
    ¬ Unfinished (name :: folder) := by
  rintro ⟨base, _, heq⟩
  rw [(List.cons.inj heq).1, childBase?_unfinished] at hname
  exact hname rfl

theorem not_unfinished_facet (at_ : Place) {f : Facet} (hf : f ≠ .staging) : ¬ Unfinished (at_.facet f) := by
  rintro ⟨name, folder, h⟩
  obtain ⟨-, rfl⟩ := Facet.ending_inj (List.cons.inj h).1
  exact hf rfl

/-- Everything on the way to a location is something else. -/
def Finished (l : Location) : Prop := ∀ r, r <:+ l → ¬ Unfinished r

theorem Finished.cons {folder : Location} (h : Finished folder) {name : Text} (hn : ¬ Unfinished (name :: folder)) :
    Finished (name :: folder) := by
  intro r hr
  rcases List.suffix_cons_iff.mp hr with rfl | hr
  · exact hn
  · exact h r hr

theorem Finished.children {at_ : Place} (h : Finished at_.folder) : Finished at_.children := by
  by_cases hstem : at_.stem = []
  · rw [Place.children, if_pos hstem]
    exact h
  · rw [Place.children_of_stem hstem]
    exact h.cons (not_unfinished_facet at_ (by simp))

theorem finished_folder (hops : List Step) : Finished (placeOf hops).folder := by
  induction hops with
  | nil =>
    rintro r hr ⟨name, folder, rfl⟩
    exact List.cons_ne_nil _ _ (List.suffix_nil.mp hr)
  | cons s above ih =>
    cases s with
    | child n => exact ih.children
    | dir => exact ih.children
    | metadata => exact ih

theorem finished_children (p : EntryPath) : Finished p.place.children := (finished_folder p.hops).children

theorem finished_data (p : EntryPath) : Finished p.place.data :=
  (finished_folder p.hops).cons (not_unfinished_facet p.place (f := .data) (by simp))

/-! ## Stores that look alike -/

section Congruence
variable {t t' : FileTree} {p : EntryPath}

theorem read_congr (hroot : t'.root = t.root) (h : t'.look p.place.data = t.look p.place.data) :
    read t' p = read t p := by
  rw [read, read, read_eq_look, read_eq_look, h, hroot]

theorem hasData_congr (h : t'.look p.place.data = t.look p.place.data) : hasData t' p = hasData t p := by
  rw [hasData, hasData, isFile_eq_look, isFile_eq_look, h]

theorem hasFolder_congr (hroot : t'.root = t.root) (h : t'.look p.place.children = t.look p.place.children) :
    hasFolder t' p = hasFolder t p := by
  rw [hasFolder, hasFolder, isFolder_eq_look, isFolder_eq_look, lookFolder_congr hroot h]

theorem hasFolder_missing (h : t.sight p.place.children ≠ some .directory) : hasFolder t p = false :=
  Bool.eq_false_iff.mpr fun hfolder => h (sight_of_isFolder hfolder).1

theorem hasFolder_of_error {e : StoreError} (h : children t p = .error e) : hasFolder t p = false := by
  rw [children, list_eq_look] at h
  rw [hasFolder, isFolder_eq_look]
  split
  · next hlook =>
    rw [hlook] at h
    cases h
  · rfl

/-- What is listed is what the names in the folder tell of. There are none where the folder is missing. -/
theorem children_listed (ht : t.Sound) {found : List EntryPath} (h : children t p = .ok found) :
    found = (sorted ((t.namesIn p.place.children).filterMap childBase?)).map p.literalChild := by
  rw [children, list_eq_look] at h
  cases hlook : t.lookFolder p.place.children with
  | ok s =>
    rw [hlook] at h
    cases s with
    | file content => cases h
    | directory => exact (Except.ok.inj h).symm
  | error e =>
    have hunlisted : t.isFolder p.place.children = false := by rw [isFolder_eq_look, hlook]
    rw [hlook] at h
    cases e <;> cases h
    rw [ht.namesIn_unlisted hunlisted]
    rfl

/-- Which children are listed depends on the names that tell of one. -/
theorem listed_congr {folder : Location} (hnames : ∀ name, childBase? name ≠ none →
      (t'.sight (name :: folder) = none ↔ t.sight (name :: folder) = none)) :
    sorted ((t'.namesIn folder).filterMap childBase?) = sorted ((t.namesIn folder).filterMap childBase?) := by
  refine sorted_congr fun x => ?_
  simp only [List.mem_filterMap, mem_namesIn_iff]
  refine exists_congr fun name => and_congr_left fun hname => not_congr (hnames name ?_)
  rw [hname]
  exact Option.some_ne_none x

theorem children_congr (hroot : t'.root = t.root) (h : t'.look p.place.children = t.look p.place.children)
    (hnames : ∀ name, childBase? name ≠ none →
      (t'.sight (name :: p.place.children) = none ↔ t.sight (name :: p.place.children) = none)) :
    children t' p = children t p := by
  have hsorted := listed_congr hnames
  rw [children, children, list_eq_look, list_eq_look, lookFolder_congr hroot h, hroot]
  cases t.lookFolder p.place.children with
  | error e => rfl
  | ok s =>
    cases s with
    | file content => rfl
    | directory => simp only [hsorted]

theorem hasData_eq (ht : t.Sound) (ht' : t'.Sound) (h : t'.sight p.place.data = t.sight p.place.data) :
    hasData t' p = hasData t p := by
  have hne : p.place.data ≠ [] := List.cons_ne_nil _ _
  rw [Bool.eq_iff_iff, hasData, hasData, isFile_iff ht' hne, isFile_iff ht hne, h]

theorem hasFolder_eq (ht : t.Sound) (ht' : t'.Sound) (hroot : t'.root = t.root) (hne : p.place.children ≠ [])
    (h : t'.sight p.place.children = t.sight p.place.children) : hasFolder t' p = hasFolder t p := by
  have hsize : t'.folderSize p.place.children = t.folderSize p.place.children := by rw [folderSize, folderSize, hroot]
  rw [Bool.eq_iff_iff, hasFolder, hasFolder, isFolder_iff ht' hne, isFolder_iff ht hne, h, hsize]

end Congruence

/-! ## Listings that fail -/

/-- Where children cannot be listed, nothing below their folder can be read, and not because it is missing. -/
theorem read_below_unlisted {t : FileTree} {p q : EntryPath} {e : StoreError} (h : children t p = .error e)
    (hq : p.place.children <:+ q.place.folder) : ∃ path error, Store.read t q = .error (.failed path error) := by
  have hlist : ∃ f, t.list p.place.children = .error f ∧ f ≠ .notFound := by
    rw [children] at h
    split at h
    · cases h
    · cases h
    · next f hne hlist => exact ⟨f, hlist, hne⟩
  obtain ⟨f, hlist, hf⟩ := hlist
  obtain ⟨f', hread, hf'⟩ := FileTree.read_below_unlisted hlist hf hq (q.place.stem ++ "data".toList)
  have hfailed := StoreError.isNotFound_ofFile (q.dataText t.root) hf'
  rw [Store.read, Place.data, hread]
  cases herror : StoreError.ofFile (q.dataText t.root) f' with
  | notFound path =>
    rw [herror] at hfailed
    cases hfailed
  | failed path error => exact ⟨path, error, by simp only [herror]⟩

end EntryServer.Store
