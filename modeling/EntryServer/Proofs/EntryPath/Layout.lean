import EntryServer.Proofs.EntryPath.Facets
import EntryServer.Store.Basic
import Mathlib.Data.List.Basic

/-! # The layout on disk

The dot path of an entry is the text of a directory, whose names are segments, and a stem without a slash. So
the text gives back the place, and with it the entry, whatever characters the names have. What this says of the
files and directories of any two entries is put together in `Apart`. -/
namespace EntryServer
set_option autoImplicit false

/-! ## Texts of locations -/

/-- The text of a directory below a root, with a slash at its end. -/
def folderText (root : Text) (l : Location) : Text := root ++ (l.reverse.map (· ++ ['/'])).flatten

/-- The text of a file below a root. -/
def fileText (root : Text) : Location → Text
  | [] => root
  | name :: folder => folderText root folder ++ name

theorem folderText_cons (root name : Text) (folder : Location) :
    folderText root (name :: folder) = folderText root folder ++ name ++ ['/'] := by
  simp [folderText]

/-- What is below a directory has a text that begins with its text. -/
theorem folderText_prefix (root : Text) {l l' : Location} (h : l <:+ l') :
    folderText root l <+: folderText root l' := by
  obtain ⟨way, rfl⟩ := h
  exact ⟨(way.reverse.map (· ++ ['/'])).flatten, by simp [folderText]⟩

theorem closed_name_inj {name name' more more' : Text} (h : '/' ∉ name) (h' : '/' ∉ name')
    (heq : name ++ '/' :: more = name' ++ '/' :: more') : name = name' ∧ more = more' := by
  rcases List.append_eq_append_iff.mp heq with ⟨between, rfl, hrest⟩ | ⟨between, rfl, hrest⟩
  · cases between with
    | nil => simpa using hrest
    | cons c between =>
      obtain rfl := (List.cons.inj hrest).1
      simp at h'
  · cases between with
    | nil => simpa [eq_comm] using hrest
    | cons c between =>
      obtain rfl := (List.cons.inj hrest).1
      simp at h

/-- Texts that consist of closed names, and perhaps the beginning of another one, are read from the left. -/
theorem names_of_closed {names names' : List Text} {rest : Text} (h : ∀ name ∈ names, '/' ∉ name)
    (h' : ∀ name ∈ names', '/' ∉ name) (hrest : '/' ∉ rest)
    (hp : (names.map (· ++ ['/'])).flatten <+: (names'.map (· ++ ['/'])).flatten ++ rest) : names <+: names' := by
  -- along the names of the shorter text; each ends at the first slash, so the other text has it, too
  induction names generalizing names' with
  | nil => exact List.nil_prefix
  | cons name names ih =>
    obtain ⟨more, hmore⟩ := hp
    cases names' with
    | nil =>
      have hslash : '/' ∈ ((name :: names).map (· ++ ['/'])).flatten ++ more := by simp
      rw [hmore] at hslash
      exact absurd hslash hrest
    | cons name' names' =>
      simp only [List.map_cons, List.flatten_cons, List.append_assoc, List.cons_append, List.nil_append] at hmore
      obtain ⟨rfl, htail⟩ := closed_name_inj (h _ (List.mem_cons_self ..)) (h' _ (List.mem_cons_self ..)) hmore
      exact List.cons_prefix_cons.mpr ⟨rfl, ih (fun n hn => h n (List.mem_cons_of_mem _ hn))
        (fun n hn => h' n (List.mem_cons_of_mem _ hn)) ⟨more, htail⟩⟩

/-- A directory is on the way to what its text leads to. -/
theorem suffix_of_folderText {root : Text} {l l' : Location} {rest : Text} (h : ∀ name ∈ l, '/' ∉ name)
    (h' : ∀ name ∈ l', '/' ∉ name) (hrest : '/' ∉ rest)
    (hp : folderText root l <+: folderText root l' ++ rest) : l <:+ l' := by
  rw [folderText, folderText, List.append_assoc, List.prefix_append_right_inj] at hp
  exact List.reverse_prefix.mp (names_of_closed (by simpa using h) (by simpa using h') hrest hp)

theorem folderText_append_inj {root : Text} {l l' : Location} {rest rest' : Text} (h : ∀ name ∈ l, '/' ∉ name)
    (h' : ∀ name ∈ l', '/' ∉ name) (hrest : '/' ∉ rest) (hrest' : '/' ∉ rest')
    (heq : folderText root l ++ rest = folderText root l' ++ rest') : l = l' ∧ rest = rest' := by
  have hl : l <:+ l' := suffix_of_folderText h h' hrest' ⟨rest, heq⟩
  have hl' : l' <:+ l := suffix_of_folderText h' h hrest ⟨rest', heq.symm⟩
  obtain rfl := hl.eq_of_length (Nat.le_antisymm hl.length_le hl'.length_le)
  exact ⟨rfl, List.append_cancel_left heq⟩

theorem folderText_inj {root : Text} {l l' : Location} (h : ∀ name ∈ l, '/' ∉ name)
    (h' : ∀ name ∈ l', '/' ∉ name) (heq : folderText root l = folderText root l') : l = l' :=
  (folderText_append_inj h h' List.not_mem_nil List.not_mem_nil (congrArg (· ++ []) heq)).1

namespace EntryPath

/-! ## Dot paths -/

theorem stem_not_endsWithSlash {hops : List Step} (h : (placeOf hops).stem ≠ []) :
    (placeOf hops).stem.getLast? ≠ some '/' := by
  match hops with
  | [] => exact absurd rfl h
  | .child n :: above => simp [placeOf]
  | .dir :: above => exact absurd rfl h
  | .metadata :: above => simp [placeOf]

theorem endsWithSlash_rootText (folder : Text) : endsWithSlash (rootText folder) = true := by
  unfold rootText
  split
  · assumption
  · simp [endsWithSlash]

section Texts
variable {root : Text} (hroot : endsWithSlash root = true)
include hroot

theorem endsWithSlash_folderText (l : Location) : endsWithSlash (folderText root l) = true := by
  cases l with
  | nil => simpa [folderText] using hroot
  | cons name folder => simp [folderText_cons, endsWithSlash]

/-- What opens the children of a dot path closes the name of their directory. -/
theorem opened_eq (hops : List Step) : opened (folderText root (placeOf hops).folder ++ (placeOf hops).stem) =
    folderText root (placeOf hops).children := by
  by_cases hstem : (placeOf hops).stem = []
  · rw [Place.children, if_pos hstem, hstem, List.append_nil, opened, if_pos (endsWithSlash_folderText hroot _)]
  · have hopen : endsWithSlash (folderText root (placeOf hops).folder ++ (placeOf hops).stem) = false := by
      rw [endsWithSlash, beq_eq_false_iff_ne, List.getLast?_append_of_ne_nil _ hstem]
      exact stem_not_endsWithSlash hstem
    rw [Place.children, if_neg hstem, folderText_cons, opened, hopen]
    simp

theorem renderHops_eq (hops : List Step) :
    renderHops root hops = folderText root (placeOf hops).folder ++ (placeOf hops).stem := by
  induction hops with
  | nil => simp [renderHops, placeOf, folderText]
  | cons s above ih =>
    cases s with
    | child n => rw [renderHops, ih, opened_eq hroot, placeOf, List.append_assoc]
    | dir => rw [renderHops, ih, opened_eq hroot, placeOf, List.append_nil]
    | metadata => rw [renderHops, ih, placeOf, List.append_assoc]

theorem render_eq (p : EntryPath) : p.render root = folderText root p.place.folder ++ p.place.stem :=
  renderHops_eq hroot p.hops

theorem dataText_eq (p : EntryPath) : p.dataText root = fileText root p.place.data := by
  rw [dataText, render_eq hroot, Place.data, fileText, List.append_assoc]

theorem stagingText_eq (p : EntryPath) : p.stagingText root = fileText root p.place.staging := by
  rw [stagingText, render_eq hroot, Place.staging, fileText, List.append_assoc]

theorem childrenText_eq (p : EntryPath) : p.childrenText root = folderText root p.place.children := by
  rw [childrenText, render_eq hroot]
  exact opened_eq hroot p.hops

end Texts

/-! ## Names of files and directories -/

theorem slash_not_mem_stem {hops : List Step} (hc : CanonicalHops hops) : '/' ∉ (placeOf hops).stem := by
  induction hops with
  | nil => simp [placeOf]
  | cons s above ih =>
    cases s with
    | child n => simp [placeOf, hc.1.2.2.2]
    | dir => simp [placeOf]
    | metadata => simp [placeOf, ih hc]

/-- What a facet adds to a stem makes it a segment, even an empty stem. -/
theorem isSegment_facet {stem : Text} (h : '/' ∉ stem) (f : Facet) : IsSegment (stem ++ f.ending) := by
  have hlast : ∀ short : Text, short.getLast? = some '.' → stem ++ f.ending ≠ short := by
    rintro short hshort rfl
    cases f <;> simp [Facet.ending, Facet.word] at hshort
  refine ⟨by simp [Facet.ending_ne_nil], hlast _ rfl, hlast _ rfl, ?_⟩
  rw [List.mem_append, not_or]
  exact ⟨h, by cases f <;> simp [Facet.ending, Facet.word]⟩

/-- Every name on the way to a facet is a segment. -/
theorem segments_folder {hops : List Step} (hc : CanonicalHops hops) :
    ∀ name ∈ (placeOf hops).folder, IsSegment name := by
  intro name hname
  obtain ⟨folder, later, hsplit⟩ := List.append_of_mem hname
  obtain ⟨a, ha, -, -, -, heq⟩ := exists_of_suffix_folder hc (l := name :: later)
    (by rw [hsplit]; exact List.suffix_append ..) (List.cons_ne_nil _ _)
  rw [(List.cons.inj heq).1]
  exact isSegment_facet (slash_not_mem_stem ha) .children

theorem segments_facet {hops : List Step} (hc : CanonicalHops hops) (f : Facet) :
    ∀ name ∈ (placeOf hops).facet f, IsSegment name := by
  intro name hname
  rcases List.mem_cons.mp hname with rfl | hname
  · exact isSegment_facet (slash_not_mem_stem hc) f
  · exact segments_folder hc name hname

theorem segments_children {hops : List Step} (hc : CanonicalHops hops) :
    ∀ name ∈ (placeOf hops).children, IsSegment name := by
  by_cases hstem : (placeOf hops).stem = []
  · rw [Place.children, if_pos hstem]
    exact segments_folder hc
  · rw [Place.children_of_stem hstem]
    exact segments_facet hc .children

theorem slashless {l : Location} (h : ∀ name ∈ l, IsSegment name) : ∀ name ∈ l, '/' ∉ name :=
  fun name hname => (h name hname).2.2.2

/-! ## Views of one entry -/

theorem children_dir (p : EntryPath) : p.dir.place.children = p.place.children := by
  unfold dir
  split
  · rfl
  · rw [place, place, placeOf, Place.children, if_pos rfl]

theorem children_file (p : EntryPath) : p.file.place.children = p.place.children := by
  unfold file
  split
  · next above hp => rw [place, place, hp, placeOf, Place.children.eq_def ⟨_, []⟩, if_pos rfl]
  · rfl

/-- The directory of the children belongs to both views of an entry, and to no other entry. -/
theorem children_eq_iff {p q : EntryPath} (hp : p.Canonical) (hq : q.Canonical) :
    p.place.children = q.place.children ↔ p.dir = q.dir := by
  constructor
  · intro h
    rw [← children_file p, ← children_file q] at h
    have hplace := children_inj (file_head_ne_dir hp) (file_head_ne_dir hq) h
    have hfile : p.file = q.file := EntryPath.ext (placeOf_inj hp.file hq.file hplace)
    rw [← dir_file hp, hfile, dir_file hq]
  · intro h
    rw [← children_dir p, h, children_dir]

/-! ## Navigation -/

theorem splitLast?_eq_some {c : Char} {t a b : Text} (h : Text.splitLast? c t = some (a, b)) :
    t = a ++ c :: b ∧ c ∉ b := by
  rw [Text.splitLast?] at h
  split at h
  · cases h
  · next x front hdrop =>
    obtain ⟨rfl, rfl⟩ := Prod.mk.inj (Option.some.inj h)
    have hx : x = c := by
      have hhead := List.head?_dropWhile_not (· ≠ c) t.reverse
      rw [hdrop] at hhead
      simpa using hhead
    have hsplit := @List.takeWhile_append_dropWhile _ (· ≠ c) t.reverse
    rw [hdrop, hx] at hsplit
    refine ⟨?_, fun hc => ?_⟩
    · have hreverse := congrArg List.reverse hsplit
      rw [List.reverse_append, List.reverse_cons, List.reverse_reverse, List.append_assoc, List.singleton_append]
        at hreverse
      exact hreverse.symm
    · simpa using List.all_eq_true.mp List.all_takeWhile c (List.mem_reverse.mp hc)

/-- The name of a file tells of a child whose name is a segment. -/
theorem childBase?_segment {fileName base : Text} (hslash : '/' ∉ fileName)
    (h : Store.childBase? fileName = some base) : IsSegment base := by
  unfold Store.childBase? at h
  split at h
  · cases h
  · next found facet hsplit =>
    split at h
    · cases h
    · next hfound =>
      simp only [not_or] at hfound
      split at h
      · obtain rfl := Option.some.inj h
        obtain ⟨rfl, -⟩ := splitLast?_eq_some hsplit
        exact ⟨hfound.1, hfound.2.1, hfound.2.2, fun hmem => hslash (List.mem_append_left _ hmem)⟩
      · cases h

/-- Paths that the operations on entries lead to, those that take names from the disk among them. -/
inductive Navigated : EntryPath → Prop
  | root : Navigated root
  | child {p : EntryPath} (name : Text) : Navigated p → Navigated (p.child name)
  /-- The child that the name of a file tells of. -/
  | literalChild {p : EntryPath} {fileName base : Text} : '/' ∉ fileName →
      Store.childBase? fileName = some base → Navigated p → Navigated (p.literalChild base)
  | parameters {p : EntryPath} : Navigated p → Navigated p.parameters
  | parent {p q : EntryPath} (force : Bool) : p.parent force = some q → Navigated p → Navigated q
  | dir {p : EntryPath} : Navigated p → Navigated p.dir
  | file {p : EntryPath} : Navigated p → Navigated p.file

theorem Navigated.canonical {p : EntryPath} (h : Navigated p) : p.Canonical := by
  induction h with
  | root => exact canonical_root
  | child name _ ih => exact ih.child name
  | literalChild hslash hbase _ ih => exact ih.literalChild (childBase?_segment hslash hbase)
  | parameters _ ih => exact ih.parameters
  | parent force hq _ ih => exact ih.parent hq
  | dir _ ih => exact ih.dir
  | file _ ih => exact ih.file

/-! ## Entries side by side -/

/-- What keeps two entries apart on disk, below the same root. -/
structure Apart (root : Text) (p q : EntryPath) : Prop where
  render : p.render root = q.render root ↔ p = q
  data : p.dataText root = q.dataText root ↔ p = q
  staging : p.stagingText root = q.stagingText root ↔ p = q
  data_ne_staging : p.dataText root ≠ q.stagingText root
  /-- The children are in one directory exactly if the container views are one entry. -/
  children : p.childrenText root = q.childrenText root ↔ p.dir = q.dir
  /-- No file is where a directory on the way to a facet has to be. -/
  no_file_above : ∀ file ∈ [p.dataText root, p.stagingText root],
    ∀ facet ∈ [q.dataText root, q.stagingText root, q.childrenText root], ¬ file ++ ['/'] <+: facet

section Entries
variable {root : Text} {p q : EntryPath}

theorem fileText_facet_inj (hp : p.Canonical) (hq : q.Canonical) {f g : Facet}
    (h : fileText root (p.place.facet f) = fileText root (q.place.facet g)) : p = q ∧ f = g := by
  obtain ⟨hfolder, hname⟩ := folderText_append_inj (slashless (segments_folder hp)) (slashless (segments_folder hq))
    (isSegment_facet (slash_not_mem_stem hp) f).2.2.2 (isSegment_facet (slash_not_mem_stem hq) g).2.2.2 h
  obtain ⟨hhops, hf⟩ := facet_inj hp hq (congrArg₂ List.cons hname hfolder)
  exact ⟨EntryPath.ext hhops, hf⟩

/-- A file is on the way to no facet. -/
theorem not_suffix_folder (hp : p.Canonical) (hq : q.Canonical) {f : Facet} (hf : f ≠ .children) :
    ¬ p.place.facet f <:+ q.place.folder := by
  intro h
  obtain ⟨a, ha, -, -, -, heq⟩ := exists_of_suffix_folder hq h (List.cons_ne_nil _ _)
  exact hf (facet_inj hp ha heq).2

theorem not_suffix_children (hp : p.Canonical) (hq : q.Canonical) {f : Facet} (hf : f ≠ .children) :
    ¬ p.place.facet f <:+ q.place.children := by
  by_cases hstem : q.place.stem = []
  · rw [Place.children, if_pos hstem]
    exact not_suffix_folder hp hq hf
  · rw [Place.children_of_stem hstem]
    intro h
    rcases List.suffix_cons_iff.mp h with heq | h
    · exact hf (facet_inj hp hq heq).2
    · exact not_suffix_folder hp hq hf h

theorem not_above (hp : p.Canonical) (hq : q.Canonical) {f : Facet} (hf : f ≠ .children) (g : Facet) :
    ¬ fileText root (p.place.facet f) ++ ['/'] <+: fileText root (q.place.facet g) ∧
      ¬ fileText root (p.place.facet f) ++ ['/'] <+: folderText root q.place.children := by
  have hfile : fileText root (p.place.facet f) ++ ['/'] = folderText root (p.place.facet f) :=
    (folderText_cons root _ _).symm
  have hnames := slashless (segments_facet hp f)
  rw [hfile]
  constructor
  · exact fun h => not_suffix_folder hp hq hf (suffix_of_folderText hnames (slashless (segments_folder hq))
      (isSegment_facet (slash_not_mem_stem hq) g).2.2.2 h)
  · exact fun h => not_suffix_children hp hq hf (suffix_of_folderText hnames (slashless (segments_children hq))
      List.not_mem_nil (by simpa using h))

theorem Canonical.apart (hroot : endsWithSlash root = true) (hp : p.Canonical) (hq : q.Canonical) :
    Apart root p q where
  render := by
    refine ⟨fun h => ?_, fun h => by rw [h]⟩
    rw [render_eq hroot, render_eq hroot] at h
    obtain ⟨hfolder, hstem⟩ := folderText_append_inj (slashless (segments_folder hp))
      (slashless (segments_folder hq)) (slash_not_mem_stem hp) (slash_not_mem_stem hq) h
    exact EntryPath.ext (placeOf_inj hp hq (congrArg₂ Place.mk hfolder hstem))
  data := by
    refine ⟨fun h => ?_, fun h => by rw [h]⟩
    rw [dataText_eq hroot, dataText_eq hroot] at h
    exact (fileText_facet_inj (f := .data) (g := .data) hp hq h).1
  staging := by
    refine ⟨fun h => ?_, fun h => by rw [h]⟩
    rw [stagingText_eq hroot, stagingText_eq hroot] at h
    exact (fileText_facet_inj (f := .staging) (g := .staging) hp hq h).1
  data_ne_staging := by
    intro h
    rw [dataText_eq hroot, stagingText_eq hroot] at h
    cases (fileText_facet_inj (f := .data) (g := .staging) hp hq h).2
  children := by
    rw [childrenText_eq hroot, childrenText_eq hroot, ← children_eq_iff hp hq]
    exact ⟨folderText_inj (slashless (segments_children hp)) (slashless (segments_children hq)), fun h => by rw [h]⟩
  no_file_above := by
    rw [dataText_eq hroot, stagingText_eq hroot, dataText_eq hroot, stagingText_eq hroot, childrenText_eq hroot]
    have habove : ∀ f : Facet, f ≠ .children → ∀ facet ∈ [fileText root q.place.data,
        fileText root q.place.staging, folderText root q.place.children],
        ¬ fileText root (p.place.facet f) ++ ['/'] <+: facet := by
      intro f hf facet hfacet
      simp only [List.mem_cons, List.not_mem_nil, or_false] at hfacet
      rcases hfacet with rfl | rfl | rfl
      · exact (not_above hp hq hf .data).1
      · exact (not_above hp hq hf .staging).1
      · exact (not_above hp hq hf .data).2
    intro file hfile
    simp only [List.mem_cons, List.not_mem_nil, or_false] at hfile
    rcases hfile with rfl | rfl
    · exact habove .data (by simp)
    · exact habove .staging (by simp)

end Entries

/-- Paths that the operations lead to are canonical, so below every root any two entries are apart, and all names
on the way to their files and directories are segments. -/
theorem layout_collision_free (folder : Text) :
    (∀ p, Navigated p → p.Canonical) ∧
    (∀ p q, Navigated p → Navigated q → Apart (rootText folder) p q) ∧
    ∀ p, Navigated p →
      p.dataText (rootText folder) = fileText (rootText folder) p.place.data ∧
      p.stagingText (rootText folder) = fileText (rootText folder) p.place.staging ∧
      p.childrenText (rootText folder) = folderText (rootText folder) p.place.children ∧
      ∀ l ∈ [p.place.data, p.place.staging, p.place.children], ∀ name ∈ l, IsSegment name := by
  have hroot : endsWithSlash (rootText folder) = true := endsWithSlash_rootText folder
  refine ⟨fun p hp => hp.canonical, fun p q hp hq => hp.canonical.apart hroot hq.canonical, fun p hp => ?_⟩
  refine ⟨dataText_eq hroot p, stagingText_eq hroot p, childrenText_eq hroot p, fun l hl => ?_⟩
  simp only [List.mem_cons, List.not_mem_nil, or_false] at hl
  rcases hl with rfl | rfl | rfl
  · exact segments_facet hp.canonical .data
  · exact segments_facet hp.canonical .staging
  · exact segments_children hp.canonical

/-- The content of the metadata of `a` and that of the child `a.meta` are apart by a dot. -/
theorem metadata_apart_from_child :
    (root.child "a".toList).parameters.dataText "store/".toList = "store/a.metadata".toList ∧
    (root.child "a.meta".toList).dataText "store/".toList = "store/a.meta.data".toList ∧
    Apart "store/".toList (root.child "a".toList).parameters (root.child "a.meta".toList) :=
  ⟨by decide +kernel, by decide +kernel,
    (layout_collision_free "store".toList).2.1 _ _ (.parameters (.child _ .root)) (.child _ .root)⟩

end EntryPath
end EntryServer
