import EntryServer.Proofs.Store.Refinement
import EntryServer.Proofs.Store.Undo
import Mathlib.Data.List.TakeWhile

/-! # What an abandoned content leaves behind

A new content that is never committed leaves its file, and the directories that were made for it. Neither of
them has a content for a reader. But a directory is listed as a child, and where one is new a name that is too
long is not missing any more, but refused. And the file of a draft of metadata has the name of a metadata facet, so
that it may pass for the entry that the metadata belongs to. -/
namespace EntryServer.Store
set_option autoImplicit false
open EntryPath FileTree
open Http.Entry (appendAll)

/-! ## New directories -/

/-- Is a directory in the second store only, and nothing in the first one? -/
def Made (t t' : FileTree) (l : Location) : Prop := t.sight l = none ∧ t'.sight l = some .directory

/-- New directories make no difference to a look: there are none on the way, or all names are short enough. -/
def Steady (t t' : FileTree) (l : Location) : Prop := NamesFit l ∨ ∀ r, r <:+ l → ¬ Made t t' r

theorem Steady.suffix {t t' : FileTree} {l r : Location} (h : Steady t t' l) (hr : r <:+ l) : Steady t t' r :=
  h.imp (fun hn name hname => hn name (hr.subset hname)) fun hnew s hs => hnew s (hs.trans hr)

/-- Where the content of an entry is while it is being written. -/
def IsStaging (l : Location) : Prop := ∃ p : EntryPath, p.Canonical ∧ l = p.place.staging

section Places
variable {q : EntryPath} {l : Location}

theorem not_staging_data (hq : q.Canonical) : ¬ IsStaging q.place.data := by
  rintro ⟨p, hp, heq⟩
  exact data_ne_staging hp hq heq

theorem not_staging_of_suffix (hq : q.Canonical) (hl : l <:+ q.place.folder) : ¬ IsStaging l := by
  rintro ⟨p, hp, rfl⟩
  obtain ⟨a, ha, -, -, -, heq⟩ := exists_of_suffix_folder hq hl (List.cons_ne_nil _ _)
  cases (facet_inj (f := .staging) hp ha heq).2

/-- The folder of the children of an entry is the folder of each of them. -/
theorem literalChild_folder (q : EntryPath) (n : Text) : (q.literalChild n).place.folder = q.place.children := by
  obtain ⟨hops⟩ := q
  unfold literalChild EntryPath.file
  split
  · next heq =>
    obtain rfl : hops = .dir :: _ := heq
    simp [place, placeOf, Place.children]
  · rfl

theorem not_staging_of_suffix_children (hq : q.Canonical) (hl : l <:+ q.place.children) : ¬ IsStaging l := by
  have hn : IsSegment ['x'] := by decide
  rw [← literalChild_folder q ['x']] at hl
  exact not_staging_of_suffix (hq.literalChild hn) hl

end Places

/-! ## Stores that differ in left-overs -/

/-- The second store sees what the first one sees, drafts apart, and perhaps new directories. -/
structure Shadow (t t' : FileTree) : Prop where
  before : Sound t
  after : Sound t'
  root : t'.root = t.root
  sight : ∀ l, ¬ IsStaging l → t'.sight l = t.sight l ∨ Made t t' l

namespace Shadow
variable {t t' : FileTree} {q : EntryPath}

theorem sight_of_old (h : Shadow t t') {l : Location} (hl : ¬ IsStaging l) (hnew : ¬ Made t t' l) :
    t'.sight l = t.sight l :=
  (h.sight l hl).resolve_right hnew

/-- No directory is where a content can be. -/
theorem sight_data (h : Shadow t t') (hq : q.Canonical) : t'.sight q.place.data = t.sight q.place.data := by
  refine h.sight_of_old (not_staging_data hq) fun ⟨_, hmade⟩ => ?_
  exact h.after.no_directory (f := .data) hq (by simp) (sight_eq_directory.mp hmade)

theorem content (h : Shadow t t') (hq : q.Canonical) : content? t' q = content? t q :=
  content?_congr (h.sight_data hq)

theorem hasData (h : Shadow t t') (hq : q.Canonical) : Store.hasData t' q = Store.hasData t q :=
  hasData_eq h.before.tree h.after.tree (h.sight_data hq)

theorem read_ok (h : Shadow t t') (hq : q.Canonical) (content : Bytes) :
    Store.read t' q = .ok content ↔ Store.read t q = .ok content := by
  rw [h.after.read_ok_iff, h.before.read_ok_iff, h.content hq]

/-! ### Looking -/

theorem look_of_old (h : Shadow t t') {l : Location} (hl : ∀ r, r <:+ l → ¬ IsStaging r ∧ ¬ Made t t' r) :
    t'.look l = t.look l :=
  look_congr_of_sights h.root fun r hr => h.sight_of_old (hl r hr).1 (hl r hr).2

theorem look_data (h : Shadow t t') (hq : q.Canonical) (hsteady : Steady t t' q.place.data) :
    t'.look q.place.data = t.look q.place.data := by
  have hdata := h.sight_data hq
  rcases hsteady with hnames | hnew
  · have hclear : t.Clear q.place.folder := h.before.clear_folder hq
    have hclear' : t'.Clear q.place.folder := h.after.clear_folder hq
    exact look_congr_of_names h.before.tree h.after.tree h.root hclear hclear' hnames hdata
  · refine h.look_of_old fun r hr => ⟨?_, hnew r hr⟩
    rcases List.suffix_cons_iff.mp hr with rfl | hr
    · exact not_staging_data hq
    · exact not_staging_of_suffix hq hr

theorem read (h : Shadow t t') (hq : q.Canonical) (hsteady : Steady t t' q.place.data) :
    Store.read t' q = Store.read t q :=
  read_congr h.root (h.look_data hq hsteady)

/-- A folder looks the same, if it is not a new one. -/
theorem look_children (h : Shadow t t') (hq : q.Canonical) (hsteady : Steady t t' q.place.children) :
    t'.look q.place.children = t.look q.place.children ∨
      t.look q.place.children = .error .notFound ∧ t'.look q.place.children = .ok .directory := by
  rcases hsteady with hnames | hnew
  · have halong := lookAlong_of_names h.before.tree (h.before.clear_children hq) hnames
    have halong' := lookAlong_of_names h.after.tree (h.after.clear_children hq) hnames
    have hsize : t'.pathSize q.place.children = t.pathSize q.place.children := by rw [pathSize, pathSize, h.root]
    rw [look, look, hsize]
    split
    · exact Or.inl rfl
    · split
      · exact Or.inl rfl
      · rw [place, halong, halong', ← place]
        rcases h.sight _ (not_staging_of_suffix_children hq List.suffix_rfl) with hsame | ⟨hnone, hmade⟩
        · rw [hsame]
          exact Or.inl rfl
        · rw [hnone, hmade]
          exact Or.inr ⟨rfl, rfl⟩
  · exact Or.inl (h.look_of_old fun r hr => ⟨not_staging_of_suffix_children hq hr, hnew r hr⟩)

theorem lookFolder_children (h : Shadow t t') (hq : q.Canonical) (hsteady : Steady t t' q.place.children) :
    t'.lookFolder q.place.children = t.lookFolder q.place.children ∨
      t.lookFolder q.place.children = .error .notFound ∧ t'.lookFolder q.place.children = .ok .directory := by
  rcases h.look_children hq hsteady with hsame | ⟨hnone, hmade⟩
  · exact Or.inl (lookFolder_congr h.root hsame)
  · rcases t.lookFolder_cases q.place.children with hlook | ⟨-, hlong⟩
    · exact Or.inr ⟨(hlook t rfl).trans hnone, (hlook t' h.root).trans hmade⟩
    · exact Or.inl ((hlong t' h.root).trans (hlong t rfl).symm)

/-! ### Listing -/

/-- A listing fails alike, where new directories make no difference on the way. -/
theorem children_error (h : Shadow t t') (hq : q.Canonical) (hsteady : Steady t t' q.place.children)
    (e : StoreError) : Store.children t' q = .error e ↔ Store.children t q = .error e := by
  rw [Store.children, Store.children, list_eq_look, list_eq_look, h.root]
  rcases h.lookFolder_children hq hsteady with hsame | ⟨hnone, hmade⟩
  · rw [hsame]
    cases t.lookFolder q.place.children with
    | error e => rfl
    | ok s =>
      cases s with
      | file content => rfl
      | directory => simp
  · rw [hnone, hmade]
    simp

end Shadow

/-- Where a folder can be listed, its children are those that a name in it tells of. -/
theorem mem_children_iff {t : FileTree} (ht : t.Sound) {q c : EntryPath} {found : List EntryPath}
    (h : children t q = .ok found) : c ∈ found ↔
      ∃ name n, t.sight (name :: q.place.children) ≠ none ∧ childBase? name = some n ∧ c = q.literalChild n := by
  rw [children_listed ht h]
  simp only [List.mem_map, mem_sorted, List.mem_filterMap, mem_namesIn_iff]
  constructor
  · rintro ⟨n, ⟨name, hname, hbase⟩, rfl⟩
    exact ⟨name, n, hname, hbase, rfl⟩
  · rintro ⟨name, n, hname, hbase, rfl⟩
    exact ⟨n, ⟨name, hname, hbase⟩, rfl⟩

/-! ## Giving up a new content -/

/-- The metadata of an entry that has a name. -/
def IsNamedMetadata (p : EntryPath) : Prop := p.hops.head? = some .metadata ∧ '.' ∈ p.place.stem

instance (p : EntryPath) : Decidable (IsNamedMetadata p) := inferInstanceAs (Decidable (_ ∧ _))

/-- The draft of any other entry tells of no child. -/
theorem childBase?_staging {p : EntryPath} (h : ¬ IsNamedMetadata p) :
    childBase? (p.place.stem ++ Facet.staging.ending) = none := by
  have hdotless : ∀ {name : Text}, '.' ∉ name → childBase? name = none := by
    intro name hname
    rw [childBase?, Text.splitLast?]
    have hdrop : name.reverse.dropWhile (· ≠ '.') = [] := by
      refine List.dropWhile_eq_nil_iff.mpr fun c hc => decide_eq_true ?_
      rintro rfl
      exact hname (List.mem_reverse.mp hc)
    rw [hdrop]
  obtain ⟨hops⟩ := p
  rcases hops with _ | ⟨hop, above⟩
  · exact hdotless (by decide)
  · cases hop with
    | child n => exact childBase?_unfinished n
    | dir => exact hdotless (by simpa [place, placeOf] using Facet.dotless_ending .staging)
    | metadata =>
      have hstem : '.' ∉ (⟨.metadata :: above⟩ : EntryPath).place.stem := fun hm => h ⟨rfl, hm⟩
      refine hdotless fun hm => ?_
      exact (List.mem_append.mp hm).elim hstem (Facet.dotless_ending .staging)

/-- The entry that metadata belongs to, all hops into metadata taken back. -/
def owner (p : EntryPath) : EntryPath := ⟨p.hops.dropWhile (· = .metadata)⟩

theorem owner_of_deeper {p : EntryPath} {k : Nat} {above : List Step} (h : p.hops = deeper k above)
    (hhead : above.head? ≠ some .metadata) : owner p = ⟨above⟩ := by
  have habove : above.dropWhile (· = .metadata) = above := by
    cases above with
    | nil => rfl
    | cons s above => exact List.dropWhile_cons_of_neg (by simpa using hhead)
  rw [owner, h, deeper, List.dropWhile_append_of_pos (by simp), habove]

theorem place_of_deeper {p : EntryPath} {k : Nat} {above : List Step} (h : p.hops = deeper k above) :
    p.place = ⟨(placeOf above).folder, (placeOf above).stem ++ metaText k⟩ := by
  rw [place, h, placeOf_deeper]

/-- The metadata of an entry with a name lies in the folder of that entry. -/
theorem IsNamedMetadata.exists_child {p : EntryPath} (h : IsNamedMetadata p) :
    ∃ k m above, p.hops = deeper (k + 1) (.child m :: above) := by
  obtain ⟨hmeta, hdot⟩ := h
  obtain ⟨k, above, hops, hhead⟩ := exists_deeper p.hops
  have hstem : (placeOf above).stem ≠ [] := fun hstem => by
    rw [place_of_deeper hops, hstem] at hdot
    exact dotless_metaText k hdot
  cases k with
  | zero =>
    rw [hops] at hmeta
    exact absurd hmeta hhead
  | succ k =>
    rcases above with _ | ⟨_ | _ | _, above⟩
    · exact absurd rfl hstem
    · exact ⟨k, _, above, hops⟩
    · exact absurd rfl hstem
    · exact absurd rfl hhead

/-- A draft of the metadata of an entry with a name passes for the entry itself. -/
def PassesFor (p c : EntryPath) : Prop := IsNamedMetadata p ∧ c = owner p

instance (p c : EntryPath) : Decidable (PassesFor p c) := inferInstanceAs (Decidable (_ ∧ _))

/-- A draft is in the folder of the child that it passes for. -/
theorem PassesFor.folder {p q : EntryPath} {n : Text} (h : PassesFor p (q.literalChild n)) :
    q.place.children = p.place.folder := by
  obtain ⟨k, m, above, hops⟩ := h.1.exists_child
  have howner : q.literalChild n = ⟨.child m :: above⟩ := h.2.trans (owner_of_deeper hops (by simp))
  rw [place_of_deeper hops, ← literalChild_folder q n, howner]
  rfl

/-- The children in a listing that the draft does not pass for. -/
def othersOf (p : EntryPath) (found : List EntryPath) : List EntryPath := found.filter fun c => ¬ PassesFor p c

/-- A draft passes for no other child. -/
theorem passesFor_of_draft {p q : EntryPath} (hp : p.Canonical) (hq : q.Canonical) {name n : Text}
    (hbase : childBase? name = some n) (hdraft : name :: q.place.children = p.place.staging) :
    PassesFor p (q.literalChild n) := by
  obtain ⟨rfl, hfolder⟩ := List.cons.inj hdraft
  have hnamed : IsNamedMetadata p := by
    by_contra h
    exact Option.some_ne_none n (hbase.symm.trans (childBase?_staging h))
  refine ⟨hnamed, ?_⟩
  obtain ⟨k, m, above, hops⟩ := hnamed.exists_child
  have howner : (⟨.child m :: above⟩ : EntryPath).Canonical := hp.suffix (hops ▸ suffix_deeper (k + 1) _)
  have hplace := place_of_deeper hops
  have hstem : p.place.stem ++ Facet.staging.ending = m ++ ['.'] ++ (metaText (k + 1) ++ Facet.staging.ending) := by
    rw [hplace, placeOf, List.append_assoc]
  obtain rfl : m = n := by
    have hm := childBase?_facet (f := .staging) howner.1 (Or.inl (Nat.succ_ne_zero k))
    rw [← hstem] at hm
    exact Option.some.inj (hm.symm.trans hbase)
  have hplaces : (q.literalChild m).place.folder = (placeOf above).children := by
    rw [literalChild_folder, hfolder, hplace, placeOf]
  rw [owner_of_deeper hops (by simp)]
  refine EntryPath.ext (facet_inj (f := .data) (g := .data) (hq.literalChild howner.1) howner ?_).1
  exact List.cons_eq_cons.mpr ⟨rfl, hplaces⟩

/-- The second store has a draft of an entry in addition, and perhaps new directories on the way to it. -/
structure Abandoned (p : EntryPath) (t t' : FileTree) : Prop extends Shadow t t' where
  canonical : p.Canonical
  restored : Restored p t t'
  draft : t.sight p.place.staging ≠ none → t'.sight p.place.staging ≠ none

namespace Abandoned
variable {t t' : FileTree} {p q : EntryPath}

theorem of_restored (ht : Sound t) (ht' : Sound t') (hroot : t'.root = t.root) (hp : p.Canonical)
    (h : Restored p t t') (hdraft : t.sight p.place.staging ≠ none → t'.sight p.place.staging ≠ none) :
    Abandoned p t t' := by
  refine ⟨⟨ht, ht', hroot, fun l hl => ?_⟩, hp, h, hdraft⟩
  refine (h.sight l ?_).imp_right And.right
  rintro rfl
  exact hl ⟨p, hp, rfl⟩

theorem made_on_way (h : Abandoned p t t') {l : Location} (hl : Made t t' l) : l <:+ p.place.folder := by
  obtain ⟨hnone, hmade⟩ := hl
  have hne : l ≠ p.place.staging := by
    rintro rfl
    exact h.after.no_directory (f := .staging) h.canonical (by simp) (sight_eq_directory.mp hmade)
  rcases h.restored.sight l hne with hsame | ⟨hway, -, -⟩
  · rw [hsame, hnone] at hmade
    cases hmade
  · exact hway

theorem not_made_of_folder (h : Abandoned p t t') (hfolder : t.sight p.place.folder = some .directory)
    (l : Location) : ¬ Made t t' l := by
  intro hl
  have hdir := h.before.tree.directory_above (h.made_on_way hl) hfolder
  rw [hl.1] at hdir
  cases hdir

/-- A name that tells of a child is that of a new directory, or it is the draft that passes for the child. -/
theorem sight_listed (h : Abandoned p t t') (hq : q.Canonical) {name n : Text} (hname : childBase? name = some n)
    (hothers : ¬ PassesFor p (q.literalChild n)) :
    t'.sight (name :: q.place.children) = t.sight (name :: q.place.children) ∨ Made t t' (name :: q.place.children) :=
  (h.restored.sight _ fun hdraft => hothers (passesFor_of_draft h.canonical hq hname hdraft)).imp_right And.right

/-- No child is lost. -/
theorem mem_children_of_mem (h : Abandoned p t t') {found found' : List EntryPath}
    (hfound : Store.children t q = .ok found) (hfound' : Store.children t' q = .ok found') {c : EntryPath}
    (hc : c ∈ found) : c ∈ found' := by
  obtain ⟨name, n, hthere, hbase, rfl⟩ := (mem_children_iff h.before.tree hfound).mp hc
  refine (mem_children_iff h.after.tree hfound').mpr ⟨name, n, ?_, hbase, rfl⟩
  by_cases hdraft : name :: q.place.children = p.place.staging
  · exact hdraft ▸ h.draft (hdraft ▸ hthere)
  · rcases h.restored.sight _ hdraft with hsame | ⟨-, hnone, -⟩
    · rwa [hsame]
    · exact absurd hnone hthere

theorem mem_children (h : Abandoned p t t') (hq : q.Canonical) {found found' : List EntryPath}
    (hfound : Store.children t q = .ok found) (hfound' : Store.children t' q = .ok found') {c : EntryPath}
    (hothers : ¬ PassesFor p c) : c ∈ found' ↔ c ∈ found ∨
      ∃ name n, Made t t' (name :: q.place.children) ∧ childBase? name = some n ∧ c = q.literalChild n := by
  rw [mem_children_iff h.before.tree hfound, mem_children_iff h.after.tree hfound']
  constructor
  · rintro ⟨name, n, hthere, hbase, rfl⟩
    rcases h.sight_listed hq hbase hothers with hsame | hmade
    · exact Or.inl ⟨name, n, hsame ▸ hthere, hbase, rfl⟩
    · exact Or.inr ⟨name, n, hmade, hbase, rfl⟩
  · rintro (⟨name, n, hthere, hbase, rfl⟩ | ⟨name, n, hmade, hbase, rfl⟩)
    · refine ⟨name, n, ?_, hbase, rfl⟩
      rcases h.sight_listed hq hbase hothers with hsame | hmade
      · rwa [hsame]
      · exact absurd hmade.1 hthere
    · exact ⟨name, n, by simp [hmade.2], hbase, rfl⟩

/-- The names in a folder without new directories tell of the same children, but for the one that the draft passes
for. -/
theorem listed_others (h : Abandoned p t t') (hq : q.Canonical)
    (hnew : ∀ name, childBase? name ≠ none → ¬ Made t t' (name :: q.place.children)) (keep : Text → Bool)
    (hkeep : ∀ n, keep n = true → ¬ PassesFor p (q.literalChild n)) :
    (sorted ((t'.namesIn q.place.children).filterMap childBase?)).filter keep =
      (sorted ((t.namesIn q.place.children).filterMap childBase?)).filter keep := by
  refine filter_sorted_congr keep fun n hn => ?_
  simp only [List.mem_filterMap, mem_namesIn_iff]
  refine exists_congr fun name => and_congr_left fun hname => not_congr ?_
  have hold := hnew name (by simp [hname])
  rw [(h.sight_listed hq hname (hkeep n hn)).resolve_right hold]

/-- A folder without new directories is listed as before, but for the child that the draft passes for. -/
theorem children_others (h : Abandoned p t t') (hq : q.Canonical) (hsteady : Steady t t' q.place.children)
    (hnew : ∀ name, childBase? name ≠ none → ¬ Made t t' (name :: q.place.children)) :
    (Store.children t' q).map (othersOf p) = (Store.children t q).map (othersOf p) := by
  have hnames := h.listed_others hq hnew (fun n => ¬ PassesFor p (q.literalChild n)) fun n hn => of_decide_eq_true hn
  have hlisted : ∀ names : List Text, othersOf p (names.map q.literalChild) =
      (names.filter fun n => ¬ PassesFor p (q.literalChild n)).map q.literalChild := fun _ => List.filter_map
  rw [Store.children, Store.children, list_eq_look, list_eq_look, h.root]
  rcases h.lookFolder_children hq hsteady with hsame | ⟨hnone, hmade⟩
  · rw [hsame]
    cases t.lookFolder q.place.children with
    | error e => rfl
    | ok s =>
      cases s with
      | file content => rfl
      | directory => simp only [Except.map, hlisted, hnames]
  · have hunlisted : t.isFolder q.place.children = false := by rw [isFolder_eq_look, hnone]
    rw [h.before.tree.namesIn_unlisted hunlisted] at hnames
    rw [hnone, hmade]
    simp only [Except.map, hlisted, hnames]
    rfl

/-- Where no listing shows the draft, it is as before. -/
theorem children_elsewhere (h : Abandoned p t t') (hq : q.Canonical) (hsteady : Steady t t' q.place.children)
    (hnew : ∀ name, childBase? name ≠ none → ¬ Made t t' (name :: q.place.children))
    (hfolder : ¬ (IsNamedMetadata p ∧ q.place.children = p.place.folder)) :
    Store.children t' q = Store.children t q := by
  have hall : ∀ t : FileTree, (Store.children t q).map (othersOf p) = Store.children t q := by
    intro t
    cases hfound : Store.children t q with
    | error e => rfl
    | ok found =>
      refine congrArg Except.ok (List.filter_eq_self.mpr fun c hc => decide_eq_true fun hpasses => ?_)
      obtain ⟨n, rfl⟩ := Store.mem_children hfound hc
      exact hfolder ⟨hpasses.1, hpasses.folder⟩
  rw [← hall t', h.children_others hq hsteady hnew, hall t]

end Abandoned

/-! ## What readers see -/

/-- Two stores have the same contents, and where new directories make no difference on the way the same failures
to read them. -/
structure SameContents (t t' : FileTree) : Prop where
  hasData : ∀ q, Reachable q → Store.hasData t' q = Store.hasData t q
  content : ∀ q content, Reachable q → (Store.read t' q = .ok content ↔ Store.read t q = .ok content)
  read : ∀ q, Reachable q → Steady t t' q.place.data → Store.read t' q = Store.read t q

/-- Two stores list the same children, but for those that have a new directory, and but for the one that the draft of an
entry passes for. -/
structure SameListings (p : EntryPath) (t t' : FileTree) : Prop where
  failed : ∀ q e, Reachable q → Steady t t' q.place.children →
    (Store.children t' q = .error e ↔ Store.children t q = .error e)
  kept : ∀ q found found' c, Store.children t q = .ok found → Store.children t' q = .ok found' → c ∈ found → c ∈ found'
  gained : ∀ q found found' c, Reachable q → Store.children t q = .ok found → Store.children t' q = .ok found' →
    ¬ PassesFor p c → (c ∈ found' ↔ c ∈ found ∨
      ∃ name n, Made t t' (name :: q.place.children) ∧ childBase? name = some n ∧ c = q.literalChild n)
  others : ∀ q, Reachable q → Steady t t' q.place.children →
    (∀ name, childBase? name ≠ none → ¬ Made t t' (name :: q.place.children)) →
    (Store.children t' q).map (othersOf p) = (Store.children t q).map (othersOf p)
  elsewhere : ∀ q, Reachable q → Steady t t' q.place.children →
    (∀ name, childBase? name ≠ none → ¬ Made t t' (name :: q.place.children)) →
    ¬ (IsNamedMetadata p ∧ q.place.children = p.place.folder) → Store.children t' q = Store.children t q

theorem Shadow.sameContents {t t' : FileTree} (h : Shadow t t') : SameContents t t' where
  hasData _ hq := h.hasData hq.canonical
  content _ content hq := h.read_ok hq.canonical content
  read _ hq := h.read hq.canonical

theorem Abandoned.sameListings {t t' : FileTree} {p : EntryPath} (h : Abandoned p t t') : SameListings p t t' where
  failed _ e hq hsteady := h.children_error hq.canonical hsteady e
  kept _ _ _ _ hfound hfound' hc := h.mem_children_of_mem hfound hfound' hc
  gained _ _ _ _ hq hfound hfound' hothers := h.mem_children hq.canonical hfound hfound' hothers
  others _ hq := h.children_others hq.canonical
  elsewhere _ hq := h.children_elsewhere hq.canonical

/-- A new content that is given up leaves a draft, and the directories that were made for it. -/
theorem abandoned {t : FileTree} (ht : Sound t) {p : EntryPath} (hp : p.Canonical) (chunks : List Bytes) :
    Abandoned p t ((Change.abandon p chunks).run.run.run t).2 := by
  obtain ⟨t₁, ht₁, hgrown, h⟩ := ht.create hp
  have hfolder : ∀ l, t₁.sight l = t.sight l ∨ l <:+ p.place.folder ∧ t.sight l = none ∧ t₁.sight l = some .directory :=
    fun l => (hgrown.sight l).imp_right fun h => ⟨h.2.2, h.1, h.2.1⟩
  rw [run_abandon]
  rcases h with ⟨-, -, h, t₂, hrun, ht₂, ho⟩ | ⟨-, e, -, hrun⟩
  · have hdraft : Draft t₂ ⟨p, h⟩ [] := ⟨by rw [ho.node, if_pos rfl], by rw [ho.content, if_pos rfl], ho.start⟩
    obtain ⟨ht', hwritten, hsight⟩ := draft_appendAll ht₂ hdraft chunks
    have hroot : (appendAll ⟨p, h⟩ t₂ chunks).2.root = t.root :=
      (appendAll_root _ _ _).trans (ho.root.trans hgrown.root)
    rw [hrun]
    refine .of_restored ht ht' hroot hp ⟨fun l hl => ?_⟩ fun _ hnone => ?_
    · simp only [hsight l hl, ho.sight ht₁.tree, if_neg hl]
      exact hfolder l
    · have hfile := hwritten.file
      rw [appendAll_entry, sight_eq_none.mp hnone] at hfile
      cases hfile
  · rw [hrun]
    refine .of_restored ht ht₁ hgrown.root hp ⟨fun l _ => hfolder l⟩ fun hthere => ?_
    rwa [(hfolder p.place.staging).resolve_right fun h => hthere h.2.1]

end EntryServer.Store
