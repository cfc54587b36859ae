import EntryServer.Proofs.Store.Contents

/-! # The store as a map

One change after the other, each finished before the next begins, a store is a map from entries to contents.
Writing sets one entry, a new content that is never committed sets nothing, deleting an entry takes one, and
deleting all of it takes its branch. -/
namespace EntryServer.Store
set_option autoImplicit false
open EntryPath FileTree
open Http.Entry (appendAll)

inductive Change
  | write (p : EntryPath) (bytes : Bytes)
  /-- A new content in chunks, put into its place. -/
  | replace (p : EntryPath) (chunks : List Bytes)
  /-- A new content in chunks, given up before its commit. -/
  | abandon (p : EntryPath) (chunks : List Bytes)
  | delete (p : EntryPath)
  | deleteAll (p : EntryPath)
  deriving DecidableEq, Repr

namespace Change

def run : Change → StoreM Unit
  | write p bytes => Store.write p bytes
  | replace p chunks => do
    let w ← create p
    let (w, t) := appendAll w (← get) chunks
    set t
    w.commit
  | abandon p chunks => do
    let w ← create p
    set (appendAll w (← get) chunks).2
  | delete p => Store.delete p
  | deleteAll p => Store.deleteAll p

def entry : Change → EntryPath
  | write p _ | replace p _ | abandon p _ | delete p | deleteAll p => p

/-- The longest path that a change works on. -/
def location : Change → Location
  | write p _ | replace p _ | abandon p _ => p.place.staging
  | delete p | deleteAll p => p.place.data

/-- What a change does to the map of all contents. -/
def apply (m : EntryPath → Option Bytes) : Change → EntryPath → Option Bytes
  | write p bytes => fun q => if q = p then some bytes else m q
  | replace p chunks => fun q => if q = p then some chunks.flatten else m q
  | abandon _ _ => m
  | delete p => fun q => if q = p then none else m q
  | deleteAll p => fun q => if p.Covers q then none else m q

end Change

/-! ## One change -/

section Steps
variable {t : FileTree} {p : EntryPath}

theorem run_replace (p : EntryPath) (chunks : List Bytes) (t : FileTree) : (Change.replace p chunks).run.run.run t =
    match (create p).run.run t with
    | (.error e, t') => (.error e, t')
    | (.ok w, t') => (appendAll w t' chunks).1.commit.run.run (appendAll w t' chunks).2 := by
  simp only [Change.run, run_bind]
  cases (create p).run.run t with
  | mk r t' =>
    cases r with
    | error e => rfl
    | ok w => rfl

theorem run_abandon (p : EntryPath) (chunks : List Bytes) (t : FileTree) : (Change.abandon p chunks).run.run.run t =
    match (create p).run.run t with
    | (.error e, t') => (.error e, t')
    | (.ok w, t') => (.ok (), (appendAll w t' chunks).2) := by
  simp only [Change.run, run_bind]
  cases (create p).run.run t with
  | mk r t' =>
    cases r with
    | error e => rfl
    | ok w => rfl

theorem run_write_eq_replace (p : EntryPath) (bytes : Bytes) (t : FileTree) :
    (Change.write p bytes).run.run.run t = (Change.replace p [bytes]).run.run.run t := by
  rw [run_replace, Change.run, run_write]
  rfl

theorem run_replace_refines (ht : Sound t) (hp : p.Canonical) (hfits : t.Fits p.place.staging)
    (chunks : List Bytes) : ∃ t', (Change.replace p chunks).run.run.run t = (.ok (), t') ∧ t'.root = t.root ∧ Sound t' ∧
      ∀ q, q.Canonical → content? t' q = if q = p then some chunks.flatten else content? t q := by
  obtain ⟨w, t₁, hrun, rfl, hroot, ht₁, hdraft, hcontent⟩ := Sound.begin_draft ht hp hfits
  obtain ⟨hsound, hdraft', hsight⟩ := draft_appendAll ht₁ hdraft chunks
  have hentry := appendAll_entry w t₁ chunks
  obtain ⟨t', hrun', hroot', ht', hcontent', -⟩ := hdraft'.commit hsound (by rw [hentry]; exact hp)
  refine ⟨t', ?_, ?_, ht', fun q hq => ?_⟩
  · rw [run_replace, hrun]
    exact hrun'
  · rw [hroot', appendAll_root, hroot]
  · rw [hcontent' q hq, hentry, List.nil_append, ← hcontent q hq,
      content?_congr (hsight _ (data_ne_staging hp hq))]

theorem run_abandon_refines (ht : Sound t) (hp : p.Canonical) (hfits : t.Fits p.place.staging)
    (chunks : List Bytes) : ∃ t', (Change.abandon p chunks).run.run.run t = (.ok (), t') ∧ t'.root = t.root ∧ Sound t' ∧
      ∀ q, q.Canonical → content? t' q = content? t q := by
  obtain ⟨w, t₁, hrun, rfl, hroot, ht₁, hdraft, hcontent⟩ := Sound.begin_draft ht hp hfits
  obtain ⟨hsound, -, hsight⟩ := draft_appendAll ht₁ hdraft chunks
  refine ⟨_, ?_, ?_, hsound, fun q hq => ?_⟩
  · rw [run_abandon, hrun]
  · rw [appendAll_root, hroot]
  · rw [← hcontent q hq, content?_congr (hsight _ (data_ne_staging hp hq))]

theorem run_delete_refines (ht : Sound t) (hp : p.Canonical) (hfits : t.Fits p.place.data) :
    ∃ t', (Store.delete p).run.run t = (.ok (), t') ∧ t'.root = t.root ∧ Sound t' ∧
      ∀ q, q.Canonical → content? t' q = if q = p then none else content? t q := by
  rcases ht.delete hp with ⟨-, t', hrun, ht', hcut⟩ | ⟨e, he, hslot, -⟩
  · exact ⟨t', hrun, hcut.root, ht', fun q hq => content?_deleted hp hq hcut⟩
  · exact absurd (ht.missing_of_fits hp hfits hslot) he

theorem run_deleteAll_refines (ht : Sound t) (hp : p.Canonical) (hfits : t.Fits p.place.data) :
    ∃ t', (Store.deleteAll p).run.run t = (.ok (), t') ∧ t'.root = t.root ∧ Sound t' ∧
      ∀ q, q.Canonical → content? t' q = if p.Covers q then none else content? t q := by
  obtain ⟨t', hrun, ht', hcut⟩ := ht.deleteAll_of_fits hp hfits
  exact ⟨t', hrun, hcut.root, ht', fun q hq => content?_removed hp hq hcut⟩

/-- A change of a sound store succeeds where the system accepts its path, and does to the contents what it
does to the map. -/
theorem Change.run_refines (c : Change) (ht : Sound t) (hc : c.entry.Canonical) (hfits : t.Fits c.location)
    {m : EntryPath → Option Bytes} (hm : ∀ q, q.Canonical → content? t q = m q) :
    ∃ t', c.run.run.run t = (.ok (), t') ∧ t'.root = t.root ∧ Sound t' ∧
      ∀ q, q.Canonical → content? t' q = c.apply m q := by
  cases c with
  | write p bytes =>
    obtain ⟨t', hrun, hroot, ht', h⟩ := run_replace_refines ht hc hfits [bytes]
    refine ⟨t', (run_write_eq_replace p bytes t).trans hrun, hroot, ht', fun q hq => ?_⟩
    rw [h q hq, hm q hq, List.flatten_singleton]
    rfl
  | replace p chunks =>
    obtain ⟨t', hrun, hroot, ht', h⟩ := run_replace_refines ht hc hfits chunks
    exact ⟨t', hrun, hroot, ht', fun q hq => by rw [h q hq, hm q hq]; rfl⟩
  | abandon p chunks =>
    obtain ⟨t', hrun, hroot, ht', h⟩ := run_abandon_refines ht hc hfits chunks
    exact ⟨t', hrun, hroot, ht', fun q hq => by rw [h q hq, hm q hq]; rfl⟩
  | delete p =>
    obtain ⟨t', hrun, hroot, ht', h⟩ := run_delete_refines ht hc hfits
    exact ⟨t', hrun, hroot, ht', fun q hq => by rw [h q hq, hm q hq]; rfl⟩
  | deleteAll p =>
    obtain ⟨t', hrun, hroot, ht', h⟩ := run_deleteAll_refines ht hc hfits
    exact ⟨t', hrun, hroot, ht', fun q hq => by rw [h q hq, hm q hq]; rfl⟩

end Steps

/-! ## All changes -/

/-- Makes the changes in turn. The first that fails is the last. -/
def runAll : List Change → StoreM Unit
  | [] => return
  | c :: changes => do
    c.run
    runAll changes

/-- The map after the changes, which begins empty. -/
def mapAfter (changes : List Change) : EntryPath → Option Bytes := changes.foldl Change.apply fun _ => none

theorem run_runAll_cons (c : Change) (changes : List Change) (t : FileTree) :
    (runAll (c :: changes)).run.run t = match c.run.run.run t with
      | (.ok (), t') => (runAll changes).run.run t'
      | (.error e, t') => (.error e, t') := by
  rw [runAll, run_bind]
  cases c.run.run.run t with
  | mk r t' =>
    cases r with
    | ok u => rfl
    | error e => rfl

theorem runAll_refines (changes : List Change) {t : FileTree} (ht : Sound t)
    (h : ∀ c ∈ changes, c.entry.Canonical ∧ t.Fits c.location) {m : EntryPath → Option Bytes}
    (hm : ∀ q, q.Canonical → content? t q = m q) :
    ∃ t', (runAll changes).run.run t = (.ok (), t') ∧ t'.root = t.root ∧ Sound t' ∧
      ∀ q, q.Canonical → content? t' q = changes.foldl Change.apply m q := by
  induction changes generalizing t m with
  | nil => exact ⟨t, rfl, rfl, ht, hm⟩
  | cons c changes ih =>
    obtain ⟨hc, hfits⟩ := h c (List.mem_cons_self ..)
    obtain ⟨t₁, hrun, hroot, ht₁, hm₁⟩ := c.run_refines ht hc hfits hm
    have hrest : ∀ d ∈ changes, d.entry.Canonical ∧ t₁.Fits d.location := by
      intro d hd
      obtain ⟨hcd, hfd⟩ := h d (List.mem_cons_of_mem _ hd)
      exact ⟨hcd, hfd.congr t₁ hroot⟩
    obtain ⟨t', hrun', hroot', ht', hm'⟩ := ih ht₁ hrest hm₁
    refine ⟨t', ?_, hroot'.trans hroot, ht', hm'⟩
    rw [run_runAll_cons, hrun]
    exact hrun'

/-- From an empty directory, changes of entries whose paths the system accepts all succeed, and afterwards
the store holds what the map holds. -/
theorem store_refines_map (root : Text) (changes : List Change)
    (h : ∀ c ∈ changes, Reachable c.entry ∧ (FileTree.empty root).Fits c.location) :
    ∃ t, (runAll changes).run.run (FileTree.empty root) = (.ok (), t) ∧ ∀ x, Reachable x →
      (hasData t x = true ↔ ∃ b, mapAfter changes x = some b) ∧
      (∀ b, read t x = .ok b ↔ mapAfter changes x = some b) ∧
      (t.Fits x.place.data → mapAfter changes x = none → read t x = .error (.notFound (x.dataText root))) := by
  have hcanonical : ∀ c ∈ changes, c.entry.Canonical ∧ (FileTree.empty root).Fits c.location := by
    intro c hc
    obtain ⟨hr, hf⟩ := h c hc
    exact ⟨hr.canonical, hf⟩
  obtain ⟨t, hrun, hroot, ht, hm⟩ := runAll_refines changes (Sound.empty root) hcanonical
    fun q _ => content?_empty root q
  refine ⟨t, hrun, fun x hx => ?_⟩
  have hx' : content? t x = mapAfter changes x := hm x hx.canonical
  refine ⟨?_, fun b => ?_, fun hfits hnone => ?_⟩
  · rw [ht.hasData_iff, hx']
  · rw [ht.read_ok_iff, hx']
  · have hr : t.root = root := hroot
    rw [ht.read_missing hx.canonical hfits (hx'.trans hnone), hr]

/-- A page outlives what is never committed and the removal of another page whose name begins with its own. -/
theorem store_refines_map_page :
    let page := EntryPath.root.child "page".toList
    let changes := [.write page [118], .abandon page [[1], [2]],
      .replace (EntryPath.root.child "page.dir".toList) [[3], [4]],
      .deleteAll (EntryPath.root.child "page.dir".toList)]
    ∃ t, (runAll changes).run.run (FileTree.empty "data/".toList) = (.ok (), t) ∧ read t page = .ok [118] := by
  obtain ⟨t, hrun, h⟩ := store_refines_map "data/".toList
    [.write (EntryPath.root.child "page".toList) [118], .abandon (EntryPath.root.child "page".toList) [[1], [2]],
      .replace (EntryPath.root.child "page.dir".toList) [[3], [4]],
      .deleteAll (EntryPath.root.child "page.dir".toList)]
    (by simp only [reachable_iff_canonical]; decide)
  exact ⟨t, hrun, ((h (EntryPath.root.child "page".toList) (Reachable.root.child _)).2.1 [118]).mpr (by decide)⟩

/-! ## Long paths -/

def deepEntry : EntryPath := ⟨.child ['x'] :: List.replicate 25 (.child (List.replicate 200 'n'))⟩

/-- The length of every name is not enough: the system does not accept a path of 4096 bytes. -/
theorem write_fails_where_path_is_long : Reachable deepEntry ∧
    (∀ name ∈ deepEntry.place.staging, '\x00' ∉ name ∧ Utf8.size name ≤ nameLimit) ∧
    ∃ e t, (runAll [.write deepEntry [118]]).run.run (FileTree.empty "data/".toList) = (.error e, t) := by
  have hcanonical : deepEntry.Canonical := by decide +kernel
  have hunfit : ¬ (FileTree.empty "data/".toList).Fits deepEntry.place.staging := by decide +kernel
  refine ⟨reachable_iff_canonical.mpr hcanonical, by decide +kernel, ?_⟩
  obtain ⟨t₁, -, -, ⟨hfits, -⟩ | ⟨-, e, -, hrun⟩⟩ := (Sound.empty "data/".toList).create hcanonical
  · exact absurd hfits hunfit
  · refine ⟨e, t₁, ?_⟩
    rw [run_runAll_cons, run_write_eq_replace, run_replace, hrun]

end EntryServer.Store
