import EntryServer.Proofs.Files.Operations
import EntryServer.Proofs.Store.Removal

/-! # What operations on a store change

A store that only these operations have changed holds facets of entries and nothing else, and the folders of
children are its only directories. In such a store every operation succeeds where the system accepts the
paths of the entry, and what it changes is said here once. -/
namespace EntryServer.Store
set_option autoImplicit false
open EntryPath FileTree

/-! ## Runs -/

theorem run_bind {ε α β : Type} (a : ExceptT ε (StateM FileTree) α) (f : α → ExceptT ε (StateM FileTree) β)
    (t : FileTree) : (a >>= f).run.run t = match a.run.run t with
      | (.ok x, t') => (f x).run.run t'
      | (.error e, t') => (.error e, t') := by
  simp only [ExceptT.run_bind, StateT.run_bind]
  cases h : a.run.run t with
  | mk r t' =>
    cases r with
    | ok x => rfl
    | error e => rfl

theorem run_get (t : FileTree) : (get : StoreM FileTree).run.run t = (.ok t, t) := rfl

theorem run_set (t t' : FileTree) : (set t' : StoreM PUnit).run.run t = (.ok (), t') := rfl

theorem run_create (p : EntryPath) (t : FileTree) : (create p).run.run t =
    match t.makeDirectories p.place.folder with
    | (.error e, t') => (.error (.ofFile (folderOf (p.stagingText t.root)) e), t')
    | (.ok (), t') =>
      match t'.create p.place.staging with
      | .error e => (.error (.ofFile (p.stagingText t.root) e), t')
      | .ok (h, t'') => (.ok ⟨p, h⟩, t'') := by
  simp only [create, run_bind, run_get]
  cases t.makeDirectories p.place.folder with
  | mk r t' =>
    cases r with
    | error e => rfl
    | ok u =>
      simp only [run_bind, run_set]
      cases t'.create p.place.staging with
      | error e => rfl
      | ok x => rfl

theorem run_commit (w : Writer) (t : FileTree) : w.commit.run.run t =
    match t.rename w.entry.place.staging w.entry.place.data with
    | .error e => (.error (.ofFile (w.entry.dataText t.root) e), t)
    | .ok t' => (.ok (), t') := by
  simp only [Writer.commit, run_bind, run_get]
  cases t.rename w.entry.place.staging w.entry.place.data with
  | error e => rfl
  | ok t' => rfl

theorem run_write (p : EntryPath) (bytes : Bytes) (t : FileTree) : (write p bytes).run.run t =
    match (create p).run.run t with
    | (.error e, t') => (.error e, t')
    | (.ok w, t') => (w.append t' bytes).1.commit.run.run (w.append t' bytes).2 := by
  simp only [write, run_bind]
  cases (create p).run.run t with
  | mk r t' =>
    cases r with
    | error e => rfl
    | ok w => rfl

theorem run_removeBy (removal : FileTree → Except FileError FileTree) (path : Text) (t : FileTree) :
    (removeBy removal path).run.run t =
      match removal t with
      | .ok t' => (.ok (), t')
      | .error .notFound => (.ok (), t)
      | .error e => (.error (.ofFile path e), t) := by
  simp only [removeBy, run_bind, run_get]
  cases removal t with
  | ok t' => rfl
  | error e => cases e <;> rfl

theorem run_delete (p : EntryPath) (t : FileTree) : (delete p).run.run t =
    match t.unlink p.place.data with
    | .ok t' => (.ok (), t')
    | .error .notFound => (.ok (), t)
    | .error e => (.error (.ofFile (p.dataText t.root) e), t) := by
  simp only [delete, run_bind, run_get]
  exact run_removeBy _ _ t

theorem run_removeAny (path : Text) (l : Location) (t : FileTree) :
    (removeAny path l).run.run t =
      match t.remove l with
      | .ok t' => (.ok (), t')
      | .error .notFound => (.ok (), t)
      | .error e => (.error (.ofFile path e), t) := run_removeBy _ path t

theorem run_removeFolder (path : Text) (folder : Location) (t : FileTree) :
    (removeFolder path folder).run.run t =
      match t.removeFolder folder with
      | .ok t' => (.ok (), t')
      | .error .notFound => (.ok (), t)
      | .error e => (.error (.ofFile path e), t) := run_removeBy _ path t

theorem run_removeListed (folderText : Text) (folder : Location) (which : Text → Bool) (t : FileTree) :
    (removeListed folderText folder which).run.run t =
      match t.list folder with
      | .ok names => (removeAll folderText folder (names.filter which)).run.run t
      | .error .notFound => (.ok (), t)
      | .error e => (.error (.ofFile folderText e), t) := by
  simp only [removeListed, run_bind, run_get]
  cases t.list folder with
  | ok names => rfl
  | error e => cases e <;> rfl

theorem run_removeStrays (folderText : Text) (s : Stray) (rest : List Stray) (t : FileTree) :
    (removeStrays folderText (s :: rest)).run.run t =
      if pathLimit ≤ t.straySize s then (.error (.ofFile (folderText ++ Utf8.decodeLossy s.name) .nameTooLong), t)
      else (removeStrays folderText rest).run.run (t.eraseStray s) := by
  simp only [removeStrays, run_bind, run_get]
  split
  · rfl
  · rfl

theorem run_emptyFolder (folderText : Text) (folder : Location) (t : FileTree) :
    (emptyFolder folderText folder).run.run t =
      match (removeListed folderText folder fun _ => true).run.run t with
      | (.error e, t') => (.error e, t')
      | (.ok (), t') => (removeStrays folderText (t'.straysIn folder)).run.run t' := by
  simp only [emptyFolder, run_bind]
  cases (removeListed folderText folder fun _ => true).run.run t with
  | mk r t' =>
    cases r with
    | error e => rfl
    | ok u => rfl

/-! ## Sound stores -/

structure Sound (t : FileTree) : Prop where
  tree : t.Sound
  /-- Everything is a facet of an entry, and the folders of children are the directories. -/
  facets : ∀ {l n}, t.node? l = some n → l ≠ [] →
    ∃ hops f, CanonicalHops hops ∧ l = (placeOf hops).facet f ∧ (n = .directory ↔ f = .children)

theorem facet_ne_nil (hops : List Step) (f : Facet) : (placeOf hops).facet f ≠ [] := List.cons_ne_nil _ _

namespace Sound
variable {t t' : FileTree} {hops : List Step} {f : Facet}

theorem kind (ht : Sound t) (hc : CanonicalHops hops) {n : Node} (hn : t.node? ((placeOf hops).facet f) = some n) :
    n = .directory ↔ f = .children := by
  obtain ⟨a, g, ha, hl, hg⟩ := ht.facets hn (facet_ne_nil hops f)
  obtain ⟨-, rfl⟩ := facet_inj hc ha hl
  exact hg

theorem no_file (ht : Sound t) (hc : CanonicalHops hops) (i : Nat) :
    t.node? ((placeOf hops).facet .children) ≠ some (.file i) := by
  intro hn
  have h := (ht.kind hc hn).mpr rfl
  cases h

theorem no_directory (ht : Sound t) (hc : CanonicalHops hops) (hf : f ≠ .children) :
    t.node? ((placeOf hops).facet f) ≠ some .directory := fun hn => hf ((ht.kind hc hn).mp rfl)

theorem file_or_none (ht : Sound t) (hc : CanonicalHops hops) (hf : f ≠ .children) :
    t.node? ((placeOf hops).facet f) = none ∨ ∃ i, t.node? ((placeOf hops).facet f) = some (.file i) := by
  cases hn : t.node? ((placeOf hops).facet f) with
  | none => exact Or.inl rfl
  | some n =>
    cases n with
    | directory => exact absurd hn (ht.no_directory hc hf)
    | file i => exact Or.inr ⟨i, rfl⟩

theorem clear_folder (ht : Sound t) (hc : CanonicalHops hops) : t.Clear (placeOf hops).folder := by
  intro s hs i hn
  by_cases h0 : s = []
  · simp [h0] at hn
  · obtain ⟨a, ha, -, -, -, rfl⟩ := exists_of_suffix_folder hc hs h0
    exact ht.no_file ha i hn

theorem clear_children (ht : Sound t) (hc : CanonicalHops hops) : t.Clear (placeOf hops).children := by
  by_cases hstem : (placeOf hops).stem = []
  · rw [Place.children, if_pos hstem]
    exact ht.clear_folder hc
  · rw [Place.children_of_stem hstem]
    intro s hs i
    rcases List.suffix_cons_iff.mp hs with rfl | hs
    · exact ht.no_file hc i
    · exact ht.clear_folder hc s hs i

theorem empty (root : Text) : Sound (FileTree.empty root) := by
  refine ⟨sound_empty root, fun {l n} hn hl => ?_⟩
  simp [node?, hl, FileTree.empty] at hn

theorem grown (ht : Sound t) (hs : t'.Sound) (hc : CanonicalHops hops) (h : Grown t t' (placeOf hops).folder) :
    Sound t' := by
  refine ⟨hs, fun {l n} hn hl => ?_⟩
  rcases h.nodes l with h1 | ⟨-, h2, h3⟩
  · exact ht.facets (h1 ▸ hn) hl
  · obtain ⟨a, ha, -, -, -, rfl⟩ := exists_of_suffix_folder hc h3 hl
    obtain rfl : n = .directory := Option.some.inj (hn.symm.trans h2)
    exact ⟨a, .children, ha, rfl, by simp⟩

theorem opened (ht : Sound t) (hs : t'.Sound) (hc : CanonicalHops hops) (hf : f ≠ .children) {h : Handle}
    (ho : Opened t ((placeOf hops).facet f) h t') : Sound t' := by
  refine ⟨hs, fun {l n} hn hl => ?_⟩
  rw [ho.node] at hn
  split at hn
  · next heq =>
    cases hn
    exact ⟨hops, f, hc, heq, by simp [hf]⟩
  · exact ht.facets hn hl

theorem cut (ht : Sound t) {taken : Location → Prop} (ht' : t'.Rooted) (h : Cut t t' taken) : Sound t' :=
  ⟨h.sound ht.tree ht', fun hn hl => ht.facets (h.node?_of_some hn).2 hl⟩

theorem moved (ht : Sound t) (hs : t'.Sound) (hc : CanonicalHops hops) (hf : f ≠ .children) {source : Location}
    {i : Nat} (h : Moved t source ((placeOf hops).facet f) i t') : Sound t' := by
  refine ⟨hs, fun {l n} hn hl => ?_⟩
  rw [h.node] at hn
  split at hn
  · next heq =>
    cases hn
    exact ⟨hops, f, hc, heq, by simp [hf]⟩
  · split at hn
    · cases hn
    · exact ht.facets hn hl

theorem append (ht : Sound t) (w : Writer) (bytes : Bytes) : Sound (w.append t bytes).2 :=
  ⟨ht.tree.write w.handle bytes, ht.facets⟩

end Sound

/-! ## Writing -/

theorem fits_facet {t : FileTree} {at_ : Place} {f g : Facet} (h : t.Fits (at_.facet f))
    (hg : Utf8.size g.ending ≤ Utf8.size f.ending) : t.Fits (at_.facet g) := by
  have hstem : '\x00' ∉ at_.stem := fun hm => h.noNul _ (List.mem_cons_self ..) (List.mem_append_left _ hm)
  refine FileTree.Fits.shorter h ?_ ?_
  · simp only [Utf8.size_append]
    omega
  · rw [List.mem_append]
    rintro (hm | hm)
    · exact hstem hm
    · cases g <;> simp [Facet.ending, Facet.word] at hm

namespace Sound
variable {t t' : FileTree} {p : EntryPath}

/-- Beginning a new content succeeds exactly where the system accepts its path, and opens it empty. If it
fails, some directories on the way may have been made, and the failure is not that something is missing. -/
theorem create (ht : Sound t) (hp : p.Canonical) : ∃ t₁, Sound t₁ ∧ Grown t t₁ p.place.folder ∧
    ((t.Fits p.place.staging ∧ t₁.node? p.place.folder = some .directory ∧
        ∃ h t', (Store.create p).run.run t = (.ok ⟨p, h⟩, t') ∧ Sound t' ∧ Opened t₁ p.place.staging h t') ∨
      ¬ t.Fits p.place.staging ∧ ∃ e, e.isNotFound = false ∧ (Store.create p).run.run t = (.error e, t₁)) := by
  have hclear : t.Clear p.place.folder := ht.clear_folder hp
  rw [run_create]
  cases hmake : t.makeDirectories p.place.folder with
  | mk r t₁ =>
    obtain ⟨hsound, hgrown, hr⟩ := ht.tree.makeDirectories hclear hmake
    have ht₁ : Sound t₁ := ht.grown hsound hp hgrown
    refine ⟨t₁, ht₁, hgrown, ?_⟩
    cases r with
    | error e =>
      refine Or.inr ⟨fun hf => hr.1 (hf.suffix (List.suffix_cons ..)), _, ?_, rfl⟩
      rcases hr.2 with rfl | rfl
      · rfl
      · rfl
    | ok u =>
      have hspec := hsound.create (l := p.place.staging) (List.cons_ne_nil _ _)
      cases hopen : t₁.create p.place.staging with
      | ok x =>
        obtain ⟨h, t'⟩ := x
        rw [hopen] at hspec
        obtain ⟨hsound', ho⟩ := hspec
        have hfits : t'.Fits p.place.staging := by
          refine hsound'.fits (n := .file h.blob) ?_ (List.cons_ne_nil _ _)
          rw [ho.node, if_pos rfl]
        exact Or.inl ⟨hfits.congr t (hgrown.root.symm.trans ho.root.symm), hr, h, t', by simp only [hopen],
          ht₁.opened (f := .staging) hsound' hp (by simp) ho, ho⟩
      | error e =>
        rw [hopen] at hspec
        have hslot : t₁.slot p.place.staging = .error e :=
          hspec.resolve_right fun h => ht₁.no_directory (f := .staging) hp (by simp) h.2
        have hunfit : ¬ t₁.Fits p.place.staging := by
          intro hf
          rw [Place.staging, hsound.slot_in hr hf] at hslot
          cases hslot
        refine Or.inr ⟨fun hf => hunfit (hf.congr t₁ hgrown.root), .ofFile (p.stagingText t.root) e, ?_,
          by simp only [hopen]⟩
        rcases hsound.slot_unfit (hgrown.clear hclear) hunfit with hs | hs | ⟨-, hs⟩
        · obtain rfl := Except.error.inj (hslot.symm.trans hs)
          rfl
        · obtain rfl := Except.error.inj (hslot.symm.trans hs)
          rfl
        · exact absurd hr hs

/-- A new content takes the place of the old one. Without one there is nothing to put there. -/
theorem commit (ht : Sound t) (w : Writer) (hp : w.entry.Canonical) :
    (∃ i t', t.node? w.entry.place.staging = some (.file i) ∧ w.commit.run.run t = (.ok (), t') ∧ Sound t' ∧
        Moved t w.entry.place.staging w.entry.place.data i t') ∨
      t.node? w.entry.place.staging = none ∧ ∃ e, w.commit.run.run t = (.error e, t) := by
  have hne : ∀ f, w.entry.place.facet f ≠ [] := facet_ne_nil w.entry.hops
  rw [run_commit]
  rcases ht.file_or_none (f := .staging) hp (by simp) with hnone | ⟨i, hi⟩
  · refine Or.inr ⟨hnone, ?_⟩
    cases hrename : t.rename w.entry.place.staging w.entry.place.data with
    | error e => exact ⟨_, rfl⟩
    | ok t' =>
      exfalso
      unfold FileTree.rename at hrename
      cases hslot : t.slot w.entry.place.staging with
      | error e => simp [hslot] at hrename
      | ok there =>
        obtain rfl : there = none := (node?_of_slot hslot).symm.trans hnone
        rw [hslot] at hrename
        split at hrename <;> simp_all
  · have hslot := ht.tree.slot hi (hne .staging)
    have hfits := fits_facet (g := .data) (ht.tree.fits hi (hne .staging)) (by decide)
    have hdata := ht.tree.slot_in (folder_of_slot hslot) hfits
    have hdir := ht.no_directory (f := .data) hp (by simp)
    obtain ⟨t', (hrename : t.rename w.entry.place.staging w.entry.place.data = .ok t'), hmoved⟩ :=
      rename_file hslot hdata hdir (hne .staging) (hne .data)
    have hsound : t'.Sound := hmoved.sound ht.tree hi ⟨_, hdata, hdir⟩
    refine Or.inl ⟨i, t', hi, ?_, ht.moved (f := .data) hsound hp (by simp) hmoved, hmoved⟩
    rw [hrename]

end Sound

end EntryServer.Store
