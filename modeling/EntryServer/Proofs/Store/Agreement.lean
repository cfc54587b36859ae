import EntryServer.Proofs.Store.Abandonment

/-! # Stores with the same contents

Stores may hold the same contents while they differ in empty directories and in drafts. No change makes the contents
different then: what it does to them depends on nothing else, and so does whether it succeeds, except that the
deletion of a name that is too long is refused only where there is a directory to look it up in. -/
namespace EntryServer.Store
set_option autoImplicit false
open EntryPath FileTree

/-! ## What a change comes to -/

namespace Change

/-- The locations that a change may write to. -/
def Writes : Change → Location → Prop
  | write p _ | replace p _ | abandon p _ => Written p
  | delete _ | deleteAll _ => fun _ => False

/-- The locations where a change that succeeds leaves nothing. -/
def Clears : Change → Location → Prop
  | write _ _ | replace _ _ | abandon _ _ => fun _ => False
  | delete p => (· = p.place.data)
  | deleteAll p => Removed p

/-- Whether it succeeds depends on its path alone. -/
def Settled : Change → Prop
  | write _ _ | replace _ _ | abandon _ _ => True
  | delete p | deleteAll p => NamesFit p.place.data

end Change

/-- What is known of a change that has succeeded. -/
structure Succeeded (c : Change) (t t' : FileTree) : Prop where
  fits : c.Settled → t.Fits c.location
  content : ∀ q, q.Canonical → content? t' q = c.apply (content? t) q
  cleared : ∀ l, c.Clears l → t'.sight l = none
  kept : ∀ l, ¬ c.Writes l → ¬ c.Clears l → t'.sight l = t.sight l

/-- What is known of a change that has failed. -/
structure Failed (c : Change) (e : StoreError) (t t' : FileTree) : Prop where
  unfit : ¬ t.Fits c.location
  found : e.isNotFound = false
  content : ∀ q, q.Canonical → content? t' q = content? t q
  kept : ∀ l, ¬ c.Writes l → t'.sight l = t.sight l

section Outcomes
variable {t : FileTree} {p : EntryPath}

theorem fits_of_names {l : Location} (hnames : NamesFit l) (h : Accessible t l) : t.Fits l := by
  obtain ⟨hnul, hpath, -⟩ := accessible_iff.mp h
  refine ⟨fun name hname hc => ?_, hpath, hnames⟩
  have hfree := List.any_eq_false.mp hnul name hname
  exact hfree (by simpa using hc)

theorem run_replace_outcome (ht : Sound t) (hp : p.Canonical) (chunks : List Bytes) :
    ∃ r t', (Change.replace p chunks).run.run.run t = (r, t') ∧ Sound t' ∧ t'.root = t.root ∧ match r with
      | .ok () => Succeeded (.replace p chunks) t t'
      | .error e => Failed (.replace p chunks) e t t' := by
  obtain ⟨t₁, ht₁, hgrown, hcases⟩ := ht.create hp
  obtain ⟨r, t₂, hrun, ht₂, hroot, hframe, hr⟩ := run_create_frame ht hp
  cases r with
  | error e =>
    obtain ⟨hunfit, hfound⟩ := hr
    rcases hcases with ⟨hfits, -⟩ | ⟨-, e', -, hrun'⟩
    · exact absurd hfits hunfit
    · obtain ⟨-, rfl⟩ := Prod.mk.inj (hrun'.symm.trans hrun)
      refine ⟨.error e, t₁, by rw [run_replace, hrun], ht₁, hroot, hunfit, hfound, fun q _ => ?_, hframe⟩
      exact content?_grown hgrown q
  | ok w =>
    obtain ⟨hfits, rfl, hdraft⟩ := hr
    obtain ⟨t', hcommit, ht', hroot', hframe'⟩ := run_commit_frame ht₂ hp hdraft chunks
    obtain ⟨t'', hrun', -, -, hcontent⟩ := run_replace_refines ht hp hfits chunks
    rw [run_replace, hrun] at hrun'
    obtain ⟨-, rfl⟩ := Prod.mk.inj (hcommit.symm.trans hrun')
    refine ⟨.ok (), t', by rw [run_replace, hrun]; exact hcommit, ht', hroot'.trans hroot, fun _ => hfits, hcontent,
      fun l hl => hl.elim, fun l hl _ => ?_⟩
    rw [hframe' l hl, hframe l hl]

theorem run_abandon_outcome (ht : Sound t) (hp : p.Canonical) (chunks : List Bytes) :
    ∃ r t', (Change.abandon p chunks).run.run.run t = (r, t') ∧ Sound t' ∧ t'.root = t.root ∧ match r with
      | .ok () => Succeeded (.abandon p chunks) t t'
      | .error e => Failed (.abandon p chunks) e t t' := by
  have hshadow := (abandoned ht hp chunks).toShadow
  obtain ⟨r, t₁, hrun, ht₁, hroot, hframe, hr⟩ := run_create_frame ht hp
  rw [run_abandon, hrun] at hshadow ⊢
  cases r with
  | error e =>
    obtain ⟨hunfit, hfound⟩ := hr
    exact ⟨_, _, rfl, ht₁, hroot, hunfit, hfound, fun q hq => hshadow.content hq, hframe⟩
  | ok w =>
    obtain ⟨hfits, rfl, hdraft⟩ := hr
    obtain ⟨ht', -, hframe'⟩ := appendAll_frame ht₁ hdraft chunks
    refine ⟨_, _, rfl, ht', (appendAll_root w t₁ chunks).trans hroot, fun _ => hfits, fun q hq => hshadow.content hq,
      fun l hl => hl.elim, fun l hl _ => ?_⟩
    rw [hframe' l hl, hframe l hl]

theorem run_delete_outcome (ht : Sound t) (hp : p.Canonical) :
    ∃ r t', (Change.delete p).run.run.run t = (r, t') ∧ Sound t' ∧ t'.root = t.root ∧ match r with
      | .ok () => Succeeded (.delete p) t t'
      | .error e => Failed (.delete p) e t t' := by
  rcases ht.delete hp with ⟨hdata, t', hrun, ht', hcut⟩ | ⟨e, he, hslot, hrun⟩
  · exact ⟨.ok (), t', hrun, ht', hcut.root, fun hnames => fits_of_names hnames hdata,
      fun q hq => content?_deleted hp hq hcut, fun l hl => hcut.sight_gone hl, fun l _ hl => hcut.sight_kept hl⟩
  · exact ⟨.error _, t, hrun, ht, rfl, fun hfits => he (ht.missing_of_fits hp hfits hslot),
      StoreError.isNotFound_ofFile _ he, fun _ _ => rfl, fun _ _ => rfl⟩

theorem run_deleteAll_outcome (ht : Sound t) (hp : p.Canonical) :
    ∃ r t', (Change.deleteAll p).run.run.run t = (r, t') ∧ Sound t' ∧ t'.root = t.root ∧ match r with
      | .ok () => Succeeded (.deleteAll p) t t'
      | .error e => Failed (.deleteAll p) e t t' := by
  rcases ht.deleteAll hp with ⟨hdata, t', hrun, ht', hcut⟩ | ⟨e, he, hslot, hrun⟩
  · exact ⟨.ok (), t', hrun, ht', hcut.root, fun hnames => fits_of_names hnames hdata,
      fun q hq => content?_removed hp hq hcut, fun l hl => hcut.sight_gone hl, fun l _ hl => hcut.sight_kept hl⟩
  · exact ⟨.error _, t, hrun, ht, rfl, fun hfits => he (ht.missing_of_fits hp hfits hslot),
      StoreError.isNotFound_ofFile _ he, fun _ _ => rfl, fun _ _ => rfl⟩

theorem Change.run_outcome (c : Change) (ht : Sound t) (hc : c.entry.Canonical) :
    ∃ r t', c.run.run.run t = (r, t') ∧ Sound t' ∧ t'.root = t.root ∧ match r with
      | .ok () => Succeeded c t t'
      | .error e => Failed c e t t' := by
  cases c with
  | write p bytes =>
    obtain ⟨r, t', hrun, ht', hroot, hr⟩ := run_replace_outcome ht hc [bytes]
    refine ⟨r, t', (run_write_eq_replace p bytes t).trans hrun, ht', hroot, ?_⟩
    cases r with
    | error e => exact ⟨hr.unfit, hr.found, hr.content, hr.kept⟩
    | ok u =>
      refine ⟨hr.fits, fun q hq => (hr.content q hq).trans ?_, hr.cleared, hr.kept⟩
      simp only [Change.apply, Change.entry, List.flatten_singleton]
  | replace p chunks => exact run_replace_outcome ht hc chunks
  | abandon p chunks => exact run_abandon_outcome ht hc chunks
  | delete p => exact run_delete_outcome ht hc
  | deleteAll p => exact run_deleteAll_outcome ht hc

/-- What is missing stays missing, as long as nothing is written there. -/
theorem sight_runAll_none (ht : Sound t) {l : Location} (hnone : t.sight l = none) {changes : List Change}
    (h : ∀ c ∈ changes, c.entry.Canonical ∧ ¬ c.Writes l) : ((runAll changes).run.run t).2.sight l = none := by
  induction changes generalizing t with
  | nil => exact hnone
  | cons c changes ih =>
    obtain ⟨hc, hout⟩ := h c (List.mem_cons_self ..)
    have hrest : ∀ d ∈ changes, d.entry.Canonical ∧ ¬ d.Writes l := fun d hd => h d (List.mem_cons_of_mem _ hd)
    obtain ⟨r, t', hrun, ht', -, hr⟩ := c.run_outcome ht hc
    rw [run_runAll_cons, hrun]
    cases r with
    | error e => exact (hr.kept l hout).trans hnone
    | ok u =>
      refine ih ht' ?_ hrest
      by_cases hclears : c.Clears l
      · exact hr.cleared l hclears
      · exact (hr.kept l hout hclears).trans hnone

end Outcomes

/-! ## Two stores -/

/-- Two stores hold the same contents, and see the same at some of the locations. -/
structure Agree (at_ : Location → Prop) (t t' : FileTree) : Prop where
  before : Sound t
  after : Sound t'
  root : t'.root = t.root
  content : ∀ q, q.Canonical → content? t' q = content? t q
  sight : ∀ l, at_ l → t'.sight l = t.sight l

namespace Agree
variable {at_ : Location → Prop} {t t' : FileTree} {q : EntryPath}

theorem refl (ht : Sound t) : Agree at_ t t := ⟨ht, ht, rfl, fun _ _ => rfl, fun _ _ => rfl⟩

theorem fits_iff (h : Agree at_ t t') (l : Location) : t'.Fits l ↔ t.Fits l :=
  ⟨fun hf => hf.congr t h.root.symm, fun hf => hf.congr t' h.root⟩

theorem sight_data (h : Agree at_ t t') (hq : q.Canonical) : t'.sight q.place.data = t.sight q.place.data := by
  have hcontent := h.content q hq
  cases hc : content? t q with
  | none =>
    rw [hc] at hcontent
    rw [sight_eq_none.mpr (h.before.content?_none hq hc), sight_eq_none.mpr (h.after.content?_none hq hcontent)]
  | some bytes =>
    rw [hc] at hcontent
    rw [sight_eq_file.mpr (content?_eq_some_iff.mp hc), sight_eq_file.mpr (content?_eq_some_iff.mp hcontent)]

theorem hasData (h : Agree at_ t t') (hq : q.Canonical) : Store.hasData t' q = Store.hasData t q :=
  hasData_eq h.before.tree h.after.tree (h.sight_data hq)

theorem read_ok (h : Agree at_ t t') (hq : q.Canonical) (content : Bytes) :
    Store.read t' q = .ok content ↔ Store.read t q = .ok content := by
  rw [h.after.read_ok_iff, h.before.read_ok_iff, h.content q hq]

theorem read (h : Agree at_ t t') (hq : q.Canonical) (hnames : NamesFit q.place.data) :
    Store.read t' q = Store.read t q := by
  have hclear : t.Clear q.place.folder := h.before.clear_folder hq
  have hclear' : t'.Clear q.place.folder := h.after.clear_folder hq
  have hlook := look_congr_of_names h.before.tree h.after.tree h.root hclear hclear' hnames (h.sight_data hq)
  exact read_congr h.root hlook

/-! ### Changes -/

/-- A content that is given up makes no difference outside the way to it. -/
theorem abandon (ht : Sound t) {p : EntryPath} (hp : p.Canonical) (hout : ∀ l, at_ l → ¬ Written p l)
    (chunks : List Bytes) : Agree at_ t ((Change.abandon p chunks).run.run.run t).2 := by
  obtain ⟨r, t', hrun, ht', hroot, hr⟩ := (Change.abandon p chunks).run_outcome ht hp
  rw [hrun]
  cases r with
  | ok u => exact ⟨ht, ht', hroot, hr.content, fun l hl => hr.kept l (hout l hl) id⟩
  | error e => exact ⟨ht, ht', hroot, hr.content, fun l hl => hr.kept l (hout l hl)⟩

theorem change {c : Change} (h : Agree at_ t t') (hc : c.entry.Canonical) (hsettled : c.Settled)
    (hout : ∀ l, at_ l → ¬ c.Writes l) :
    ∃ r r' t₁ t₁', c.run.run.run t = (r, t₁) ∧ c.run.run.run t' = (r', t₁') ∧ Agree at_ t₁ t₁' ∧
      (r = .ok () ∧ r' = .ok () ∨
        ∃ e e', r = .error e ∧ r' = .error e' ∧ e.isNotFound = false ∧ e'.isNotFound = false) := by
  obtain ⟨r, t₁, hrun, ht₁, hroot, hr⟩ := c.run_outcome h.before hc
  obtain ⟨r', t₁', hrun', ht₁', hroot', hr'⟩ := c.run_outcome h.after hc
  have hroots : t₁'.root = t₁.root := (hroot'.trans h.root).trans hroot.symm
  refine ⟨r, r', t₁, t₁', hrun, hrun', ?_⟩
  cases r with
  | ok u =>
    cases r' with
    | error e => exact absurd ((h.fits_iff _).mpr (hr.fits hsettled)) hr'.unfit
    | ok u' =>
      refine ⟨⟨ht₁, ht₁', hroots, fun q hq => ?_, fun l hl => ?_⟩, Or.inl ⟨rfl, rfl⟩⟩
      · rw [hr.content q hq, hr'.content q hq]
        cases c <;> simp only [Change.apply, h.content q hq]
      · by_cases hclears : c.Clears l
        · rw [hr.cleared l hclears, hr'.cleared l hclears]
        · rw [hr.kept l (hout l hl) hclears, hr'.kept l (hout l hl) hclears, h.sight l hl]
  | error e =>
    cases r' with
    | ok u => exact absurd ((h.fits_iff _).mp (hr'.fits hsettled)) hr.unfit
    | error e' =>
      refine ⟨⟨ht₁, ht₁', hroots, fun q hq => ?_, fun l hl => ?_⟩, Or.inr ⟨e, e', rfl, rfl, hr.found, hr'.found⟩⟩
      · rw [hr.content q hq, hr'.content q hq, h.content q hq]
      · rw [hr.kept l (hout l hl), hr'.kept l (hout l hl), h.sight l hl]

theorem runAll (h : Agree at_ t t') {changes : List Change} (hchanges : ∀ c ∈ changes, c.entry.Canonical ∧ c.Settled ∧
    ∀ l, at_ l → ¬ c.Writes l) :
    Agree at_ ((Store.runAll changes).run.run t).2 ((Store.runAll changes).run.run t').2 := by
  induction changes generalizing t t' with
  | nil => exact h
  | cons c changes ih =>
    obtain ⟨hc, hsettled, hout⟩ := hchanges c (List.mem_cons_self ..)
    obtain ⟨r, r', t₁, t₁', hrun, hrun', hagree, hr⟩ := h.change hc hsettled hout
    rw [run_runAll_cons, run_runAll_cons, hrun, hrun']
    rcases hr with ⟨rfl, rfl⟩ | ⟨e, e', rfl, rfl, -, -⟩
    · exact ih hagree fun d hd => hchanges d (List.mem_cons_of_mem _ hd)
    · exact hagree

end Agree

end EntryServer.Store
