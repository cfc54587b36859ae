import EntryServer.Proofs.Store.Contents
import Mathlib.Logic.Function.Basic

/-! # Several writers of one entry

All writers of an entry draft in one file, so beginning a draft empties the drafts of the others, and a commit
takes whatever that file holds. Here writers of one entry take their steps in any order. Which orders keep
commits atomic, whatever is written, is a matter of the order alone. -/
namespace EntryServer.Store
set_option autoImplicit false
open EntryPath FileTree

/-! ## Orders of steps -/

/-- A step of a writer. A writer is known by the number of the step that it began with. -/
inductive Action
  | create
  | append (k : Nat)
  | commit (k : Nat)
  /-- The writer is given up without a commit. -/
  | drop (k : Nat)
  deriving DecidableEq, Repr

structure Live where
  writer : Writer
  written : Bytes
  deriving DecidableEq, Repr

structure Session where
  files : FileTree
  live : Nat → Option Live
  /-- What the last successful commit was asked to publish. -/
  published : Option Bytes

/-- The step of a number, with the bytes that it writes if it writes any. A writer that is not in use does
nothing. -/
def Session.step (p : EntryPath) (n : Nat) (chunk : Bytes) (s : Session) : Action → Session
  | .create =>
    match (Store.create p).run.run s.files with
    | (.ok w, t) => { s with files := t, live := Function.update s.live n (some ⟨w, []⟩) }
    | (.error _, t) => { s with files := t }
  | .append k =>
    match s.live k with
    | none => s
    | some o =>
      let (w, t) := o.writer.append s.files chunk
      { s with files := t, live := Function.update s.live k (some ⟨w, o.written ++ chunk⟩) }
  | .commit k =>
    match s.live k with
    | none => s
    | some o =>
      match o.writer.commit.run.run s.files with
      | (.ok (), t) => ⟨t, Function.update s.live k none, some o.written⟩
      | (.error _, t) => { s with files := t, live := Function.update s.live k none }
  | .drop k => { s with live := Function.update s.live k none }

/-- Writers of an entry take these steps, the last one first. Each step has its own bytes to write. -/
def session (p : EntryPath) (t : FileTree) (chunks : Nat → Bytes) : List Action → Session
  | [] => ⟨t, fun _ => none, (read t p).toOption⟩
  | a :: earlier => (session p t chunks earlier).step p earlier.length (chunks earlier.length) a

/-- At every moment the entry reads as what the last successful commit was asked to publish, and before the
first one as it did at the start. -/
def Atomic (p : EntryPath) (t : FileTree) (chunks : Nat → Bytes) (actions : List Action) : Prop :=
  ∀ earlier, earlier <:+ actions →
    (read (session p t chunks earlier).files p).toOption = (session p t chunks earlier).published

/-! ## Disturbance -/

/-- The steps at which a writer wrote, and how many commits there were when it began. -/
structure Work where
  round : Nat
  steps : List Nat
  deriving DecidableEq, Repr

/-- An order of steps without the bytes. -/
structure Course where
  /-- How many commits there were. -/
  round : Nat
  /-- The steps that wrote to the file of the drafts since it was last emptied, if there is such a file. -/
  draft : Option (List Nat)
  live : Nat → Option Work

def Course.step (n : Nat) (c : Course) : Action → Course
  | .create => { c with draft := some [], live := Function.update c.live n (some ⟨c.round, []⟩) }
  | .append k =>
    match c.live k with
    | none => c
    | some work =>
      { c with
        draft := if work.round = c.round then c.draft.map (n :: ·) else c.draft
        live := Function.update c.live k (some ⟨work.round, n :: work.steps⟩) }
  | .commit k =>
    match c.live k, c.draft with
    | some _, some _ => ⟨c.round + 1, none, Function.update c.live k none⟩
    | _, _ => { c with live := Function.update c.live k none }
  | .drop k => { c with live := Function.update c.live k none }

def course : List Action → Course
  | [] => ⟨0, none, fun _ => none⟩
  | a :: earlier => (course earlier).step earlier.length a

/-- A commit has to find the writes of its own writer in the file of the drafts, all of them and no others, and
what the last commit has published must not be written to any more. -/
def Course.Admits (c : Course) : Action → Prop
  | .append k => ∀ work, c.live k = some work → work.round + 1 ≠ c.round
  | .commit k => ∀ work log, c.live k = some work → c.draft = some log → ∀ n, n ∈ log ↔ n ∈ work.steps
  | _ => True

def Undisturbed : List Action → Prop
  | [] => True
  | a :: earlier => Undisturbed earlier ∧ (course earlier).Admits a

/-- No writer begins while another one is in use. -/
def Alternating : List Action → Prop
  | [] => True
  | a :: earlier => Alternating earlier ∧ (a = .create → ∀ k, (course earlier).live k = none)

theorem Undisturbed.suffix {actions earlier : List Action} (h : Undisturbed actions) (hs : earlier <:+ actions) :
    Undisturbed earlier := by
  induction actions with
  | nil =>
    rw [List.suffix_nil.mp hs]
    trivial
  | cons a rest ih =>
    rcases List.suffix_cons_iff.mp hs with rfl | hs
    · exact h
    · exact ih h.1 hs

/-- At most one writer is in use, and the file of the drafts is its own. -/
def Course.Lone (c : Course) : Prop :=
  ∀ k work, c.live k = some work →
    work.round = c.round ∧ c.draft = some work.steps ∧ ∀ j, j ≠ k → c.live j = none

theorem Course.Lone.ended {c : Course} (h : c.Lone) (k : Nat) :
    Course.Lone { c with live := Function.update c.live k none } := by
  intro j work hj
  simp only [Function.update_apply] at hj
  split at hj
  · cases hj
  · obtain ⟨hround, hdraft, hothers⟩ := h j work hj
    exact ⟨hround, hdraft, fun i hi => by simp only [Function.update_apply, hothers i hi, ite_self]⟩

theorem Course.Lone.append {c : Course} (h : c.Lone) {k : Nat} {work : Work} (hk : c.live k = some work) (n : Nat) :
    (c.step n (.append k)).Lone := by
  obtain ⟨hround, hdraft, hothers⟩ := h k work hk
  simp only [Course.step, hk, if_pos hround, hdraft]
  intro j work' hj
  simp only at hj ⊢
  by_cases hjk : j = k
  · subst hjk
    rw [Function.update_self] at hj
    obtain rfl := Option.some.inj hj
    refine ⟨hround, rfl, fun i hi => ?_⟩
    rw [Function.update_of_ne hi, hothers i hi]
  · rw [Function.update_of_ne hjk, hothers j hjk] at hj
    cases hj

/-- A step keeps the writer in use alone, unless one begins while another one is in use. -/
theorem Course.Lone.step {c : Course} (h : c.Lone) {a : Action} (hcreate : a = .create → ∀ k, c.live k = none)
    (n : Nat) : (c.step n a).Lone := by
  cases a with
  | create =>
    intro k work hk
    simp only [Course.step, Function.update_apply] at hk ⊢
    split at hk
    · next hkn =>
      obtain rfl := Option.some.inj hk
      exact ⟨rfl, rfl, fun j hj => by rw [if_neg (hkn ▸ hj), hcreate rfl j]⟩
    · rw [hcreate rfl k] at hk
      cases hk
  | append k =>
    cases hk : c.live k with
    | none =>
      simp only [Course.step, hk]
      exact h
    | some work => exact h.append hk n
  | commit k =>
    simp only [Course.step]
    split
    · next work log hk hlog =>
      -- the writer that ends was the only one
      intro j work' hj
      obtain ⟨-, -, hothers⟩ := h k work hk
      simp only [Function.update_apply] at hj
      split at hj
      · cases hj
      · next hjk =>
        rw [hothers j hjk] at hj
        cases hj
    · exact h.ended k
  | drop k => exact h.ended k

theorem lone_of_alternating {actions : List Action} (h : Alternating actions) : (course actions).Lone := by
  induction actions with
  | nil =>
    intro k work hk
    cases hk
  | cons a earlier ih => exact (ih h.1).step h.2 earlier.length

theorem undisturbed_of_alternating {actions : List Action} (h : Alternating actions) : Undisturbed actions := by
  induction actions with
  | nil => trivial
  | cons a earlier ih =>
    have hlone := lone_of_alternating h.1
    refine ⟨ih h.1, ?_⟩
    cases a with
    | create => trivial
    | append k =>
      intro work hk
      have hround := (hlone k work hk).1
      omega
    | commit k =>
      intro work log hk hlog n
      rw [(hlone k work hk).2.1] at hlog
      rw [Option.some.inj hlog]
    | drop k => trivial

/-! ## What the files hold -/

/-- What is known of a writer in use, from the order of the steps. Its file is that of the drafts, the published
one or, after two commits, none that has a name. -/
structure Live.Matches (p : EntryPath) (t : FileTree) (chunks : Nat → Bytes) (n round : Nat)
    (draft : Option (List Nat)) (work : Work) (o : Live) : Prop where
  entry : o.writer.entry = p
  before : ∀ i ∈ work.steps, i < n
  empty_iff : o.written = [] ↔ ∀ i ∈ work.steps, chunks i = []
  offset : o.writer.handle.offset = o.written.length
  bounded : o.writer.handle.blob < t.blobs.size
  not_later : work.round ≤ round
  drafting : work.round = round → t.node? p.place.staging = some (.file o.writer.handle.blob)
  published : work.round + 1 = round → t.node? p.place.data = some (.file o.writer.handle.blob)
  nameless : work.round + 1 < round → ∀ l, t.node? l ≠ some (.file o.writer.handle.blob)
  /-- Its draft is in order if the file of the drafts holds its writes and no others. -/
  sole : ∀ log, draft = some log → (∀ i, i ∈ log ↔ i ∈ work.steps) →
    t.sight p.place.staging = some (.file o.written)

/-- What is known of a session before the step of a number, if no writer has disturbed another one. -/
structure Session.Matches (p : EntryPath) (root : Text) (chunks : Nat → Bytes) (n : Nat) (c : Course) (s : Session) :
    Prop where
  sound : Sound s.files
  root : s.files.root = root
  content : content? s.files p = s.published
  quiet : c.round ≠ 0 → (∀ i, i < n → chunks i = []) → s.published = some []
  draft : ∀ log, c.draft = some log → (∀ i ∈ log, i < n) ∧
    ∃ bytes, s.files.sight p.place.staging = some (.file bytes) ∧ (bytes = [] ↔ ∀ i ∈ log, chunks i = [])
  no_draft : c.draft = none → (∀ k, c.live k = none) ∨ s.files.node? p.place.staging = none
  idle : ∀ k, c.live k = none ↔ s.live k = none
  live : ∀ k work o, c.live k = some work → s.live k = some o → o.Matches p s.files chunks n c.round c.draft work

section Tables
variable {f : Nat → Option Work} {g : Nat → Option Live} {k : Nat}

theorem update_none_iff (h : ∀ j, f j = none ↔ g j = none) {a : Option Work} {b : Option Live}
    (hab : a = none ↔ b = none) (j : Nat) :
    Function.update f k a j = none ↔ Function.update g k b j = none := by
  simp only [Function.update_apply]
  split
  · exact hab
  · exact h j

/-- What holds of all writers in use holds after a change of one of them, if it holds of that one. -/
theorem update_forall {P : Work → Live → Prop} {work : Work} {o : Live} (hk : P work o)
    (h : ∀ j work' o', f j = some work' → g j = some o' → P work' o') (j : Nat) (work' : Work) (o' : Live)
    (hj : Function.update f k (some work) j = some work') (ho : Function.update g k (some o) j = some o') :
    P work' o' := by
  by_cases hjk : j = k
  · subst hjk
    rw [Function.update_self] at hj ho
    obtain rfl := Option.some.inj hj
    obtain rfl := Option.some.inj ho
    exact hk
  · rw [Function.update_of_ne hjk] at hj ho
    exact h j work' o' hj ho

end Tables

section Simulation
variable {p : EntryPath} {root : Text} {chunks : Nat → Bytes} {n : Nat} {c : Course} {s : Session}

theorem Sound.read_toOption {t : FileTree} (ht : Sound t) (p : EntryPath) : (read t p).toOption = content? t p := by
  cases hread : read t p with
  | ok content => exact (ht.read_ok_iff.mp hread).symm
  | error e =>
    cases hc : content? t p with
    | none => rfl
    | some content =>
      rw [ht.read_ok_iff.mpr hc] at hread
      cases hread

theorem Session.Matches.exists_live (h : s.Matches p root chunks n c) {k : Nat} {work : Work}
    (hk : c.live k = some work) : ∃ o, s.live k = some o ∧ o.Matches p s.files chunks n c.round c.draft work := by
  cases ho : s.live k with
  | none =>
    rw [(h.idle k).mpr ho] at hk
    cases hk
  | some o => exact ⟨o, rfl, h.live k work o hk ho⟩

/-- A writer goes on when another one takes a step that gives its file no name and takes none from it. -/
theorem Live.Matches.later {t t' : FileTree} {o : Live} {work : Work} {round m : Nat} {draft draft' : Option (List Nat)}
    (h : o.Matches p t chunks n round draft work) (hm : n ≤ m) (hsize : t.blobs.size ≤ t'.blobs.size)
    (hnode : ∀ l, t'.node? l = some (.file o.writer.handle.blob) ↔ t.node? l = some (.file o.writer.handle.blob))
    (hsole : ∀ log, draft' = some log → (∀ i, i ∈ log ↔ i ∈ work.steps) →
      t'.sight p.place.staging = some (.file o.written)) : o.Matches p t' chunks m round draft' work where
  entry := h.entry
  before i hi := Nat.lt_of_lt_of_le (h.before i hi) hm
  empty_iff := h.empty_iff
  offset := h.offset
  bounded := Nat.lt_of_lt_of_le h.bounded hsize
  not_later := h.not_later
  drafting hround := (hnode _).mpr (h.drafting hround)
  published hround := (hnode _).mpr (h.published hround)
  nameless hround l hl := h.nameless hround l ((hnode l).mp hl)
  sole := hsole

theorem Session.Matches.create (hp : p.Canonical) (hfits : ∀ t : FileTree, t.root = root → t.Fits p.place.staging)
    (h : s.Matches p root chunks n c) :
    (s.step p n (chunks n) .create).Matches p root chunks (n + 1) (c.step n .create) := by
  obtain ⟨t₁, ht₁, hgrown, ⟨-, -, handle, t', hrun, ht', ho⟩ | ⟨hunfit, -⟩⟩ := h.sound.create hp
  · have hsize : s.files.blobs.size ≤ t'.blobs.size := by
      rw [← hgrown.blobs]
      exact ho.size
    have hfile : ∀ {i : Nat}, i < s.files.blobs.size → ∀ l,
        t'.node? l = some (.file i) ↔ s.files.node? l = some (.file i) := by
      intro i hi l
      rw [ho.file_iff (by rw [hgrown.blobs]; exact hi), hgrown.file_iff]
    have hstaging : t'.node? p.place.staging = some (.file handle.blob) := by rw [ho.node, if_pos rfl]
    have hsight : t'.sight p.place.staging = some (.file []) := by rw [ho.sight ht₁.tree, if_pos rfl]
    have hcontent : content? t' p = content? s.files p := by
      rw [← content?_grown hgrown p]
      apply content?_congr
      rw [ho.sight ht₁.tree, if_neg (data_ne_staging hp hp)]
    simp only [Session.step, Course.step, hrun]
    constructor
    case sound => exact ht'
    case root => exact (ho.root.trans hgrown.root).trans h.root
    case content => exact hcontent.trans h.content
    case quiet => exact fun hround hquiet => h.quiet hround fun i hi => hquiet i (Nat.lt_succ_of_lt hi)
    case draft =>
      intro log hlog
      obtain rfl := Option.some.inj hlog
      exact ⟨by simp, [], hsight, by simp⟩
    case no_draft => simp
    case idle => exact update_none_iff h.idle (by simp)
    case live =>
      refine update_forall ?_ fun k work o hk hko => ?_
      · exact ⟨rfl, by simp, by simp, ho.start, ho.bounded, Nat.le_refl _, fun _ => hstaging,
          fun hround => absurd hround (Nat.succ_ne_self _),
          fun hround => absurd hround (Nat.not_lt.mpr (Nat.le_succ _)), fun _ _ _ => hsight⟩
      · have hwork := h.live k work o hk hko
        refine hwork.later (Nat.le_succ n) hsize (hfile hwork.bounded) fun log hlog hsame => ?_
        obtain rfl := Option.some.inj hlog
        have hempty : o.written = [] := hwork.empty_iff.mpr fun i hi => absurd ((hsame i).mpr hi) (by simp)
        rw [hempty]
        exact hsight
  · exact absurd (hfits _ h.root) hunfit

theorem same_steps_cons {log steps : List Nat} (hlog : ∀ i ∈ log, i < n) (hsteps : ∀ i ∈ steps, i < n)
    (h : ∀ i, i ∈ n :: log ↔ i ∈ n :: steps) (i : Nat) : i ∈ log ↔ i ∈ steps := by
  have hi := h i
  simp only [List.mem_cons] at hi
  constructor
  · intro hmem
    rcases hi.mp (Or.inr hmem) with rfl | hmem'
    · exact absurd (hlog i hmem) (Nat.lt_irrefl i)
    · exact hmem'
  · intro hmem
    rcases hi.mpr (Or.inr hmem) with rfl | hmem'
    · exact absurd (hsteps i hmem) (Nat.lt_irrefl i)
    · exact hmem'

theorem Session.Matches.wait (h : s.Matches p root chunks n c) : s.Matches p root chunks (n + 1) c where
  sound := h.sound
  root := h.root
  content := h.content
  quiet hround hquiet := h.quiet hround fun i hi => hquiet i (Nat.lt_succ_of_lt hi)
  draft log hlog := by
    obtain ⟨hbefore, hbytes⟩ := h.draft log hlog
    exact ⟨fun i hi => Nat.lt_succ_of_lt (hbefore i hi), hbytes⟩
  no_draft := h.no_draft
  idle := h.idle
  live k work o hk ho := by
    have hwork := h.live k work o hk ho
    exact hwork.later (Nat.le_succ n) (Nat.le_refl _) (fun l => Iff.rfl) hwork.sole

theorem Live.Matches.append {t : FileTree} {o : Live} {work : Work} {round : Nat} {draft draft' : Option (List Nat)}
    (h : o.Matches p t chunks n round draft work)
    (hsole : ∀ log, draft' = some log → (∀ i, i ∈ log ↔ i ∈ n :: work.steps) →
      (o.writer.append t (chunks n)).2.sight p.place.staging = some (.file (o.written ++ chunks n))) :
    Live.Matches p (o.writer.append t (chunks n)).2 chunks (n + 1) round draft' ⟨work.round, n :: work.steps⟩
      ⟨(o.writer.append t (chunks n)).1, o.written ++ chunks n⟩ where
  entry := h.entry
  before i hi := by
    rcases List.mem_cons.mp hi with rfl | hi
    · exact Nat.lt_succ_self i
    · exact Nat.lt_succ_of_lt (h.before i hi)
  empty_iff := by rw [List.append_eq_nil_iff, List.forall_mem_cons, h.empty_iff, And.comm]
  offset := by
    rw [List.length_append, ← h.offset]
    rfl
  bounded := by simpa [Writer.append, FileTree.write] using h.bounded
  not_later := h.not_later
  drafting := h.drafting
  published := h.published
  nameless := h.nameless
  sole := hsole

/-- A writer of this round adds to the file of the drafts. -/
theorem Session.Matches.append_draft (hp : p.Canonical) {k : Nat} {work : Work} {o : Live}
    (h : s.Matches p root chunks n c) (hk : c.live k = some work) (ho : s.live k = some o)
    (hround : work.round = c.round) :
    (s.step p n (chunks n) (.append k)).Matches p root chunks (n + 1) (c.step n (.append k)) := by
  have hwork := h.live k work o hk ho
  have hblob := hwork.drafting hround
  have hold : s.files.sight p.place.staging = some (.file (s.files.blob o.writer.handle.blob)) :=
    sight_eq_file.mpr ⟨_, hblob, rfl⟩
  have hsight : ∀ l, (o.writer.append s.files (chunks n)).2.sight l = if l = p.place.staging then
      some (.file (overwrite (s.files.blob o.writer.handle.blob) o.writer.handle.offset (chunks n)))
      else s.files.sight l := h.sound.tree.sight_write hblob (chunks n)
  have hwait := h.wait
  simp only [Session.step, Course.step, hk, ho, if_pos hround]
  constructor
  case sound => exact h.sound.append o.writer (chunks n)
  case root => exact h.root
  case content =>
    refine (content?_congr ?_).trans h.content
    rw [hsight, if_neg (data_ne_staging hp hp)]
  case quiet => exact hwait.quiet
  case draft =>
    intro log' hlog'
    obtain ⟨log, hlog, rfl⟩ := Option.map_eq_some_iff.mp hlog'
    obtain ⟨hbefore, bytes, hbytes, hempty⟩ := hwait.draft log hlog
    obtain rfl : s.files.blob o.writer.handle.blob = bytes := by simpa [hold] using hbytes
    refine ⟨List.forall_mem_cons.mpr ⟨Nat.lt_succ_self n, hbefore⟩, _, by rw [hsight, if_pos rfl], ?_⟩
    rw [overwrite_eq_nil_iff, List.forall_mem_cons, hempty, And.comm]
  case no_draft =>
    intro hnone
    rcases h.no_draft (Option.map_eq_none_iff.mp hnone) with hidle | hnode
    · rw [hidle k] at hk
      cases hk
    · rw [hblob] at hnode
      cases hnode
  case idle => exact update_none_iff h.idle (by simp)
  case live =>
    refine update_forall (hwork.append fun log' hlog' hsame => ?_) fun j work' o' hj ho' => ?_
    · obtain ⟨log, hlog, rfl⟩ := Option.map_eq_some_iff.mp hlog'
      have hsole := hwork.sole log hlog (same_steps_cons (h.draft log hlog).1 hwork.before hsame)
      have hwritten : s.files.blob o.writer.handle.blob = o.written := by simpa [hold] using hsole
      rw [hsight, if_pos rfl, hwritten, hwork.offset, overwrite_at_end]
    · have hother := h.live j work' o' hj ho'
      refine hother.later (Nat.le_succ n) (by simp [Writer.append, FileTree.write]) (fun l => Iff.rfl)
        fun log' hlog' hsame => ?_
      -- a draft with this write is not that of another writer
      obtain ⟨log, -, rfl⟩ := Option.map_eq_some_iff.mp hlog'
      exact absurd (hother.before n ((hsame n).mp (List.mem_cons_self ..))) (Nat.lt_irrefl n)

/-- A writer of an earlier round writes to a file without a name. -/
theorem Session.Matches.append_nameless {k : Nat} {work : Work} {o : Live}
    (h : s.Matches p root chunks n c) (hk : c.live k = some work) (ho : s.live k = some o)
    (hround : work.round + 1 < c.round) :
    (s.step p n (chunks n) (.append k)).Matches p root chunks (n + 1) (c.step n (.append k)) := by
  have hwork := h.live k work o hk ho
  have hearlier : work.round ≠ c.round := by omega
  have hsight : ∀ l, (o.writer.append s.files (chunks n)).2.sight l = s.files.sight l := by
    intro l
    have hl := FileTree.sight_write hwork.bounded (chunks n) l
    rw [if_neg (hwork.nameless hround l)] at hl
    exact hl
  have hwait := h.wait
  simp only [Session.step, Course.step, hk, ho, if_neg hearlier]
  constructor
  case sound => exact h.sound.append o.writer (chunks n)
  case root => exact h.root
  case content => exact (content?_congr (hsight _)).trans h.content
  case quiet => exact hwait.quiet
  case draft =>
    intro log hlog
    simp only [hsight]
    exact hwait.draft log hlog
  case no_draft =>
    intro hnone
    rcases h.no_draft hnone with hidle | hnode
    · rw [hidle k] at hk
      cases hk
    · exact Or.inr hnode
  case idle => exact update_none_iff h.idle (by simp)
  case live =>
    refine update_forall (hwork.append fun log hlog hsame => ?_) fun j work' o' hj ho' => ?_
    · -- the file of the drafts does not have this write
      exact absurd ((h.draft log hlog).1 n ((hsame n).mpr (List.mem_cons_self ..))) (Nat.lt_irrefl n)
    · have hother := h.live j work' o' hj ho'
      refine hother.later (Nat.le_succ n) (by simp [Writer.append, FileTree.write]) (fun l => Iff.rfl)
        fun log hlog hsame => ?_
      rw [hsight]
      exact hother.sole log hlog hsame

theorem Session.Matches.append (hp : p.Canonical) {k : Nat} (hadmits : c.Admits (.append k))
    (h : s.Matches p root chunks n c) :
    (s.step p n (chunks n) (.append k)).Matches p root chunks (n + 1) (c.step n (.append k)) := by
  cases hk : c.live k with
  | none =>
    have hidle := (h.idle k).mp hk
    simp only [Session.step, Course.step, hk, hidle]
    exact h.wait
  | some work =>
    obtain ⟨o, ho, hwork⟩ := h.exists_live hk
    have hlive := hadmits work hk
    have hle := hwork.not_later
    rcases Nat.lt_or_eq_of_le hle with hlt | heq
    · exact h.append_nameless hk ho (by omega)
    · exact h.append_draft hp hk ho heq

theorem Session.Matches.drop (h : s.Matches p root chunks n c) (k : Nat) :
    Session.Matches p root chunks n { c with live := Function.update c.live k none }
      { s with live := Function.update s.live k none } where
  sound := h.sound
  root := h.root
  content := h.content
  quiet := h.quiet
  draft := h.draft
  no_draft hnone := by
    rcases h.no_draft hnone with hidle | hnode
    · exact Or.inl fun j => by simp only [Function.update_apply, hidle j, ite_self]
    · exact Or.inr hnode
  idle := update_none_iff h.idle (iff_of_true rfl rfl)
  live j work o hj ho := by
    by_cases hjk : j = k
    · subst hjk
      simp at hj
    · simp only [Function.update_of_ne hjk] at hj ho
      exact h.live j work o hj ho

theorem Session.Matches.run_commit (hp : p.Canonical) {work : Work} {o : Live} {log : List Nat}
    (h : s.Matches p root chunks n c) (hwork : o.Matches p s.files chunks n c.round c.draft work)
    (hlog : c.draft = some log) : ∃ i t', s.files.node? p.place.staging = some (.file i) ∧
      o.writer.commit.run.run s.files = (.ok (), t') ∧ Sound t' ∧
      Moved s.files p.place.staging p.place.data i t' := by
  have hcommit := h.sound.commit o.writer (by rw [hwork.entry]; exact hp)
  rw [hwork.entry] at hcommit
  rcases hcommit with hdone | ⟨hnone, -⟩
  · exact hdone
  · obtain ⟨-, bytes, hbytes, -⟩ := h.draft log hlog
    rw [sight_eq_none.mpr hnone] at hbytes
    cases hbytes

/-- A writer in use goes on after a commit in the next round. -/
theorem Live.Matches.committed {t t' : FileTree} {o : Live} {work : Work} {round i : Nat} {draft : Option (List Nat)}
    (hp : p.Canonical) (ht : Sound t) (h : o.Matches p t chunks n round draft work)
    (hi : t.node? p.place.staging = some (.file i)) (hmoved : Moved t p.place.staging p.place.data i t') :
    o.Matches p t' chunks n (round + 1) none work where
  entry := h.entry
  before := h.before
  empty_iff := h.empty_iff
  offset := h.offset
  bounded := by
    rw [hmoved.blobs]
    exact h.bounded
  not_later := Nat.le_succ_of_le h.not_later
  drafting heq := by
    have hle := h.not_later
    omega
  published heq := by
    have hblob := h.drafting (by omega)
    rw [hi] at hblob
    rw [hmoved.node, if_pos rfl, hblob]
  nameless hlt l hl := by
    have hother : ∀ l, t.node? l = some (.file o.writer.handle.blob) → l = p.place.data := by
      intro l hl
      rcases Nat.lt_or_eq_of_le (Nat.lt_succ_iff.mp hlt) with hlt | heq
      · exact absurd hl (h.nameless hlt l)
      · exact ht.tree.single hl (h.published heq)
    rw [hmoved.node] at hl
    split at hl
    · rw [← hi] at hl
      exact absurd (hother _ hl).symm (data_ne_staging hp hp)
    · next hne =>
      split at hl
      · cases hl
      · exact hne (hother l hl)
  sole log hlog := by cases hlog

/-- A commit of a draft that is in order publishes it, and without a draft nothing is published. -/
theorem Session.Matches.commit (hp : p.Canonical) {k : Nat} (hadmits : c.Admits (.commit k))
    (h : s.Matches p root chunks n c) :
    (s.step p n (chunks n) (.commit k)).Matches p root chunks (n + 1) (c.step n (.commit k)) := by
  have hdrop := (h.drop k).wait
  cases hk : c.live k with
  | none =>
    have hidle := (h.idle k).mp hk
    have hsame : Function.update s.live k none = s.live := Function.update_eq_self_iff.mpr hidle.symm
    simp only [Session.step, Course.step, hk, hidle]
    rw [hsame] at hdrop
    exact hdrop
  | some work =>
    obtain ⟨o, ho, hwork⟩ := h.exists_live hk
    cases hlog : c.draft with
    | none =>
      have hnone : s.files.node? p.place.staging = none := by
        rcases h.no_draft hlog with hidle | hnode
        · rw [hidle k] at hk
          cases hk
        · exact hnode
      have hcommit := h.sound.commit o.writer (by rw [hwork.entry]; exact hp)
      rw [hwork.entry] at hcommit
      rcases hcommit with ⟨i, t', hi, -⟩ | ⟨-, e, hrun⟩
      · rw [hi] at hnone
        cases hnone
      · simp only [Session.step, Course.step, hk, ho, hrun, hlog]
        rw [hlog] at hdrop
        exact hdrop
    | some log =>
      obtain ⟨i, t', hi, hrun, ht', hmoved⟩ := h.run_commit hp hwork hlog
      have hsole := hwork.sole log hlog (hadmits work log hk hlog)
      have hwritten : s.files.blob i = o.written := by
        rw [sight_eq_file.mpr ⟨i, hi, rfl⟩] at hsole
        simpa using hsole
      simp only [Session.step, Course.step, hk, ho, hrun, hlog]
      constructor
      case sound => exact ht'
      case root => exact hmoved.root.trans h.root
      case content =>
        rw [content?_moved hp hp hmoved, if_pos rfl, hwritten]
      case quiet =>
        intro _ hquiet
        rw [hwork.empty_iff.mpr fun i hi => hquiet i (Nat.lt_succ_of_lt (hwork.before i hi))]
      case draft => simp
      case no_draft =>
        refine fun _ => Or.inr ?_
        rw [hmoved.node, if_neg (data_ne_staging hp hp).symm, if_pos rfl]
      case idle => exact hdrop.idle
      case live =>
        intro j work' o' hj ho'
        have hother := (hdrop.live j work' o' hj ho').committed hp h.sound hi hmoved
        exact hother

/-! ## Atomic orders -/

/-- Something is written in one step only. -/
def only (i : Nat) : Nat → Bytes := fun n => if n = i then [1] else []

theorem only_empty_iff {i : Nat} {steps : List Nat} : (∀ n ∈ steps, only i n = []) ↔ i ∉ steps := by
  simp only [only, ite_eq_right_iff, List.cons_ne_nil, imp_false]
  constructor
  · intro h hi
    exact h i hi rfl
  · rintro h n hn rfl
    exact h hn

theorem Session.Matches.published_of_step (h : s.Matches p root chunks n c) :
    (read s.files p).toOption = s.published := by
  rw [h.sound.read_toOption, h.content]

/-- A step that keeps reads in order whatever is written disturbs nobody. -/
theorem admits_of_reads (hp : p.Canonical) {a : Action} {s : (Nat → Bytes) → Session}
    (h : ∀ chunks, (s chunks).Matches p root chunks n c)
    (hreads : ∀ chunks, (read ((s chunks).step p n (chunks n) a).files p).toOption =
      ((s chunks).step p n (chunks n) a).published) : c.Admits a := by
  cases a with
  | create => trivial
  | append k =>
    intro work hk hround
    have hm := h (only n)
    obtain ⟨o, ho, hwork⟩ := hm.exists_live hk
    have hblob := hwork.published hround
    have hquiet : (s (only n)).published = some [] :=
      hm.quiet (by omega) fun i hi => if_neg (Nat.ne_of_lt hi)
    have hafter := hreads (only n)
    simp only [Session.step, ho] at hafter
    rw [(hm.sound.append o.writer (only n n)).read_toOption, hquiet] at hafter
    have hsight := hm.sound.tree.sight_write hblob (only n n) p.place.data
    rw [if_pos rfl] at hsight
    have hcontent : content? (o.writer.append (s (only n)).files (only n n)).2 p = some _ :=
      content?_eq_some_iff.mpr (sight_eq_file.mp hsight)
    rw [hafter] at hcontent
    have hnil := (overwrite_eq_nil_iff.mp (Option.some.inj hcontent).symm).2
    simp [only] at hnil
  | commit k =>
    intro work log hk hlog i
    have hm := h (only i)
    obtain ⟨o, ho, hwork⟩ := hm.exists_live hk
    obtain ⟨j, t', hj, hrun, ht', hmoved⟩ := hm.run_commit hp hwork hlog
    obtain ⟨-, bytes, hbytes, hempty⟩ := hm.draft log hlog
    obtain rfl : (s (only i)).files.blob j = bytes := by
      rw [sight_eq_file.mpr ⟨j, hj, rfl⟩] at hbytes
      simpa using hbytes
    have hafter := hreads (only i)
    simp only [Session.step, ho, hrun] at hafter
    rw [ht'.read_toOption, content?_moved hp hp hmoved, if_pos rfl] at hafter
    have hwritten := hwork.empty_iff
    rw [← Option.some.inj hafter, hempty, only_empty_iff, only_empty_iff] at hwritten
    exact not_iff_not.mp hwritten
  | drop k => trivial

end Simulation

section Orders
variable {p : EntryPath} {t : FileTree} {chunks : Nat → Bytes}

/-- While no writer disturbs another one, the files hold what the order of the steps says. -/
theorem session_matches (hp : p.Canonical) (ht : Sound t) (hfits : t.Fits p.place.staging) {actions : List Action}
    (h : Undisturbed actions) :
    (session p t chunks actions).Matches p t.root chunks actions.length (course actions) := by
  induction actions with
  | nil =>
    refine ⟨ht, rfl, (ht.read_toOption p).symm, fun hround => absurd rfl hround, ?_, fun _ => Or.inl fun _ => rfl,
      fun _ => iff_of_true rfl rfl, ?_⟩
    · intro log hlog
      cases hlog
    · intro k work o hk
      cases hk
  | cons a earlier ih =>
    obtain ⟨hearlier, hadmits⟩ := h
    have hm := ih hearlier
    cases a with
    | create => exact hm.create hp fun t' hroot => hfits.congr t' hroot
    | append k => exact hm.append hp hadmits
    | commit k => exact hm.commit hp hadmits
    | drop k => exact (hm.drop k).wait

/-- Where the system does not accept the path there are no writers. -/
theorem session_of_unfit (hp : p.Canonical) (ht : Sound t) (hfits : ¬ t.Fits p.place.staging)
    (chunks : Nat → Bytes) (actions : List Action) :
    Sound (session p t chunks actions).files ∧ (session p t chunks actions).files.root = t.root ∧
      content? (session p t chunks actions).files p = (session p t chunks actions).published ∧
      ∀ k, (session p t chunks actions).live k = none := by
  induction actions with
  | nil => exact ⟨ht, rfl, (ht.read_toOption p).symm, fun _ => rfl⟩
  | cons a earlier ih =>
    obtain ⟨hsound, hroot, hcontent, hidle⟩ := ih
    cases a with
    | create =>
      obtain ⟨t₁, ht₁, hgrown, ⟨hfits', -⟩ | ⟨-, e, -, hrun⟩⟩ := hsound.create hp
      · exact absurd (hfits'.congr t hroot.symm) hfits
      · simp only [session, Session.step, hrun]
        exact ⟨ht₁, hgrown.root.trans hroot, (content?_grown hgrown p).trans hcontent, hidle⟩
    | append k =>
      simp only [session, Session.step, hidle k]
      exact ⟨hsound, hroot, hcontent, hidle⟩
    | commit k =>
      simp only [session, Session.step, hidle k]
      exact ⟨hsound, hroot, hcontent, hidle⟩
    | drop k =>
      refine ⟨hsound, hroot, hcontent, fun j => ?_⟩
      simp only [session, Session.step, Function.update_apply, hidle j, ite_self]

/-- Commits of an order are atomic whatever is written exactly if no writer disturbs another one, or if there
can be no writers at all. -/
theorem commits_are_atomic_iff {root : Text} (hbuilt : Built root t) (hp : Reachable p) (actions : List Action) :
    (∀ chunks, Atomic p t chunks actions) ↔ Undisturbed actions ∨ ¬ t.Fits p.place.staging := by
  have ht := hbuilt.sound.1
  by_cases hfits : t.Fits p.place.staging
  · rw [or_iff_left (not_not_intro hfits)]
    constructor
    · intro h
      induction actions with
      | nil => trivial
      | cons a earlier ih =>
        have hearlier := ih fun chunks before hs => h chunks before (hs.trans (List.suffix_cons ..))
        have hreads : ∀ chunks : Nat → Bytes, (read (session p t chunks (a :: earlier)).files p).toOption =
            (session p t chunks (a :: earlier)).published := fun chunks => h chunks _ List.suffix_rfl
        exact ⟨hearlier, admits_of_reads (s := fun chunks => session p t chunks earlier) hp.canonical
          (fun chunks => session_matches hp.canonical ht hfits hearlier) hreads⟩
    · intro h chunks earlier hs
      exact (session_matches hp.canonical ht hfits (h.suffix hs)).published_of_step
  · rw [or_iff_right_of_imp fun _ => hfits]
    refine iff_of_true (fun chunks earlier _ => ?_) hfits
    obtain ⟨hsound, -, hcontent, -⟩ := session_of_unfit hp.canonical ht hfits chunks earlier
    rw [hsound.read_toOption, hcontent]

end Orders

def sharedNote : EntryPath := ⟨[.child "note".toList]⟩

/-- The second of two writers may publish if the first one gives up. -/
theorem commits_are_atomic_after_giving_up :
    Reachable sharedNote ∧ Undisturbed [.drop 0, .commit 1, .append 1, .create, .create] ∧
    ∀ chunks, Atomic sharedNote (FileTree.empty "data/".toList) chunks
      [.drop 0, .commit 1, .append 1, .create, .create] := by
  have hnote : Reachable sharedNote := reachable_iff_canonical.mpr (by decide)
  have h : Undisturbed [.drop 0, .commit 1, .append 1, .create, .create] := by
    simp [Undisturbed, course, Course.step, Course.Admits]
  exact ⟨hnote, h, (commits_are_atomic_iff Built.empty hnote _).mpr (Or.inl h)⟩

def noted : FileTree := ((write sharedNote [9]).run.run (FileTree.empty "data/".toList)).2

/-- A commit publishes the empty draft of a writer that has only begun, and what that one writes then is read
although it is not committed. -/
theorem commit_publishes_draft_of_another :
    ¬ Atomic sharedNote noted (fun n => [n.toUInt8]) [.commit 0, .create, .append 0, .create] ∧
    (session sharedNote noted (fun n => [n.toUInt8]) [.commit 0, .create, .append 0, .create]).published = some [1] ∧
    (read (session sharedNote noted (fun n => [n.toUInt8]) [.commit 0, .create, .append 0, .create]).files
      sharedNote).toOption = some [] ∧
    (read (session sharedNote noted (fun n => [n.toUInt8]) [.append 2, .commit 0, .create, .append 0, .create]).files
      sharedNote).toOption = some [4] := by
  have hpublished : (session sharedNote noted (fun n => [n.toUInt8])
      [.commit 0, .create, .append 0, .create]).published = some [1] := by decide +kernel
  have hread : (read (session sharedNote noted (fun n => [n.toUInt8])
      [.commit 0, .create, .append 0, .create]).files sharedNote).toOption = some [] := by decide +kernel
  refine ⟨fun h => ?_, hpublished, hread, by decide +kernel⟩
  have hatomic := h _ List.suffix_rfl
  rw [hpublished, hread] at hatomic
  cases hatomic

end EntryServer.Store
