import EntryServer.Proofs.EntryPath.Canonical
import Mathlib.Data.List.Infix

/-! # Resolving relative names

A relative name leads from the leaf view of an entry through the segments that are left of it, and then perhaps to
the container view. It never leads out of the entry. Two names that are joined by a slash lead to where the second one
leads from where the first one does, if the second one does not go back into the first. -/
namespace EntryServer.EntryPath
set_option autoImplicit false

/-! ## Cleaning in two parts -/

/-- A segment that leads on to a child. The other ones stay, or go back. -/
def isName (segment : Text) : Bool := segment ≠ [] && segment ≠ ['.'] && segment ≠ ['.', '.']

/-- However far the name is read, it has not gone back more often than it has gone on. -/
def StaysInside (name : Text) : Prop :=
  ∀ front, front <+: name.splitOn '/' → front.count ['.', '.'] ≤ front.countP isName

instance (name : Text) : Decidable (StaysInside name) :=
  decidable_of_iff (∀ front ∈ (name.splitOn '/').inits, front.count ['.', '.'] ≤ front.countP isName)
    (by simp only [List.mem_inits, StaysInside])

/-- Segments leave alone what lies below, as long as they go back over their own names and those on top only. -/
theorem foldl_cleanStep_append {segments kept : List Text}
    (h : ∀ front, front <+: segments → front.count ['.', '.'] ≤ kept.length + front.countP isName)
    (below : List Text) : segments.foldl cleanStep (kept ++ below) = segments.foldl cleanStep kept ++ below := by
  -- along the segments; the bound says how many names on top there still are to go back over
  induction segments generalizing kept with
  | nil => rfl
  | cons segment segments ih =>
    have hfront : ∀ front, front <+: segments →
        (segment :: front).count ['.', '.'] ≤ kept.length + (segment :: front).countP isName :=
      fun front hf => h _ (List.cons_prefix_cons.mpr ⟨rfl, hf⟩)
    rw [List.foldl_cons, List.foldl_cons]
    unfold cleanStep
    split
    · next hstay =>
      refine ih fun front hf => ?_
      rcases hstay with rfl | rfl
      · simpa [isName] using hfront front hf
      · simpa [isName] using hfront front hf
    · next hstay =>
      split
      · next hback =>
        subst hback
        have hkept : kept ≠ [] := by
          rintro rfl
          exact absurd (hfront [] List.nil_prefix) (by decide)
        rw [List.tail_append_of_ne_nil hkept]
        refine ih fun front hf => ?_
        have hcount : front.count ['.', '.'] + 1 ≤ kept.length + front.countP isName := by
          simpa [isName] using hfront front hf
        rw [List.length_tail]
        omega
      · next hback =>
        have hname : isName segment = true := by simpa [isName, not_or, hback] using hstay
        rw [← List.cons_append]
        refine ih fun front hf => ?_
        have hcount := hfront front hf
        rw [List.count_cons_of_ne hback, List.countP_cons_of_pos hname] at hcount
        rw [List.length_cons]
        omega

theorem clean_append (a : Text) {b : Text} (hb : StaysInside b) : clean (a ++ ['/'] ++ b) = clean b ++ clean a := by
  have hsplit : (a ++ ['/'] ++ b).splitOn '/' = a.splitOn '/' ++ b.splitOn '/' := by
    rw [List.append_assoc, List.singleton_append]
    exact List.splitOnP_append_cons a b (beq_self_eq_true _)
  have hfronts : ∀ front, front <+: b.splitOn '/' →
      front.count ['.', '.'] ≤ ([] : List Text).length + front.countP isName := by
    intro front hf
    rw [List.length_nil, Nat.zero_add]
    exact hb front hf
  rw [clean, hsplit, List.foldl_append]
  exact foldl_cleanStep_append hfronts (clean a)

theorem endsWithSlash_append (a : Text) {b : Text} (hb : b ≠ []) : endsWithSlash (a ++ b) = endsWithSlash b := by
  rw [endsWithSlash, endsWithSlash, List.getLast?_append_of_ne_nil _ hb]

/-! ## Where a name leads -/

/-- The leaf view that names lead to from an entry, the last name first. -/
def below (p : EntryPath) (names : List Text) : EntryPath := ⟨names.map .child ++ p.file.hops⟩

/-- Does the name lead to a container view? -/
def LeadsToContainer (name : Text) : Prop := endsWithSlash name = true ∨ clean name = []

instance (name : Text) : Decidable (LeadsToContainer name) := inferInstanceAs (Decidable (_ ∨ _))

section Names
variable {p : EntryPath} {names : List Text} {name : Text}

theorem child_eq (hp : p.Canonical) (name : Text) : p.child name =
    if LeadsToContainer name then (p.below (clean name)).dir else p.below (clean name) := by
  by_cases hkept : clean name = []
  · have hdir : LeadsToContainer name := Or.inr hkept
    have hself : p.below (clean name) = p.file := by rw [hkept]; rfl
    rw [if_pos hdir, hself, dir_file hp, child]
    simp only [hkept, if_true]
  · simp only [child, LeadsToContainer, hkept, or_false]
    rfl

theorem below_head_ne_dir (hp : p.Canonical) (names : List Text) : (p.below names).hops.head? ≠ some .dir := by
  cases names with
  | nil => exact file_head_ne_dir hp
  | cons n names => simp [below]

theorem file_below (hp : p.Canonical) (names : List Text) : (p.below names).file = p.below names :=
  file_of_head_ne_dir (below_head_ne_dir hp names)

theorem file_child (hp : p.Canonical) (name : Text) : (p.child name).file = p.below (clean name) := by
  rw [child_eq hp]
  split
  · rw [file_dir, file_below hp]
  · exact file_below hp _

/-- Names that are followed one after the other are followed at once. -/
theorem below_child (hp : p.Canonical) (name : Text) (names : List Text) :
    (p.child name).below names = p.below (names ++ clean name) := by
  rw [below, file_child hp, below, below, List.map_append, List.append_assoc]

theorem level_below (p : EntryPath) (names : List Text) : (p.below names).level = p.level + names.length := by
  have hnames : (names.map Step.child).countP (· ≠ .dir) = names.length := by
    rw [List.countP_map, List.countP_eq_length.mpr (fun n _ => by simp)]
  rw [← level_file p, level, below, List.countP_append, hnames, Nat.add_comm]
  rfl

theorem level_child (hp : p.Canonical) (name : Text) : (p.child name).level = p.level + (clean name).length := by
  rw [child_eq hp, ← level_below]
  split
  · exact level_dir _
  · rfl

theorem isContainer_child (hp : p.Canonical) (name : Text) :
    (p.child name).isContainer = true ↔ LeadsToContainer name := by
  rw [child_eq hp]
  split
  · next hdir => simp [isContainer_dir, hdir]
  · next hleaf =>
    have hne : (p.below (clean name)).hops ≠ [] := by
      simp only [below, ne_eq, List.append_eq_nil_iff, List.map_eq_nil_iff, not_and_or]
      exact Or.inl fun hkept => hleaf (Or.inr hkept)
    simp [isLeaf_iff.mpr ⟨hne, below_head_ne_dir hp _⟩, hleaf]

/-- On the way that is walked there are, behind that to the leaf view, the names and perhaps one marker. -/
theorem steps_child (hp : p.Canonical) (name : Text) : ∃ marker, (marker = [] ∨ marker = [Step.dir]) ∧
    (p.child name).steps = p.file.steps ++ (clean name).reverse.map .child ++ marker := by
  have hsteps : (p.below (clean name)).steps = p.file.steps ++ (clean name).reverse.map .child := by
    simp [steps, below]
  rw [child_eq hp, ← hsteps]
  split
  · cases hroot : (p.below (clean name)).isContainer with
    | true => exact ⟨[], Or.inl rfl, by rw [dir, hroot]; simp⟩
    | false => exact ⟨[.dir], Or.inr rfl, by rw [dir_of_leaf hroot]; simp [steps]⟩
  · exact ⟨[], Or.inl rfl, by simp⟩

end Names

/-! ## Names in two parts -/

theorem leadsToContainer_append {a b : Text} (hb : StaysInside b)
    (hend : clean b ≠ [] ∨ b = [] ∨ endsWithSlash b = true) :
    LeadsToContainer (a ++ ['/'] ++ b) ↔ LeadsToContainer b := by
  rw [LeadsToContainer, LeadsToContainer, clean_append a hb]
  by_cases hempty : b = []
  · subst hempty
    have hclosed : endsWithSlash (a ++ ['/'] ++ []) = true := by simp [endsWithSlash]
    simp only [hclosed, true_or, true_iff]
    exact Or.inr rfl
  · rw [endsWithSlash_append _ hempty, List.append_eq_nil_iff]
    refine or_congr_right' fun hopen => ?_
    have hkept : clean b ≠ [] := hend.resolve_right fun h => h.elim hempty hopen
    simp [hkept]

/-- What leads on from where a name leads is that name, a slash and the rest. And whatever the name is, it leads from
the leaf view through children with clean names, and to the container view exactly if it ends with a slash or nothing is
left of it. -/
theorem resolution_composes :
    (∀ p a b, Canonical p → StaysInside b → (clean b ≠ [] ∨ b = [] ∨ endsWithSlash b = true) →
      p.child (a ++ ['/'] ++ b) = (p.child a).child b) ∧
    ∀ p a, Canonical p → (∃ (names : List Text) (marker : List Step), (∀ n ∈ names, IsSegment n) ∧
        (marker = [] ∨ marker = [.dir]) ∧ (p.child a).steps = p.file.steps ++ names.map .child ++ marker) ∧
      p.level ≤ (p.child a).level ∧
      ((p.child a).isContainer = true ↔ endsWithSlash a = true ∨ clean a = []) := by
  refine ⟨fun p a b hp hb hend => ?_, fun p a hp => ⟨?_, ?_, isContainer_child hp a⟩⟩
  · rw [child_eq hp, child_eq (hp.child a), below_child hp, clean_append a hb]
    simp only [leadsToContainer_append hb hend]
  · obtain ⟨marker, hmarker, hsteps⟩ := steps_child hp a
    refine ⟨_, marker, fun n hn => ?_, hmarker, hsteps⟩
    exact segments_clean a n (List.mem_reverse.mp hn)
  · rw [level_child hp]
    exact Nat.le_add_right _ _

/-- Going back inside of the second part is fine, and so is going out of the first one. -/
theorem resolution_composes_docs :
    let host := root.child "host/".toList
    StaysInside "en/../de/".toList ∧
      (host.child "../docs/.".toList).child "en/../de/".toList = host.child "../docs/./en/../de/".toList ∧
      (host.child "../docs/.".toList).steps = [.child "host".toList, .child "docs".toList] := by
  have hp : (root.child "host/".toList).Canonical := canonical_root.child _
  refine ⟨by decide +kernel, ?_, by decide +kernel⟩
  exact (resolution_composes.1 _ "../docs/.".toList "en/../de/".toList hp (by decide +kernel)
    (Or.inr (Or.inr (by decide +kernel)))).symm

/-- A name that goes back further than it has gone on takes a name from the first part with it. -/
example : ¬ StaysInside "..".toList ∧
    root.child "a/..".toList = root ∧ (root.child "a".toList).child "..".toList = root.child "a/".toList := by
  decide +kernel

end EntryServer.EntryPath
