import EntryServer.EntryPath.Basic

/-! # Canonical paths

Which lists of hops name an entry in the one way that the navigation uses, and the proof that every
operation on paths stays inside them. The marker of a container view stands at the end or before a
metadata hop, never on the root and never twice, and every name is one segment. -/
namespace EntryServer
set_option autoImplicit false

/-! ## Segments -/

/-- A name that a single hop can have. -/
def IsSegment (n : Text) : Prop := n ≠ [] ∧ n ≠ ['.'] ∧ n ≠ ['.', '.'] ∧ '/' ∉ n

instance (n : Text) : Decidable (IsSegment n) := inferInstanceAs (Decidable (_ ∧ _))

theorem not_mem_of_mem_splitOn {c : Char} {t piece : Text} (h : piece ∈ t.splitOn c) : c ∉ piece := by
  induction t generalizing piece with
  | nil =>
    obtain rfl : piece = [] := by simpa [List.splitOn_eq_splitOnP] using h
    simp
  | cons x t ih =>
    rw [List.splitOn_cons_eq_if_modifyHead] at h
    split at h
    · rcases List.mem_cons.mp h with rfl | h
      · simp
      · exact ih h
    · next hx =>
      have hne : x ≠ c := by simpa using hx
      obtain ⟨first, rest, hs⟩ := List.exists_cons_of_ne_nil (List.splitOn_ne_nil c t)
      rw [hs, List.modifyHead_cons] at h
      rcases List.mem_cons.mp h with rfl | h
      · have hfirst : first ∈ t.splitOn c := by
          rw [hs]
          exact List.mem_cons_self ..
        have := ih hfirst
        simp [this, hne.symm]
      · exact ih (by rw [hs]; exact List.mem_cons_of_mem _ h)

namespace EntryPath

theorem segments_cleanStep {kept : List Text} {segment : Text} (hk : ∀ n ∈ kept, IsSegment n)
    (hs : '/' ∉ segment) : ∀ n ∈ cleanStep kept segment, IsSegment n := by
  unfold cleanStep
  split
  · exact hk
  · next h1 =>
    split
    · intro n hn
      exact hk n (List.mem_of_mem_tail hn)
    · next h2 =>
      intro n hn
      rcases List.mem_cons.mp hn with rfl | hn
      · exact ⟨fun h => h1 (Or.inl h), fun h => h1 (Or.inr h), h2, hs⟩
      · exact hk n hn

/-- What a relative name walks through are segments, whatever the name is. -/
theorem segments_clean (name : Text) : ∀ n ∈ clean name, IsSegment n := by
  have fold : ∀ (pieces kept : List Text), (∀ p ∈ pieces, '/' ∉ p) → (∀ n ∈ kept, IsSegment n) →
      ∀ n ∈ pieces.foldl cleanStep kept, IsSegment n := by
    intro pieces
    induction pieces with
    | nil => exact fun kept _ hk => hk
    | cons p pieces ih =>
      intro kept hp hk
      exact ih _ (fun q hq => hp q (List.mem_cons_of_mem _ hq))
        (segments_cleanStep hk (hp p (List.mem_cons_self ..)))
  exact fold _ [] (fun _ => not_mem_of_mem_splitOn) (by simp)

theorem clean_of_segment {n : Text} (h : IsSegment n) : clean n = [n] := by
  obtain ⟨h1, h2, h3, h4⟩ := h
  rw [clean, List.splitOn_eq_singleton h4]
  simp [cleanStep, h1, h2, h3]

theorem clean_closed {n : Text} (h : IsSegment n) : clean (n ++ ['/']) = [n] := by
  obtain ⟨h1, h2, h3, h4⟩ := h
  have hsplit : (n ++ ['/']).splitOn '/' = [n, []] := by
    have hopen : ∀ c ∈ n, (c == '/') = false := by
      intro c hc
      rw [beq_eq_false_iff_ne]
      rintro rfl
      exact h4 hc
    rw [List.splitOn_eq_splitOnP, List.splitOnP_append_cons_of_forall_mem hopen '/' (beq_self_eq_true _)]
    rfl
  rw [clean, hsplit]
  simp [cleanStep, h1, h2, h3]

theorem not_endsWithSlash_of_segment {n : Text} (h : IsSegment n) : endsWithSlash n = false := by
  rw [endsWithSlash, beq_eq_false_iff_ne]
  intro hl
  exact h.2.2.2 (List.mem_of_getLast? hl)

/-- A name of one segment leads to the child of that name. -/
theorem child_of_segment (p : EntryPath) {n : Text} (h : IsSegment n) : p.child n = p.literalChild n := by
  rw [child, clean_of_segment h]
  simp [not_endsWithSlash_of_segment h, literalChild]

/-! ## Canonical lists of hops -/

def CanonicalHops : List Step → Prop
  | [] => True
  | .child n :: above => IsSegment n ∧ above.head? ≠ some .dir ∧ CanonicalHops above
  | .dir :: above => above ≠ [] ∧ above.head? ≠ some .dir ∧ CanonicalHops above
  | .metadata :: above => CanonicalHops above

def Canonical (p : EntryPath) : Prop := CanonicalHops p.hops

instance decidableCanonicalHops : (hops : List Step) → Decidable (CanonicalHops hops)
  | [] => isTrue trivial
  | .child _ :: above =>
    have := decidableCanonicalHops above
    inferInstanceAs (Decidable (_ ∧ _ ∧ CanonicalHops above))
  | .dir :: above =>
    have := decidableCanonicalHops above
    inferInstanceAs (Decidable (_ ∧ _ ∧ CanonicalHops above))
  | .metadata :: above => decidableCanonicalHops above

instance (p : EntryPath) : Decidable p.Canonical := decidableCanonicalHops p.hops

theorem CanonicalHops.tail {s : Step} {above : List Step} (h : CanonicalHops (s :: above)) :
    CanonicalHops above := by
  cases s with
  | child n => exact h.2.2
  | dir => exact h.2.2
  | metadata => exact h

theorem CanonicalHops.suffix {hops hops' : List Step} (h : CanonicalHops hops) (hs : hops' <:+ hops) :
    CanonicalHops hops' := by
  induction hops with
  | nil =>
    obtain rfl := List.suffix_nil.mp hs
    exact h
  | cons s above ih =>
    rcases List.suffix_cons_iff.mp hs with rfl | hs
    · exact h
    · exact ih h.tail hs

/-! ## Navigation stays canonical -/

theorem isContainer_iff {p : EntryPath} : p.isContainer = true ↔ p.hops = [] ∨ p.hops.head? = some .dir := by
  simp [isContainer]

theorem isLeaf_iff {p : EntryPath} : p.isContainer = false ↔ p.hops ≠ [] ∧ p.hops.head? ≠ some .dir := by
  rw [← Bool.not_eq_true, isContainer_iff, not_or]

theorem canonical_root : root.Canonical := trivial

theorem Canonical.dir {p : EntryPath} (h : p.Canonical) : p.dir.Canonical := by
  unfold EntryPath.dir
  split
  · exact h
  · next hc =>
    rw [isContainer_iff, not_or] at hc
    exact ⟨hc.1, hc.2, h⟩

theorem file_head_ne_dir {p : EntryPath} (h : p.Canonical) : p.file.hops.head? ≠ some .dir := by
  unfold file
  split
  · next above hp =>
    have h' : CanonicalHops (.dir :: above) := hp ▸ h
    exact h'.2.1
  · next hp =>
    intro hd
    obtain ⟨above, ha⟩ := List.head?_eq_some_iff.mp hd
    exact hp above ha

theorem Canonical.file {p : EntryPath} (h : p.Canonical) : p.file.Canonical := by
  unfold EntryPath.file
  split
  · next above hp =>
    have h' : CanonicalHops (.dir :: above) := hp ▸ h
    exact h'.2.2
  · exact h

theorem Canonical.parameters {p : EntryPath} (h : p.Canonical) : p.parameters.Canonical := h

theorem canonicalHops_map_child {above : List Step} (ha : CanonicalHops above) (hd : above.head? ≠ some .dir) :
    ∀ names : List Text, (∀ n ∈ names, IsSegment n) → CanonicalHops (names.map .child ++ above) ∧
      (names.map Step.child ++ above).head? ≠ some .dir
  | [], _ => ⟨ha, hd⟩
  | n :: names, hn => by
    obtain ⟨ih, ihd⟩ := canonicalHops_map_child ha hd names fun m hm => hn m (List.mem_cons_of_mem _ hm)
    exact ⟨⟨hn n (List.mem_cons_self ..), ihd, ih⟩, by simp⟩

theorem Canonical.child {p : EntryPath} (h : p.Canonical) (name : Text) : (p.child name).Canonical := by
  simp only [EntryPath.child]
  split
  · exact h.dir
  · have hleaf : Canonical ⟨(clean name).map .child ++ p.file.hops⟩ :=
      (canonicalHops_map_child h.file (file_head_ne_dir h) _ (segments_clean name)).1
    split
    · exact hleaf.dir
    · exact hleaf

theorem Canonical.literalChild {p : EntryPath} (h : p.Canonical) {n : Text} (hn : IsSegment n) :
    (p.literalChild n).Canonical := ⟨hn, file_head_ne_dir h, h.file⟩

theorem Canonical.climb {above : List Step} {q : EntryPath} (h : CanonicalHops above)
    (hq : EntryPath.climb above = some q) : q.Canonical := by
  match above, hq with
  | .child n :: rest, hq =>
    obtain rfl : EntryPath.dir ⟨rest⟩ = q := by simpa [EntryPath.climb] using hq
    exact Canonical.dir (p := ⟨rest⟩) h.2.2
  | .dir :: rest, hq =>
    obtain rfl : (⟨rest⟩ : EntryPath) = q := by simpa [EntryPath.climb] using hq
    exact h.2.2
  | .metadata :: rest, hq =>
    obtain rfl : (⟨rest⟩ : EntryPath) = q := by simpa [EntryPath.climb] using hq
    exact h

theorem Canonical.parent {p q : EntryPath} (h : p.Canonical) {force : Bool}
    (hq : p.parent force = some q) : q.Canonical := by
  unfold EntryPath.parent at hq
  split at hq
  · next above hp =>
    have h' : CanonicalHops above := (hp ▸ h : CanonicalHops (.dir :: above)).2.2
    split at hq
    · exact Canonical.climb h' hq
    · obtain rfl : (⟨above⟩ : EntryPath) = q := by simpa using hq
      exact h'
  · exact Canonical.climb h hq

theorem Canonical.ancestors {p : EntryPath} (h : p.Canonical) : ∀ q ∈ p.ancestors, q.Canonical := by
  induction p using EntryPath.ancestors.induct with
  | case1 p hp =>
    rw [EntryPath.ancestors, hp]
    simpa using h
  | case2 p q hq ih =>
    rw [EntryPath.ancestors, hq]
    intro r hr
    rcases List.mem_cons.mp hr with rfl | hr
    · exact h
    · exact ih (h.parent hq) r hr

/-! ## Two views of one entry -/

theorem file_of_head_ne_dir {hops : List Step} (h : hops.head? ≠ some .dir) : (⟨hops⟩ : EntryPath).file = ⟨hops⟩ := by
  unfold EntryPath.file
  split
  · next above hp =>
    obtain rfl : hops = .dir :: above := hp
    exact absurd rfl h
  · rfl

theorem dir_of_leaf {p : EntryPath} (h : p.isContainer = false) : p.dir = ⟨.dir :: p.hops⟩ := by
  rw [dir, h]
  rfl

theorem isContainer_dir (p : EntryPath) : p.dir.isContainer = true := by
  cases h : p.isContainer with
  | true => rwa [dir, h]
  | false => rw [dir_of_leaf h]; rfl

theorem dir_dir (p : EntryPath) : p.dir.dir = p.dir := by
  rw [dir, isContainer_dir]
  rfl

theorem file_dir (p : EntryPath) : p.dir.file = p.file := by
  cases h : p.isContainer with
  | true => rw [dir, h]; rfl
  | false => rw [dir_of_leaf h, file_of_head_ne_dir (isLeaf_iff.mp h).2]; rfl

theorem file_hops_ne_nil {p : EntryPath} (hp : p.Canonical) (h : p.hops ≠ []) : p.file.hops ≠ [] := by
  unfold file
  split
  · next above hhops =>
    have habove : CanonicalHops (.dir :: above) := hhops ▸ hp
    exact habove.1
  · exact h

theorem dir_file {p : EntryPath} (hp : p.Canonical) : p.file.dir = p.dir := by
  unfold file
  split
  · next above hhops =>
    have habove : CanonicalHops (.dir :: above) := hhops ▸ hp
    have hleaf : (⟨above⟩ : EntryPath).isContainer = false := isLeaf_iff.mpr ⟨habove.1, habove.2.1⟩
    have hcontainer : p.isContainer = true := isContainer_iff.mpr (by simp [hhops])
    rw [dir, dir, hleaf, hcontainer, if_pos rfl, if_neg (by simp), EntryPath.ext_iff, hhops]
  · rfl

theorem child_dir (p : EntryPath) (name : Text) : p.dir.child name = p.child name := by
  simp only [child, dir_dir, file_dir]

theorem level_dir (p : EntryPath) : p.dir.level = p.level := by
  cases h : p.isContainer with
  | true => rw [dir, h]; rfl
  | false => rw [dir_of_leaf h]; rfl

theorem level_file (p : EntryPath) : p.file.level = p.level := by
  unfold file
  split
  · next above hhops => rw [level, level, hhops, List.countP_cons_of_neg (by simp)]
  · rfl

theorem name_dir (p : EntryPath) : p.dir.name = p.name := by
  cases h : p.isContainer with
  | true => rw [dir, h]; rfl
  | false => rw [dir_of_leaf h]; rfl

/-! ## Reachable paths -/

/-- Paths that the navigation leads to from the store root. -/
inductive Reachable : EntryPath → Prop
  | root : Reachable root
  | child {p : EntryPath} (name : Text) : Reachable p → Reachable (p.child name)
  | parameters {p : EntryPath} : Reachable p → Reachable p.parameters
  | dir {p : EntryPath} : Reachable p → Reachable p.dir
  | file {p : EntryPath} : Reachable p → Reachable p.file
  | parent {p q : EntryPath} (force : Bool) : p.parent force = some q → Reachable p → Reachable q

theorem Reachable.canonical {p : EntryPath} (h : Reachable p) : p.Canonical := by
  induction h with
  | root => exact canonical_root
  | child name _ ih => exact ih.child name
  | parameters _ ih => exact ih.parameters
  | dir _ ih => exact ih.dir
  | file _ ih => exact ih.file
  | parent force hq _ ih => exact ih.parent hq

/-- The canonical paths are those that the navigation leads to. -/
theorem reachable_iff_canonical {p : EntryPath} : Reachable p ↔ p.Canonical := by
  refine ⟨Reachable.canonical, fun h => ?_⟩
  obtain ⟨hops⟩ := p
  induction hops with
  | nil => exact Reachable.root
  | cons s above ih =>
    have habove : Reachable ⟨above⟩ := ih h.tail
    cases s with
    | child n =>
      have hchild := habove.child n
      rw [child_of_segment _ h.1, literalChild, file_of_head_ne_dir h.2.1] at hchild
      exact hchild
    | dir =>
      have hdir := habove.dir
      rw [dir_of_leaf (isLeaf_iff.mpr ⟨h.1, h.2.1⟩)] at hdir
      exact hdir
    | metadata => exact habove.parameters

end EntryPath
end EntryServer
