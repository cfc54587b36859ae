import EntryServer.Proofs.EntryPath.Canonical

/-! # Branches

What belongs to an entry: for a leaf view, everything whose way begins with its own; for a container view,
the container with its metadata and everything below a child, but not the leaf view nor the metadata of
that; for the root, everything. -/
namespace EntryServer.EntryPath
set_option autoImplicit false

/-! ## The inside of a container -/

/-- The way leads on from `above` into its container view or to a child, and not into its metadata only. -/
def Within (above hops : List Step) : Prop := ∃ s, s ≠ .metadata ∧ s :: above <:+ hops

theorem within_nil (above : List Step) : ¬ Within above [] := by
  rintro ⟨s, -, h⟩
  simp at h

theorem within_cons {above hops : List Step} {s : Step} :
    Within above (s :: hops) ↔ (s ≠ .metadata ∧ hops = above) ∨ Within above hops := by
  constructor
  · rintro ⟨r, hr, h⟩
    rcases List.suffix_cons_iff.mp h with h | h
    · obtain ⟨rfl, rfl⟩ := List.cons.inj h
      exact Or.inl ⟨hr, rfl⟩
    · exact Or.inr ⟨r, hr, h⟩
  · rintro (⟨hs, rfl⟩ | ⟨r, hr, h⟩)
    · exact ⟨s, hs, List.suffix_rfl⟩
    · exact ⟨r, hr, h.trans (List.suffix_cons ..)⟩

instance decidableWithin (above : List Step) : (hops : List Step) → Decidable (Within above hops)
  | [] => isFalse (within_nil above)
  | _ :: hops =>
    have := decidableWithin above hops
    decidable_of_iff _ within_cons.symm

theorem within_dir_cons {above hops : List Step} : Within above (.dir :: hops) ↔ hops = above ∨ Within above hops := by
  simp [within_cons]

theorem within_child_cons {above hops : List Step} {n : Text} :
    Within above (.child n :: hops) ↔ hops = above ∨ Within above hops := by
  simp [within_cons]

theorem within_metadata_cons {above hops : List Step} :
    Within above (.metadata :: hops) ↔ Within above hops := by
  simp [within_cons]

theorem Within.suffix {above hops : List Step} (h : Within above hops) : above <:+ hops := by
  obtain ⟨s, -, h⟩ := h
  exact (List.suffix_cons ..).trans h

theorem Within.trans_suffix {above hops hops' : List Step} (h : Within above hops) (hs : hops <:+ hops') :
    Within above hops' := by
  obtain ⟨s, hm, h⟩ := h
  exact ⟨s, hm, h.trans hs⟩

theorem within_or_metadata {above hops : List Step} (h : above <:+ hops) :
    hops = above ∨ Within above hops ∨ .metadata :: above <:+ hops := by
  obtain ⟨way, rfl⟩ := h
  rcases List.eq_nil_or_concat way with rfl | ⟨way, s, rfl⟩
  · exact Or.inl rfl
  · have hs : s :: above <:+ way.concat s ++ above := by simp
    by_cases hm : s = .metadata
    · subst hm
      exact Or.inr (Or.inr hs)
    · exact Or.inr (Or.inl ⟨s, hm, hs⟩)

theorem within_child {above : List Step} {q : EntryPath} (h : Within above q.hops) (name : Text) :
    Within above (q.child name).hops := by
  have hdir : ∀ r : EntryPath, Within above r.hops → Within above r.dir.hops := by
    intro r hr
    unfold EntryPath.dir
    split
    · exact hr
    · exact within_dir_cons.mpr (Or.inr hr)
  have hmap : ∀ names : List Text, names ≠ [] → Within above (names.map Step.child ++ q.file.hops) := by
    intro names hnames
    obtain ⟨n, rest, rfl⟩ := List.exists_cons_of_ne_nil hnames
    have hfile : q.file.hops = above ∨ Within above q.file.hops := by
      unfold EntryPath.file
      split
      · next rest hq =>
        rw [hq] at h
        exact within_dir_cons.mp h
      · exact Or.inr h
    induction rest generalizing n with
    | nil => exact within_child_cons.mpr hfile
    | cons m rest ih => exact within_child_cons.mpr (Or.inr (ih m (by simp)))
  simp only [EntryPath.child]
  split
  · exact hdir q h
  · next hkept =>
    split
    · exact hdir _ (hmap _ hkept)
    · exact hmap _ hkept

/-- What is reached by a name from a leaf view, or from what is inside its container, is inside. -/
theorem within_child_of_leaf {p q : EntryPath} (hleaf : p.isContainer = false)
    (hq : q.hops = p.hops ∨ Within p.hops q.hops) (name : Text) : Within p.hops (q.child name).hops := by
  rcases hq with heq | hq
  · obtain rfl := EntryPath.ext heq
    rw [← child_dir]
    apply within_child
    rw [dir_of_leaf hleaf]
    exact within_dir_cons.mpr (Or.inl rfl)
  · exact within_child hq name

/-! ## The branch of an entry -/

/-- Does the branch of `e` hold `q`? Every entry is in its own branch. -/
def Covers (e q : EntryPath) : Prop :=
  match e.hops with
  | .dir :: above => Within above q.hops
  | hops => hops <:+ q.hops

theorem covers_container {above : List Step} {q : EntryPath} :
    Covers ⟨.dir :: above⟩ q ↔ Within above q.hops := Iff.rfl

theorem covers_leaf {e q : EntryPath} (h : e.hops.head? ≠ some .dir) : e.Covers q ↔ e.hops <:+ q.hops := by
  unfold Covers
  split
  · next above he => simp [he] at h
  · rfl

theorem covers_root (q : EntryPath) : root.Covers q := List.nil_suffix

instance (e q : EntryPath) : Decidable (e.Covers q) := by
  unfold Covers
  split <;> infer_instance

theorem covers_self (e : EntryPath) : e.Covers e := by
  unfold Covers
  split
  · next above he =>
    rw [he]
    exact ⟨.dir, by simp, List.suffix_rfl⟩
  · exact List.suffix_rfl

theorem Covers.extend {e q r : EntryPath} (h : e.Covers q) (hr : q.hops <:+ r.hops) : e.Covers r := by
  unfold Covers at h ⊢
  split at h
  · exact h.trans_suffix hr
  · exact h.trans hr

/-- What belongs to an entry of a branch belongs to the branch. -/
theorem Covers.trans {e q r : EntryPath} (h : e.Covers q) (h' : q.Covers r) : e.Covers r := by
  by_cases hd : q.hops.head? = some .dir
  · obtain ⟨hops⟩ := q
    obtain ⟨above, rfl⟩ := List.head?_eq_some_iff.mp hd
    rw [covers_container] at h'
    by_cases he : e.hops.head? = some .dir
    · obtain ⟨ehops⟩ := e
      obtain ⟨eabove, rfl⟩ := List.head?_eq_some_iff.mp he
      rw [covers_container] at h ⊢
      rcases within_dir_cons.mp h with rfl | h
      · exact h'
      · exact h.trans_suffix h'.suffix
    · rw [covers_leaf he] at h ⊢
      rcases List.suffix_cons_iff.mp h with heq | h
      · rw [heq] at he
        exact absurd rfl he
      · exact h.trans h'.suffix
  · rw [covers_leaf hd] at h'
    exact h.extend h'

theorem Covers.of_climb {e r : EntryPath} {above : List Step} (hr : climb above = some r) (h : e.Covers r) :
    e.Covers ⟨above⟩ := by
  match above, hr with
  | .child n :: rest, hr =>
    obtain rfl : EntryPath.dir ⟨rest⟩ = r := by simpa [climb] using hr
    unfold EntryPath.dir at h
    split at h
    · exact h.extend (List.suffix_cons ..)
    · by_cases hd : e.hops.head? = some .dir
      · obtain ⟨ehops⟩ := e
        obtain ⟨x, rfl⟩ := List.head?_eq_some_iff.mp hd
        rw [covers_container] at h ⊢
        exact within_child_cons.mpr (within_dir_cons.mp h)
      · rw [covers_leaf hd] at h ⊢
        rcases List.suffix_cons_iff.mp h with heq | h
        · rw [heq] at hd
          exact absurd rfl hd
        · exact h.trans (List.suffix_cons ..)
  | .dir :: rest, hr =>
    obtain rfl : (⟨rest⟩ : EntryPath) = r := by simpa [climb] using hr
    exact h.extend (List.suffix_cons ..)
  | .metadata :: rest, hr =>
    obtain rfl : (⟨rest⟩ : EntryPath) = r := by simpa [climb] using hr
    exact h.extend (List.suffix_cons ..)

theorem Covers.of_parent {e q r : EntryPath} (hr : q.parent true = some r) (h : e.Covers r) : e.Covers q := by
  unfold EntryPath.parent at hr
  split at hr
  · next above hq =>
    refine (h.of_climb (by simpa using hr)).extend ?_
    rw [hq]
    exact List.suffix_cons ..
  · exact h.of_climb hr

theorem Covers.of_ancestor {e q : EntryPath} : ∀ {r : EntryPath}, r ∈ q.ancestors → e.Covers r → e.Covers q := by
  induction q using EntryPath.ancestors.induct with
  | case1 q hq =>
    intro r hr h
    rw [EntryPath.ancestors, hq] at hr
    rw [← List.mem_singleton.mp hr]
    exact h
  | case2 q above hq ih =>
    intro r hr h
    rw [EntryPath.ancestors, hq] at hr
    rcases List.mem_cons.mp hr with rfl | hr
    · exact h
    · exact (ih hr h).of_parent hq

end EntryServer.EntryPath
