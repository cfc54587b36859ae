import EntryServer.Acl.Basic
import EntryServer.Proofs.EntryPath.Facets

/-! # Sealed entries

An entry is sealed if its way leads through the `auth` metadata of some entry, that is if it lies in the
branch of an access configuration. A container view that is not sealed holds the configuration of an entry
outside its branch only if it is that entry's metadata. -/
namespace EntryServer.Acl
set_option autoImplicit false
open EntryPath

/-- The way to the access configuration of an entry. -/
def authHops (above : List Step) : List Step := .child auth :: .metadata :: above

theorem isSegment_auth : IsSegment auth := by decide

theorem configOf_hops (p : EntryPath) : (configOf p).hops = authHops p.hops := by
  have hfile : p.parameters.file = p.parameters := file_of_head_ne_dir (by simp)
  rw [configOf, child_of_segment _ isSegment_auth, literalChild, hfile]
  rfl

theorem covers_configOf {p q : EntryPath} : (configOf p).Covers q ↔ authHops p.hops <:+ q.hops := by
  rw [covers_leaf (by rw [configOf_hops]; simp [authHops]), configOf_hops]

theorem sealedHops_iff {hops : List Step} :
    sealedHops hops = true ↔ ∃ above, authHops above <:+ hops := by
  induction hops using sealedHops.induct with
  | case1 n above ih =>
    rw [sealedHops, Bool.or_eq_true, decide_eq_true_eq, ih]
    constructor
    · rintro (rfl | ⟨rest, h⟩)
      · exact ⟨above, List.suffix_rfl⟩
      · exact ⟨rest, h.trans ((List.suffix_cons ..).trans (List.suffix_cons ..))⟩
    · rintro ⟨rest, h⟩
      rcases List.suffix_cons_iff.mp h with heq | h
      · obtain ⟨hn, -⟩ := List.cons.inj heq
        exact Or.inl (Step.child.inj hn).symm
      · rcases List.suffix_cons_iff.mp h with heq | h
        · simp [authHops] at heq
        · exact Or.inr ⟨rest, h⟩
  | case2 s above hs ih =>
    rw [sealedHops.eq_2 _ _ hs, ih]
    constructor
    · rintro ⟨rest, h⟩
      exact ⟨rest, h.trans (List.suffix_cons ..)⟩
    · rintro ⟨rest, h⟩
      rcases List.suffix_cons_iff.mp h with heq | h
      · obtain ⟨h1, h2⟩ := List.cons.inj heq
        exact absurd h2.symm (hs _ _ h1.symm)
      · exact ⟨rest, h⟩
  | case3 => simp [sealedHops, authHops]

/-- The locations of the access configuration of an entry. -/
def ConfigFacet (p : EntryPath) (l : Location) : Prop :=
  ∃ (q : EntryPath) (f : Facet), q.Canonical ∧ (configOf p).Covers q ∧ l = q.place.facet f

/-- The seal is the branch of some configuration. -/
theorem isSealed_iff {q : EntryPath} : isSealed q = true ↔ ∃ p, (configOf p).Covers q := by
  rw [isSealed, sealedHops_iff]
  constructor
  · rintro ⟨above, h⟩
    exact ⟨⟨above⟩, covers_configOf.mpr h⟩
  · rintro ⟨p, h⟩
    exact ⟨p.hops, covers_configOf.mp h⟩

theorem not_sealed_of_suffix {q : EntryPath} (hq : isSealed q = false) (above : List Step) :
    ¬ authHops above <:+ q.hops := by
  intro h
  rw [isSealed, sealedHops_iff.mpr ⟨above, h⟩] at hq
  cases hq

/-- Below the configuration of an entry that is not sealed there is no other one before the next metadata. -/
theorem eq_of_authHops_suffix {p a : EntryPath} (ha : isSealed a = false) {way : List Step} (hway : .metadata ∉ way)
    (h : authHops p.hops <:+ way ++ authHops a.hops) : p = a := by
  induction way with
  | nil =>
    rcases List.suffix_cons_iff.mp h with heq | h
    · exact EntryPath.ext (List.cons.inj (List.cons.inj heq).2).2
    · rcases List.suffix_cons_iff.mp h with heq | h
      · cases (List.cons.inj heq).1
      · exact absurd h (not_sealed_of_suffix ha p.hops)
  | cons s way ih =>
    rcases List.suffix_cons_iff.mp h with heq | h
    · have hmeta : .metadata :: p.hops = way ++ authHops a.hops := (List.cons.inj heq).2
      cases way with
      | nil => cases (List.cons.inj hmeta).1
      | cons s' way => exact absurd (by simp [(List.cons.inj hmeta).1]) hway
    · exact ih (fun hmem => hway (List.mem_cons_of_mem _ hmem)) h

theorem unsealed_ancestor {y a : EntryPath} (hsealed : isSealed y = false) (ha : a ∈ y.ancestors) :
    isSealed a = false := by
  rw [Bool.eq_false_iff] at hsealed ⊢
  intro hs
  obtain ⟨p, hp⟩ := isSealed_iff.mp hs
  exact hsealed (isSealed_iff.mpr ⟨p, hp.of_ancestor ha⟩)

theorem parameters_dir (p : EntryPath) : p.parameters.dir = ⟨.dir :: .metadata :: p.hops⟩ := by
  simp [EntryPath.dir, parameters, isContainer]

/-- An entry that is not sealed and is not a metadata root holds the configuration of an entry outside its
branch only as the container of that entry's metadata. -/
theorem covers_sealed_iff {e p q : EntryPath} (hsealed : isSealed e = false)
    (hmeta : e.hops.head? ≠ some .metadata) (hp : ¬ e.Covers p) (hq : authHops p.hops <:+ q.hops) :
    e.Covers q ↔ e = p.parameters.dir := by
  have hunsealed := not_sealed_of_suffix hsealed p.hops
  obtain ⟨hops⟩ := e
  constructor
  · intro h
    by_cases hd : hops.head? = some .dir
    · obtain ⟨above, rfl⟩ := List.head?_eq_some_iff.mp hd
      obtain ⟨s, hs, hsq⟩ := h
      rw [parameters_dir]
      rcases List.suffix_or_suffix_of_suffix hsq hq with hle | hle
      · rcases List.suffix_cons_iff.mp hle with heq | hle
        · rw [(List.cons.inj heq).2]
        · rcases List.suffix_cons_iff.mp hle with heq | hle
          · exact absurd (List.cons.inj heq).1 hs
          · exact absurd ⟨s, hs, hle⟩ hp
      · rcases List.suffix_cons_iff.mp hle with heq | hle
        · rw [(List.cons.inj heq).2]
        · exact absurd (hle.trans (List.suffix_cons ..)) hunsealed
    · rw [covers_leaf hd] at h hp
      rcases List.suffix_or_suffix_of_suffix h hq with hle | hle
      · rcases List.suffix_cons_iff.mp hle with rfl | hle
        · exact absurd List.suffix_rfl hunsealed
        · rcases List.suffix_cons_iff.mp hle with rfl | hle
          · exact absurd rfl hmeta
          · exact absurd hle hp
      · exact absurd hle hunsealed
  · intro h
    rw [parameters_dir] at h
    rw [h]
    exact ⟨.child auth, by simp, hq⟩

end EntryServer.Acl
