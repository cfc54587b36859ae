import EntryServer.Http.Site
import EntryServer.Proofs.EntryPath.Canonical

/-! # What requests can address

Whatever a request names, it addresses a canonical path that does not end in a metadata hop: the child that
a name leads to is reached by name, or is a container view. -/
namespace EntryServer.EntryPath
set_option autoImplicit false

theorem dir_head_ne_metadata (p : EntryPath) : p.dir.hops.head? ≠ some .metadata := by
  unfold dir
  split
  · next h =>
    rcases isContainer_iff.mp h with h | h
    · simp [h]
    · simp [h]
  · simp

theorem child_head_ne_metadata (p : EntryPath) (name : Text) : (p.child name).hops.head? ≠ some .metadata := by
  simp only [child]
  split
  · exact dir_head_ne_metadata p
  · next h =>
    split
    · exact dir_head_ne_metadata _
    · obtain ⟨n, rest, hn⟩ := List.exists_cons_of_ne_nil h
      simp [hn]

theorem mem_file {p : EntryPath} {s : Step} (h : s ∈ p.file.hops) : s ∈ p.hops := by
  unfold file at h
  split at h
  · next hp =>
    rw [hp]
    exact List.mem_cons_of_mem _ h
  · exact h

theorem metadata_not_mem_child {p : EntryPath} (hp : .metadata ∉ p.hops) (name : Text) :
    .metadata ∉ (p.child name).hops := by
  have hdir : ∀ q : EntryPath, .metadata ∉ q.hops → .metadata ∉ q.dir.hops := by
    intro q hq
    unfold dir
    split
    · exact hq
    · simpa using hq
  simp only [child]
  split
  · exact hdir p hp
  · have hleaf : .metadata ∉ (clean name).map Step.child ++ p.file.hops := by
      intro h
      rcases List.mem_append.mp h with h | h
      · obtain ⟨n, -, hn⟩ := List.mem_map.mp h
        cases hn
      · exact hp (mem_file h)
    split
    · exact hdir _ hleaf
    · exact hleaf

end EntryPath

namespace Http
open EntryPath

namespace Target

/-- A path that begins where an authority ends begins with a slash. -/
theorem ofPathAndQuery_path (authority : Option Text) {t : Text}
    (h : ∀ c, t.head? = some c → endsAuthority c = true) :
    (ofPathAndQuery authority t).path.head? = some '/' := by
  cases t with
  | nil => rfl
  | cons c rest =>
    have hc := h c rfl
    rw [endsAuthority, Bool.or_eq_true, decide_eq_true_eq, decide_eq_true_eq] at hc
    rcases hc with rfl | rfl
    · simp [ofPathAndQuery]
    · simp [ofPathAndQuery]

theorem endsAuthority_head {rest : Text} {c : Char}
    (h : (rest.dropWhile fun c => !endsAuthority c).head? = some c) : endsAuthority c = true := by
  induction rest with
  | nil => cases h
  | cons d rest ih =>
    rw [List.dropWhile_cons] at h
    split at h
    · exact ih h
    · next hd =>
      obtain rfl : d = c := Option.some.inj h
      simpa using hd

theorem query_of_no_path {t : Text} (h : (parse t).path.head? ≠ some '/') : (parse t).query = none := by
  simp only [parse] at h ⊢
  split
  · next heq =>
    rw [heq] at h
    refine absurd (ofPathAndQuery_path none fun c hc => ?_) h
    obtain rfl : '/' = c := Option.some.inj hc
    rfl
  · next heq =>
    rw [heq]
    rfl
  · next hslash hstar =>
    split at h
    · next heq => exact absurd heq (hslash _)
    · next heq => exact absurd heq hstar
    · split
      · next rest hrest =>
        rw [hrest] at h
        exact absurd (ofPathAndQuery_path _ fun c hc => endsAuthority_head hc) h
      · rfl

end Target

namespace Addressed

theorem siteOf_canonical (host : Option Bytes) : (siteOf host).Canonical := by
  unfold siteOf
  split
  · exact canonical_root.child _
  · exact canonical_root.child _

theorem metadata_not_mem_siteOf (host : Option Bytes) : .metadata ∉ (siteOf host).hops := by
  unfold siteOf
  split
  · exact metadata_not_mem_child (by simp [EntryPath.root]) _
  · exact metadata_not_mem_child (by simp [EntryPath.root]) _

theorem descend_foldl_canonical (pairs : List (Text × Text)) {e : EntryPath} (he : e.Canonical) :
    (pairs.foldl descend e).Canonical := by
  induction pairs generalizing e with
  | nil => exact he
  | cons pair pairs ih =>
    rw [List.foldl_cons]
    apply ih
    unfold descend
    split
    · exact he.parameters.child _
    · exact he

theorem descend_foldl_head (pairs : List (Text × Text)) {e : EntryPath} (he : e.hops.head? ≠ some .metadata) :
    (pairs.foldl descend e).hops.head? ≠ some .metadata := by
  induction pairs generalizing e with
  | nil => exact he
  | cons pair pairs ih =>
    rw [List.foldl_cons]
    apply ih
    unfold descend
    split
    · exact child_head_ne_metadata _ _
    · exact he

theorem resolve_canonical (header : Option Bytes) (target : Target) : (resolve header target).entry.Canonical :=
  descend_foldl_canonical _ ((siteOf_canonical _).child _)

theorem resolve_head (header : Option Bytes) (target : Target) :
    (resolve header target).entry.hops.head? ≠ some .metadata :=
  descend_foldl_head _ (child_head_ne_metadata _ _)

theorem metadata_not_mem_resolve (header : Option Bytes) {target : Target} (h : target.query = none) :
    .metadata ∉ (resolve header target).entry.hops := by
  simp only [resolve, h, List.foldl_nil]
  exact metadata_not_mem_child (metadata_not_mem_siteOf _) _

end Addressed
end Http
end EntryServer
