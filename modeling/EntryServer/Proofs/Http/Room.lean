import EntryServer.Proofs.Acl.Climbs
import EntryServer.Proofs.Http.Addressing
import EntryServer.Proofs.Http.Replacement

/-! # Names that leave room

The name of a file is a name of the path with an ending. Where the path is addressed by a request and its names have
at most 246 bytes, no file that is worked on for the request has a name that is too long. -/
namespace EntryServer.EntryPath
set_option autoImplicit false
open FileTree

/-! ## Metadata of metadata -/

/-- The way leads nowhere from metadata right into metadata. -/
def Spaced (hops : List Step) : Prop := ∀ above, ¬ .metadata :: .metadata :: above <:+ hops

section Spaced
variable {hops : List Step} {s : Step}

theorem Spaced.suffix {above : List Step} (h : Spaced hops) (hs : above <:+ hops) : Spaced above :=
  fun up hup => h up (hup.trans hs)

theorem Spaced.cons (h : Spaced hops) (hs : s ≠ .metadata) : Spaced (s :: hops) := by
  intro above hsuffix
  rcases List.suffix_cons_iff.mp hsuffix with heq | hsuffix
  · exact hs (List.cons.inj heq).1.symm
  · exact h above hsuffix

theorem Spaced.metadata (h : Spaced hops) (hm : hops.head? ≠ some .metadata) : Spaced (.metadata :: hops) := by
  intro above hsuffix
  rcases List.suffix_cons_iff.mp hsuffix with heq | hsuffix
  · rw [← (List.cons.inj heq).2] at hm
    exact hm rfl
  · exact h above hsuffix

theorem Spaced.dir {p : EntryPath} (h : Spaced p.hops) : Spaced p.dir.hops := by
  unfold EntryPath.dir
  split
  · exact h
  · exact h.cons (by simp)

theorem Spaced.children (h : Spaced hops) (names : List Text) : Spaced (names.map Step.child ++ hops) := by
  induction names with
  | nil => exact h
  | cons n names ih => exact ih.cons (by simp)

theorem Spaced.child {p : EntryPath} (h : Spaced p.hops) (name : Text) : Spaced (p.child name).hops := by
  have hfile : Spaced p.file.hops := by
    unfold EntryPath.file
    split
    · next above hp => exact h.suffix (hp ▸ List.suffix_cons ..)
    · exact h
  simp only [EntryPath.child]
  split
  · exact h.dir
  · split
    · exact Spaced.dir (hfile.children _)
    · exact hfile.children _

end Spaced

/-! ## Sizes of names -/

/-- The names of the way leave room for the endings of all files. -/
structure Roomy (hops : List Step) : Prop where
  names : ∀ n, .child n ∈ hops → Utf8.size n ≤ 246
  spaced : Spaced hops

namespace Roomy
variable {hops : List Step}

theorem suffix {above : List Step} (h : Roomy hops) (hs : above <:+ hops) : Roomy above :=
  ⟨fun n hn => h.names n (hs.subset hn), h.spaced.suffix hs⟩

theorem child {n : Text} (h : Roomy hops) (hn : Utf8.size n ≤ 246) : Roomy (.child n :: hops) := by
  refine ⟨fun m hm => ?_, h.spaced.cons (by simp)⟩
  rcases List.mem_cons.mp hm with heq | hm
  · exact Step.child.inj heq ▸ hn
  · exact h.names m hm

theorem metadata (h : Roomy hops) (hm : hops.head? ≠ some .metadata) : Roomy (.metadata :: hops) :=
  ⟨fun n hn => h.names n (by simpa using hn), h.spaced.metadata hm⟩

theorem dir {p : EntryPath} (h : Roomy p.hops) : Roomy p.dir.hops := by
  refine ⟨fun n hn => h.names n ?_, h.spaced.dir⟩
  unfold EntryPath.dir at hn
  split at hn
  · exact hn
  · simpa using hn

/-- The beginning of a file name leaves 8 bytes for an ending, or 4 if it ends in that of the metadata. -/
theorem place (h : Roomy hops) : NamesFit (placeOf hops).folder ∧
    Utf8.size (placeOf hops).stem + (if hops.head? = some .metadata then 4 else 8) ≤ nameLimit := by
  have hchildren : ∀ at_ : Place, NamesFit at_.folder → Utf8.size at_.stem + 4 ≤ nameLimit → NamesFit at_.children := by
    intro at_ hfolder hstem
    rw [Place.children]
    split
    · exact hfolder
    · refine List.forall_mem_cons.mpr ⟨?_, hfolder⟩
      rw [Utf8.size_append]
      exact Nat.le_trans (Nat.add_le_add_left (by decide) _) hstem
  induction hops with
  | nil => exact ⟨List.forall_mem_nil _, by decide⟩
  | cons s above ih =>
    obtain ⟨hfolder, hstem⟩ := ih (h.suffix (List.suffix_cons ..))
    have habove : NamesFit (placeOf above).children := hchildren _ hfolder (by split at hstem <;> omega)
    cases s with
    | child n =>
      have hn := h.names n (List.mem_cons_self ..)
      have hdot : Utf8.size ['.'] = 1 := by decide
      have hlimit : nameLimit = 255 := rfl
      refine ⟨habove, ?_⟩
      simp only [placeOf, Utf8.size_append, hdot, List.head?_cons, Option.some.injEq, reduceCtorEq, if_false]
      omega
    | dir => exact ⟨habove, by simp [placeOf, Utf8.size, nameLimit]⟩
    | metadata =>
      have hm : above.head? ≠ some .metadata := by
        intro hhead
        obtain ⟨up, rfl⟩ := List.head?_eq_some_iff.mp hhead
        exact h.spaced up List.suffix_rfl
      have hmeta : Utf8.size "meta".toList = 4 := by decide
      rw [if_neg hm] at hstem
      refine ⟨hfolder, ?_⟩
      simp only [placeOf, Utf8.size_append, hmeta, List.head?_cons, if_true]
      omega

theorem staging {p : EntryPath} (h : Roomy p.hops) (hm : p.hops.head? ≠ some .metadata) : NamesFit p.place.staging := by
  obtain ⟨hfolder, hstem⟩ := h.place
  rw [if_neg hm] at hstem
  refine List.forall_mem_cons.mpr ⟨?_, hfolder⟩
  rw [Utf8.size_append]
  exact hstem

/-! ### Ancestors -/

/-- Climbing never stops at the metadata root of an entry. -/
theorem parent {p q : EntryPath} (h : Roomy p.hops) (hp : p.Canonical)
    (hq : p.parent true = some q) : Roomy q.hops ∧ q.hops.head? ≠ some .metadata := by
  obtain ⟨hops⟩ := p
  have hclimb : ∀ above : List Step, Roomy above → above.head? ≠ some .dir → climb above = some q →
      Roomy q.hops ∧ q.hops.head? ≠ some .metadata := by
    intro above habove hd hq
    match above, habove, hd, hq with
    | .child n :: up, habove, _, hq =>
      obtain rfl : EntryPath.dir ⟨up⟩ = q := by simpa [climb] using hq
      exact ⟨dir (habove.suffix (List.suffix_cons ..)), dir_head_ne_metadata _⟩
    | .dir :: up, _, hd, _ => exact absurd rfl hd
    | .metadata :: up, habove, _, hq =>
      obtain rfl : (⟨up⟩ : EntryPath) = q := by simpa [climb] using hq
      refine ⟨habove.suffix (List.suffix_cons ..), fun hhead => ?_⟩
      obtain ⟨above, rfl⟩ := List.head?_eq_some_iff.mp hhead
      exact habove.spaced above List.suffix_rfl
  unfold EntryPath.parent at hq
  split at hq
  · next above heq =>
    obtain rfl : hops = .dir :: above := heq
    exact hclimb above (h.suffix (List.suffix_cons ..)) hp.2.1 (by simpa using hq)
  · next hne =>
    refine hclimb hops h (fun hd => ?_) hq
    obtain ⟨above, rfl⟩ := List.head?_eq_some_iff.mp hd
    exact hne above rfl

theorem ancestors {p : EntryPath} (h : Roomy p.hops) (hp : p.Canonical) (hm : p.hops.head? ≠ some .metadata) :
    ∀ a ∈ p.ancestors, Roomy a.hops ∧ a.hops.head? ≠ some .metadata := by
  induction p using EntryPath.ancestors.induct with
  | case1 p hnone =>
    rw [EntryPath.ancestors, hnone]
    exact List.forall_mem_singleton.mpr ⟨h, hm⟩
  | case2 p q hq ih =>
    obtain ⟨hroomy, hhead⟩ := h.parent hp hq
    rw [EntryPath.ancestors, hq]
    exact List.forall_mem_cons.mpr ⟨⟨h, hm⟩, ih hroomy (hp.parent hq) hhead⟩

end Roomy

end EntryPath

namespace Http
open EntryPath FileTree

/-! ## Files of an entry -/

section Files
variable {e : EntryPath}

/-- The configurations above an entry can be looked up. -/
theorem namesFit_configs (h : Roomy e.hops) (he : e.Canonical) (hm : e.hops.head? ≠ some .metadata) :
    ∀ a ∈ e.ancestors, NamesFit (Acl.configFolder a) := by
  intro a ha
  obtain ⟨hroomy, hhead⟩ := h.ancestors he hm a ha
  have hconfig : Roomy (Acl.configOf a).hops := by
    rw [Acl.configOf_hops]
    exact (hroomy.metadata hhead).child (by decide)
  have hstaging := hconfig.staging (by rw [Acl.configOf_hops]; simp [Acl.authHops])
  obtain ⟨hname, hfolder⟩ := List.forall_mem_cons.mp hstaging
  rw [Acl.configFolder, Place.children]
  split
  · exact hfolder
  · refine List.forall_mem_cons.mpr ⟨Nat.le_trans ?_ hname, hfolder⟩
    rw [Utf8.size_append, Utf8.size_append]
    exact Nat.add_le_add_left (by decide) _

theorem roomy_typeOf (h : Roomy e.hops) (hm : e.hops.head? ≠ some .metadata) : Roomy (Entry.typeOf e).hops := by
  rw [Entry.typeOf_hops]
  exact ((h.metadata hm).child (by decide)).child (by decide)

end Files

/-! ## Addressed entries -/

namespace Addressed

/-- The parameters of a target, by name and value. -/
def pairs (target : Target) : List (Text × Text) :=
  match target.query with
  | some query => Percent.queryPairs (Utf8.encode query)
  | none => []

theorem resolve_entry (header : Option Bytes) (target : Target) : (resolve header target).entry =
    (pairs target).foldl descend
      ((siteOf (hostOf header target)).child (Percent.decode (Utf8.encode target.path))) := rfl

theorem spaced_of_no_metadata {hops : List Step} (h : .metadata ∉ hops) : Spaced hops :=
  fun _ hs => h (hs.subset (List.mem_cons_self ..))

theorem resolve_spaced (header : Option Bytes) (target : Target) : Spaced (resolve header target).entry.hops := by
  have hsite := metadata_not_mem_child (metadata_not_mem_siteOf (hostOf header target))
    (Percent.decode (Utf8.encode target.path))
  have hfold : ∀ (pairs : List (Text × Text)) {e : EntryPath}, Spaced e.hops → e.hops.head? ≠ some .metadata →
      Spaced (pairs.foldl descend e).hops := by
    intro pairs
    induction pairs with
    | nil => exact fun h _ => h
    | cons pair pairs ih =>
      intro e h hm
      rw [List.foldl_cons, descend]
      split
      · exact ih (Spaced.child (h.metadata hm) _) (child_head_ne_metadata _ _)
      · exact ih h hm
  rw [resolve_entry]
  exact hfold _ (spaced_of_no_metadata hsite) (child_head_ne_metadata _ _)

theorem child_not_metadata (p : EntryPath) {name : Text} (h : clean name ≠ []) (above : List Step) :
    (p.child name).hops ≠ .dir :: .metadata :: above := by
  obtain ⟨n, rest, hn⟩ := List.exists_cons_of_ne_nil h
  simp only [EntryPath.child, hn, List.cons_ne_nil, if_false, List.map_cons, List.cons_append]
  split
  · simp [EntryPath.dir, isContainer]
  · simp

/-- An entry is not the container of its owner's metadata, if every `meta` leads to a child. -/
theorem resolve_named (header : Option Bytes) {target : Target}
    (hmeta : ∀ value, (metaKey, value) ∈ pairs target → clean value ≠ []) (above : List Step) :
    (resolve header target).entry.hops ≠ .dir :: .metadata :: above := by
  have hsite := metadata_not_mem_child (metadata_not_mem_siteOf (hostOf header target))
    (Percent.decode (Utf8.encode target.path))
  have hfold : ∀ (pairs : List (Text × Text)) {e : EntryPath}, (∀ value, (metaKey, value) ∈ pairs → clean value ≠ []) →
      (∀ above, e.hops ≠ .dir :: .metadata :: above) →
      ∀ above, (pairs.foldl descend e).hops ≠ .dir :: .metadata :: above := by
    intro pairs
    induction pairs with
    | nil => exact fun _ h => h
    | cons pair pairs ih =>
      intro e hmeta h
      rw [List.foldl_cons, descend]
      obtain ⟨key, value⟩ := pair
      refine ih (fun value hv => hmeta value (List.mem_cons_of_mem _ hv)) ?_
      split
      · next hkey =>
        obtain rfl : key = metaKey := hkey
        exact child_not_metadata _ (hmeta value (List.mem_cons_self ..))
      · exact h
  rw [resolve_entry]
  refine hfold _ hmeta (fun above heq => hsite ?_) above
  rw [heq]
  exact List.mem_cons_of_mem _ (List.mem_cons_self ..)

end Addressed
end Http
end EntryServer
