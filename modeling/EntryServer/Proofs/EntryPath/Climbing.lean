import EntryServer.Proofs.EntryPath.Resolution
import Mathlib.Data.List.Chain

/-! # Climbing to the root

Each hop down to a child or into the metadata is undone by one climb, container views aside, and each climb goes up one
level. So a climb from any entry ends at the root after as many hops as the entry has levels, and what it meets on the
way are the entries that were gone through. -/
namespace EntryServer.EntryPath
set_option autoImplicit false

/-! ## One hop up -/

section Hops
variable {p q : EntryPath} {n name : Text}

theorem parent_of_head_ne_dir {hops : List Step} (h : hops.head? ≠ some .dir) (force : Bool) :
    (⟨hops⟩ : EntryPath).parent force = climb hops := by
  unfold parent
  split
  · next above hhops =>
    obtain rfl : hops = .dir :: above := hhops
    exact absurd rfl h
  · rfl

/-- The climb out of a container is the climb out of its leaf view. -/
theorem parent_dir (p : EntryPath) : p.dir.parent true = p.parent true := by
  cases h : p.isContainer with
  | true => rw [dir, h]; rfl
  | false => rw [dir_of_leaf h, parent_of_head_ne_dir (isLeaf_iff.mp h).2]; rfl

theorem parent_file (hp : p.Canonical) : p.file.parent true = p.parent true := by
  rw [← parent_dir, dir_file hp, parent_dir]

/-- Without force a marker is dropped, and that is all. -/
theorem parent_marked (h : p.dir.hops.head? = some .dir) : p.dir.parent false = some p.file := by
  obtain ⟨above, hhops⟩ := List.head?_eq_some_iff.mp h
  rw [← file_dir, parent, file, hhops]
  rfl

theorem parent_literalChild (hp : p.Canonical) (n : Text) : (p.literalChild n).parent true = some p.dir := by
  rw [← dir_file hp]
  rfl

/-- Whatever is around the one segment of a name, it leads to that child. -/
theorem child_of_clean (hp : p.Canonical) (h : clean name = [n]) :
    p.child name = (p.literalChild n).dir ∨ p.child name = p.literalChild n := by
  have hbelow : p.below [n] = p.literalChild n := rfl
  rw [child_eq hp, h, hbelow]
  split
  · exact Or.inl rfl
  · exact Or.inr rfl

theorem parent_child (hp : p.Canonical) (h : clean name = [n]) : (p.child name).parent true = some p.dir := by
  rcases child_of_clean hp h with hchild | hchild
  · rw [hchild, parent_dir, parent_literalChild hp]
  · rw [hchild, parent_literalChild hp]

theorem parent_parameters (p : EntryPath) : p.parameters.parent true = some p := rfl

theorem level_climb {hops : List Step} (hd : hops.head? ≠ some .dir) (hq : climb hops = some q) :
    q.level + 1 = level ⟨hops⟩ := by
  match hops, hq with
  | .child n :: above, hq =>
    obtain rfl : EntryPath.dir ⟨above⟩ = q := by simpa [climb] using hq
    rw [level_dir, level, level, List.countP_cons_of_pos (by simp)]
  | .dir :: above, hq => exact absurd rfl hd
  | .metadata :: above, hq =>
    obtain rfl : (⟨above⟩ : EntryPath) = q := by simpa [climb] using hq
    rw [level, level, List.countP_cons_of_pos (by simp)]

/-- A climb goes up by one level. -/
theorem level_parent (hp : p.Canonical) (hq : p.parent true = some q) : q.level + 1 = p.level := by
  rw [← parent_file hp, parent_of_head_ne_dir (file_head_ne_dir hp)] at hq
  rw [level_climb (file_head_ne_dir hp) hq]
  exact level_file p

theorem exists_climb {hops : List Step} (h : hops ≠ []) : ∃ q, climb hops = some q := by
  match hops, h with
  | .child n :: above, _ => exact ⟨_, rfl⟩
  | .dir :: above, _ => exact ⟨_, rfl⟩
  | .metadata :: above, _ => exact ⟨_, rfl⟩

/-- Every entry but the root has a parent. -/
theorem exists_parent (hp : p.Canonical) (h : p ≠ root) : ∃ q, p.parent true = some q := by
  have hne : p.file.hops ≠ [] := file_hops_ne_nil hp fun hnil => h (EntryPath.ext hnil)
  rw [← parent_file hp, parent_of_head_ne_dir (file_head_ne_dir hp)]
  exact exists_climb hne

theorem eq_root_of_no_parent (hp : p.Canonical) (h : p.parent true = none) : p = root := by
  by_contra hroot
  obtain ⟨q, hq⟩ := exists_parent hp hroot
  rw [h] at hq
  cases hq

end Hops

/-! ## The whole climb -/

section Ancestors
variable {p q : EntryPath}

theorem ancestors_of_parent (h : p.parent true = some q) : p.ancestors = p :: q.ancestors := by
  rw [ancestors, h]

theorem ancestors_of_no_parent (h : p.parent true = none) : p.ancestors = [p] := by
  rw [ancestors, h]

theorem head_ancestors (p : EntryPath) : p.ancestors.head? = some p := by
  cases h : p.parent true with
  | none => rw [ancestors_of_no_parent h]; rfl
  | some q => rw [ancestors_of_parent h]; rfl

/-- Each ancestor is the parent of the one before it. -/
theorem isChain_ancestors (p : EntryPath) : p.ancestors.IsChain fun q above => q.parent true = some above := by
  induction p using ancestors.induct with
  | case1 p hnone =>
    rw [ancestors_of_no_parent hnone]
    exact List.isChain_singleton _
  | case2 p q hq ih =>
    rw [ancestors_of_parent hq, List.isChain_cons]
    refine ⟨fun above habove => ?_, ih⟩
    rw [head_ancestors] at habove
    rw [hq, Option.some.inj habove]

theorem getLast_ancestors (hp : p.Canonical) : p.ancestors.getLast? = some root := by
  induction p using ancestors.induct with
  | case1 p hnone =>
    rw [ancestors_of_no_parent hnone, eq_root_of_no_parent hp hnone]
    rfl
  | case2 p q hq ih =>
    have hne : q.ancestors ≠ [] := fun hnil => by simpa [hnil] using head_ancestors q
    rw [ancestors_of_parent hq, List.getLast?_cons_of_ne_nil hne]
    exact ih (hp.parent hq)

/-- There is one ancestor on each level from that of the entry down to that of the root. -/
theorem levels_ancestors (hp : p.Canonical) : p.ancestors.map level = (List.range (p.level + 1)).reverse := by
  induction p using ancestors.induct with
  | case1 p hnone =>
    rw [ancestors_of_no_parent hnone, eq_root_of_no_parent hp hnone]
    rfl
  | case2 p q hq ih =>
    rw [ancestors_of_parent hq, List.map_cons, ih (hp.parent hq), ← level_parent hp hq,
      @List.range_succ (q.level + 1), List.reverse_append]
    rfl

theorem level_lt_of_mem_ancestors (hp : p.Canonical) (hq : q ∈ p.ancestors) (hne : q ≠ p) : q.level < p.level := by
  cases h : p.parent true with
  | none =>
    rw [ancestors_of_no_parent h] at hq
    exact absurd (List.mem_singleton.mp hq) hne
  | some above =>
    rw [ancestors_of_parent h] at hq
    have hlevel := List.mem_map_of_mem (f := level) ((List.mem_cons.mp hq).resolve_left hne)
    rw [levels_ancestors (hp.parent h), List.mem_reverse, List.mem_range, level_parent hp h] at hlevel
    exact hlevel

theorem ancestors_dir (p : EntryPath) : p.dir.ancestors.map dir = p.ancestors.map dir := by
  cases h : p.parent true with
  | none =>
    rw [ancestors_of_no_parent h, ancestors_of_no_parent ((parent_dir p).trans h)]
    simp [dir_dir]
  | some q =>
    rw [ancestors_of_parent h, ancestors_of_parent ((parent_dir p).trans h)]
    simp [dir_dir]

end Ancestors

/-! ## Down and up again -/

/-- Entries that are gone through, to children by names of one segment and into metadata, the latest one first. What
is above the entry they start from comes last. -/
inductive Visited : List EntryPath → Prop
  | start {p : EntryPath} (hp : p.Canonical) : Visited p.ancestors
  | child {p : EntryPath} {way : List EntryPath} {name n : Text} (hname : clean name = [n])
    (hway : Visited (p :: way)) : Visited (p.child name :: p :: way)
  | parameters {p : EntryPath} {way : List EntryPath} (hway : Visited (p :: way)) :
    Visited (p.parameters :: p :: way)

/-- What a climb meets that ends at the root. -/
structure ClimbsThrough (p : EntryPath) (way : List EntryPath) : Prop where
  first : p.ancestors.head? = some p
  climbs : p.ancestors.IsChain fun q above => q.parent true = some above
  /-- It ends at the root, which has no parent. -/
  last : p.ancestors.getLast? = some root ∧ root.parent true = none
  length : p.ancestors.length = p.level + 1
  levels : p.ancestors.map level = way.map level
  names : p.ancestors.map name = way.map name

section Ways
variable {p : EntryPath} {way : List EntryPath}

theorem Visited.canonical (h : Visited way) : ∀ p ∈ way, p.Canonical := by
  induction h with
  | start hp => exact hp.ancestors
  | child _ _ ih =>
    have hp := ih _ (List.mem_cons_self ..)
    exact List.forall_mem_cons.mpr ⟨hp.child _, ih⟩
  | parameters _ ih =>
    have hp := ih _ (List.mem_cons_self ..)
    exact List.forall_mem_cons.mpr ⟨hp.parameters, ih⟩

/-- The climb meets the entries that were gone through, in one view or the other. -/
theorem Visited.ancestors (h : Visited (p :: way)) : p.ancestors.map dir = (p :: way).map dir := by
  generalize hall : p :: way = all at h
  induction h generalizing p way with
  | @start q hp =>
    have hhead := head_ancestors q
    rw [← hall] at hhead
    rw [Option.some.inj hhead]
  | @child q before name n hname hway ih =>
    obtain ⟨rfl, rfl⟩ := List.cons.inj hall
    have hq := hway.canonical _ (List.mem_cons_self ..)
    rw [ancestors_of_parent (parent_child hq hname), List.map_cons, ancestors_dir, ih rfl]
    rfl
  | @parameters q before hway ih =>
    obtain ⟨rfl, rfl⟩ := List.cons.inj hall
    rw [ancestors_of_parent (parent_parameters q), List.map_cons, ih rfl]
    rfl

theorem Visited.climbs (h : Visited (p :: way)) : ClimbsThrough p (p :: way) where
  first := head_ancestors p
  climbs := isChain_ancestors p
  last := ⟨getLast_ancestors (h.canonical p (List.mem_cons_self ..)), rfl⟩
  length := by
    have hlevels := congrArg List.length (levels_ancestors (h.canonical p (List.mem_cons_self ..)))
    simpa using hlevels
  levels := by
    have hview : level ∘ dir = level := funext level_dir
    have hmap := congrArg (List.map level) h.ancestors
    rwa [List.map_map, List.map_map, hview] at hmap
  names := by
    have hview : name ∘ dir = name := funext name_dir
    have hmap := congrArg (List.map name) h.ancestors
    rwa [List.map_map, List.map_map, hview] at hmap

end Ways

/-- A climb undoes a hop down to a child, to the container view of where it came from, and a hop into the metadata
altogether. It leads from every entry but the root to one that is canonical again, one level up, and from both views of
an entry to the same one. So the climb from an entry ends at the root, after one entry for each level, and meets the
levels and the names that were gone through to get there, from wherever that was. -/
theorem climbs_undo_hops :
    (∀ p name n, Canonical p → clean name = [n] → (p.child name).parent true = some p.dir) ∧
    (∀ p : EntryPath, p.parameters.parent true = some p) ∧
    (∀ p, Canonical p → p ≠ root → p.dir.parent true = p.file.parent true ∧
      ∃ q, p.parent true = some q ∧ q.Canonical ∧ q.level + 1 = p.level) ∧
    (∀ p : EntryPath, p.dir.hops.head? = some .dir → p.dir.parent false = some p.file) ∧
    ∀ p way, Visited (p :: way) → ClimbsThrough p (p :: way) := by
  refine ⟨fun p name n => parent_child, parent_parameters, fun p hp hroot => ⟨?_, ?_⟩, fun p => parent_marked,
    fun p way => Visited.climbs⟩
  · rw [parent_dir, parent_file hp]
  · obtain ⟨q, hq⟩ := exists_parent hp hroot
    exact ⟨q, hq, hp.parent hq, level_parent hp hq⟩

/-- Down to a page of a host by a name that goes back and ends with a slash, into its metadata, and up again. -/
theorem climbs_undo_hops_page :
    let host := root.child "host/".toList
    let page := host.child "draft/../page/".toList
    page.parent true = some host ∧ page.parameters.parent true = some page ∧
      page.dir.parent true = page.file.parent true ∧ page.parent false = some page.file ∧
      ClimbsThrough (page.parameters.child "auth".toList)
        [page.parameters.child "auth".toList, page.parameters, page, host, root] := by
  intro host page
  have hhost : host.Canonical := canonical_root.child _
  have hpage : clean "draft/../page/".toList = ["page".toList] := by decide +kernel
  obtain ⟨hchild, hparameters, hviews, hmarked, hways⟩ := climbs_undo_hops
  refine ⟨hchild host _ _ hhost hpage, hparameters page, (hviews page (hhost.child _) (by decide +kernel)).1,
    hmarked page rfl, hways _ _ ?_⟩
  have hauth : clean "auth".toList = ["auth".toList] := by decide +kernel
  have hname : clean "host/".toList = ["host".toList] := by decide +kernel
  have hroot : root.ancestors = [root] := ancestors_of_no_parent rfl
  have hstart : Visited [root] := hroot ▸ .start canonical_root
  exact .child hauth (.parameters (.child hpage (.child hname hstart)))

end EntryServer.EntryPath
