import EntryServer.Proofs.Acl.Listing
import EntryServer.Proofs.EntryPath.Climbing
import EntryServer.Proofs.Store.Pruning

/-! # Children and what lies below them

The children are read off the names in one folder. Whatever lies there, a listed child is one that its name leads
to, and nothing that has a content is lost: on the way to the content of a descendant there is always a name in the
folder that tells of the child. -/
namespace EntryServer.Store
set_option autoImplicit false
open EntryPath FileTree
open Acl (Slashless)

/-! ## Listed names -/

section Listed
variable {t : FileTree} {e c : EntryPath} {found : List EntryPath}

/-- What is listed is read off names that are in the folder of the children, if there is such a folder. -/
theorem exists_listed (h : children t e = .ok found) :
    ∃ listed, (t.list e.place.children = .ok listed ∨ t.list e.place.children = .error .notFound ∧ listed = []) ∧
      found = (sorted (listed.filterMap childBase?)).map e.literalChild := by
  rw [children] at h
  split at h
  · next listed hlist => exact ⟨listed, Or.inl hlist, (Except.ok.inj h).symm⟩
  · next hlist => exact ⟨[], Or.inr ⟨hlist, rfl⟩, (Except.ok.inj h).symm⟩
  · cases h

theorem names_literalChildren (e : EntryPath) (names : List Text) :
    (names.map e.literalChild).map EntryPath.name = names := by
  rw [List.map_map]
  exact List.map_id _

theorem namesIn_of_list {listed : List Text} {folder : Location} (h : t.list folder = .ok listed) :
    t.namesIn folder = listed := by
  rw [FileTree.list] at h
  split at h
  · cases h
  · cases h
  · exact Except.ok.inj h

theorem node?_of_list_notFound (ht : t.Rooted) {folder : Location} (h : t.list folder = .error .notFound) :
    t.node? folder = none := by
  rw [FileTree.list] at h
  split at h
  · next hslot =>
    cases h
    exact node?_of_slot_notFound ht (slot_of_folderSlot_notFound hslot).1
  · next hslot => exact node?_of_slot (folderSlot_eq_ok_iff.mp hslot).1
  · cases h

theorem names_ascending (h : children t e = .ok found) :
    (found.map (·.name)).Pairwise fun m n => Utf8.encode m < Utf8.encode n := by
  obtain ⟨listed, -, rfl⟩ := exists_listed h
  rw [names_literalChildren]
  exact (pairwise_sorted _).imp Utf8.encode_lt

/-- A listed child has a segment for its name, whatever the names in the folder are. -/
theorem segment_of_listed (hnames : Slashless t) (h : children t e = .ok found) (hc : c ∈ found) :
    IsSegment c.name ∧ c = e.literalChild c.name := by
  obtain ⟨listed, hlist, rfl⟩ := exists_listed h
  obtain ⟨name, hname, rfl⟩ := List.mem_map.mp hc
  obtain ⟨fileName, hfile, hbase⟩ := List.mem_filterMap.mp (mem_sorted.mp hname)
  rcases hlist with hlist | ⟨-, rfl⟩
  · have hslash : '/' ∉ fileName := hnames.namesIn (by rwa [namesIn_of_list hlist])
    exact ⟨childBase?_segment hslash hbase, rfl⟩
  · cases hfile

end Listed

/-! ## Names on the way -/

/-- In the folder where a way goes on to a child lies a name that tells of the child: its own, or one of its
metadata, or a folder of either. -/
theorem exists_name_on_way {above hops : List Step} {n : Text} (h : .child n :: above <:+ hops) :
    ∃ k, ∃ f : Facet, f ≠ .staging ∧
      (n ++ ['.'] ++ (metaText k ++ f.ending)) :: (placeOf above).children <:+ (placeOf hops).facet .data := by
  have hplace : ∀ k f, (placeOf (deeper k (.child n :: above))).facet f =
      (n ++ ['.'] ++ (metaText k ++ f.ending)) :: (placeOf above).children := by
    intro k f
    rw [placeOf_deeper, Place.facet, placeOf, List.append_assoc]
  have hends : ∃ k, hops = deeper k (.child n :: above) ∨ Within (deeper k (.child n :: above)) hops := by
    rcases within_or_metadata h with rfl | hw | hm
    · exact ⟨0, Or.inl rfl⟩
    · exact ⟨0, Or.inr hw⟩
    · obtain ⟨k, hk⟩ := deeper_or_within hm
      exact ⟨k + 1, hk⟩
  obtain ⟨k, rfl | hw⟩ := hends
  · exact ⟨k, .data, by simp, [], (hplace k .data).symm⟩
  · refine ⟨k, .children, by simp, ?_⟩
    rw [← hplace]
    refine (suffix_folder_of_within ?_ ?_ hw).trans (List.suffix_cons ..)
    · cases k <;> simp [deeper, List.replicate_succ]
    · cases k <;> simp [deeper, List.replicate_succ]

theorem node?_of_hasData {t : FileTree} {q : EntryPath} (h : hasData t q = true) : t.node? q.place.data ≠ none := by
  rw [hasData, isFile] at h
  split at h
  · next i hslot =>
    rw [node?_of_slot hslot]
    exact Option.some_ne_none _
  · cases h

/-- A child below which anything has a content is among the listed ones. -/
theorem listed_of_content {t : FileTree} {e q : EntryPath} {found : List EntryPath} {n : Text} (ht : t.Rooted)
    (h : children t e = .ok found) (hq : q.Canonical) (hway : .child n :: e.file.hops <:+ q.hops)
    (hdata : hasData t q = true) : n ∈ found.map (·.name) := by
  have hn : IsSegment n := (hq.suffix hway).1
  obtain ⟨k, f, hf, hsuffix⟩ := exists_name_on_way hway
  have hfolder : (placeOf e.file.hops).children = e.place.children := children_file e
  rw [hfolder] at hsuffix
  have hthere : ∀ l, l <:+ q.place.data → t.node? l ≠ none :=
    fun l hl hnone => node?_of_hasData hdata (ht.node_below hl hnone)
  obtain ⟨listed, hlist, rfl⟩ := exists_listed h
  rw [names_literalChildren, mem_sorted, List.mem_filterMap]
  rcases hlist with hlist | ⟨hlist, -⟩
  · refine ⟨_, ?_, childBase?_facet (k := k) hn (Or.inr hf)⟩
    rw [← namesIn_of_list hlist, mem_namesIn]
    exact Option.isSome_iff_ne_none.mpr (hthere _ hsuffix)
  · exact absurd (node?_of_list_notFound ht hlist) (hthere _ ((List.suffix_cons ..).trans hsuffix))

/-! ## The listing -/

theorem Sound.slashless {t : FileTree} (ht : Sound t) : Slashless t := by
  rintro ⟨l, node⟩ hmem name hname hslash
  have hl : l ≠ [] := List.ne_nil_of_mem hname
  obtain ⟨there, hthere⟩ := node?_of_mem_nodes hmem
  obtain ⟨hops, f, hc, rfl, -⟩ := ht.facets hthere hl
  exact (segments_facet hc f name hname).2.2.2 hslash

/-- Listed children come in the order of their bytes, each once. In any tree each of them has a segment for its name,
which leads from the entry to it, and has the container of the entry for its parent. Where every file lies in a
directory, a child is listed as soon as it, its metadata or anything below has a content. What operations on entries
have made is a tree of this kind. -/
theorem children_lose_nothing {t : FileTree} {e : EntryPath} {found : List EntryPath} (he : Reachable e)
    (h : children t e = .ok found) :
    (found.map (·.name)).Pairwise (fun m n => Utf8.encode m < Utf8.encode n) ∧
    (Slashless t → ∀ c ∈ found, IsSegment c.name ∧ c = e.child c.name ∧ c.parent true = some e.dir) ∧
    (t.Rooted → ∀ q n, Reachable q → .child n :: e.file.hops <:+ q.hops → hasData t q = true →
      n ∈ found.map (·.name)) ∧
    ∀ root, Built root t → t.Rooted ∧ Slashless t := by
  refine ⟨names_ascending h, fun hnames c hc => ?_, fun ht q n hq hway hdata =>
    listed_of_content ht h hq.canonical hway hdata, fun root hbuilt => ?_⟩
  · obtain ⟨hname, heq⟩ := segment_of_listed hnames h hc
    refine ⟨hname, heq.trans (child_of_segment e hname).symm, ?_⟩
    rw [heq]
    exact parent_literalChild he.canonical _
  · have hsound := hbuilt.sound.1
    exact ⟨hsound.tree.rooted, hsound.slashless⟩

/-- Below the page `a` lie a page, a page whose name has a dot and of which only a child has a content, and `c`, of
which only the metadata of the metadata has one. The other names tell of no child. -/
def strewn : FileTree where
  root := "data/".toList
  nodes := [(["a.dir".toList], .directory), (["b.data".toList, "a.dir".toList], .file 0),
    (["b.meta.dir".toList, "a.dir".toList], .directory),
    (["d.data".toList, "b.meta.dir".toList, "a.dir".toList], .file 1),
    (["c.metametadir".toList, "a.dir".toList], .directory),
    (["x.data".toList, "c.metametadir".toList, "a.dir".toList], .file 2), (["..data".toList, "a.dir".toList], .file 3),
    (["...dir".toList, "a.dir".toList], .directory), ([".data".toList, "a.dir".toList], .file 4),
    (["new.data-tmp".toList, "a.dir".toList], .file 5), (["stray".toList, "a.dir".toList], .file 6)]
  blobs := #[[0], [1], [2], [3], [4], [5], [6]]

theorem children_lose_nothing_strewn :
    let a := EntryPath.root.child "a".toList
    let x := ((a.child "c".toList).parameters.parameters).child "x".toList
    Reachable a ∧ Reachable x ∧ hasData strewn x = true ∧
      children strewn a = .ok [a.child "b".toList, a.child "b.meta".toList, a.child "c".toList] ∧
      (∀ c ∈ [a.child "b".toList, a.child "b.meta".toList, a.child "c".toList], c.parent true = some a.dir) ∧
      "c".toList ∈ [a.child "b".toList, a.child "b.meta".toList, a.child "c".toList].map (·.name) := by
  have ha : Reachable (EntryPath.root.child "a".toList) := Reachable.root.child _
  have hx : Reachable ((((EntryPath.root.child "a".toList).child "c".toList).parameters.parameters).child "x".toList) :=
    (ha.child _).parameters.parameters.child _
  have hdata : hasData strewn
      ((((EntryPath.root.child "a".toList).child "c".toList).parameters.parameters).child "x".toList) = true := by
    decide +kernel
  have hchildren : children strewn (EntryPath.root.child "a".toList) = .ok
      [(EntryPath.root.child "a".toList).child "b".toList, (EntryPath.root.child "a".toList).child "b.meta".toList,
        (EntryPath.root.child "a".toList).child "c".toList] := by decide +kernel
  obtain ⟨-, hreal, hfound, -⟩ := children_lose_nothing ha hchildren
  exact ⟨ha, hx, hdata, hchildren, fun c hc => (hreal (by decide +kernel) c hc).2.2,
    hfound (by decide +kernel) _ _ hx (by decide +kernel) hdata⟩

end EntryServer.Store
