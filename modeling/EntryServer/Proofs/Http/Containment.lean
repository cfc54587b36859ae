import EntryServer.Proofs.EntryPath.Layout
import EntryServer.Proofs.Http.Addressing
import EntryServer.Proofs.Http.Replacement
import EntryServer.Proofs.Store.Deletion
import EntryServer.Proofs.Text.Utf8

/-! # Requests stay in their site

A site is a container directly below the store root, and its name tells its host. Each part of a request leads
on from what is inside the site to what is inside, so whatever the entry keeps on disk and whatever its removal
takes is in the directory of the site's children. The sites of two hosts have nothing in common. -/
namespace EntryServer.Http.Addressed
set_option autoImplicit false
open EntryPath
open Entry (headersOf)

/-! ## Names of sites -/

/-- The host whose site a request addresses, if it names one that may have a site. -/
def hostFor (header : Option Bytes) (target : Target) : Option Bytes := (hostOf header target).filter isHost

/-- The name of the site of a host, or of the one for requests without a host. -/
def siteName : Option Bytes → Text
  | some h => h.map (fun b => Char.ofNat b.toNat) ++ ".host".toList
  | none => "host".toList

theorem charOfByte_inj {b b' : UInt8} (h : Char.ofNat b.toNat = Char.ofNat b'.toNat) : b = b' := by
  rw [← UInt8.toNat_inj, ← Utf8.toNat_charOfByte, h, Utf8.toNat_charOfByte]

theorem siteName_inj {host host' : Option Bytes} (h : siteName host = siteName host') : host = host' := by
  have hlength := congrArg List.length h
  cases host with
  | none =>
    cases host' with
    | none => rfl
    | some b => simp [siteName] at hlength
  | some a =>
    cases host' with
    | none => simp [siteName] at hlength
    | some b => exact congrArg some (List.map_injective_iff.mpr (fun _ _ => charOfByte_inj)
        (List.append_cancel_right h))

theorem slash_not_mem_host {h : Bytes} (hhost : isHost h = true) :
    '/' ∉ h.map (fun b => Char.ofNat b.toNat) := by
  intro hmem
  obtain ⟨b, hb, hslash⟩ := List.mem_map.mp hmem
  obtain rfl : b = 47 := @charOfByte_inj b 47 hslash
  have hall : h.all isHostByte = true := (Bool.and_eq_true_iff.mp hhost).2
  exact absurd (List.all_eq_true.mp hall 47 hb) (by decide)

theorem segment_siteName (header : Option Bytes) (target : Target) :
    IsSegment (siteName (hostFor header target)) := by
  cases hhost : hostFor header target with
  | none => decide
  | some h =>
    have hlength : (siteName (some h)).length = h.length + 5 := by simp [siteName]
    refine ⟨fun hn => ?_, fun hn => ?_, fun hn => ?_, fun hmem => ?_⟩
    · simp [hn] at hlength
    · simp [hn] at hlength
    · simp [hn] at hlength
    · rcases List.mem_append.mp hmem with hmem | hmem
      · exact slash_not_mem_host (Option.filter_eq_some_iff.mp hhost).2 hmem
      · exact absurd hmem (by decide)

/-- The site of a name. -/
def siteAt (name : Text) : EntryPath := ⟨[.dir, .child name]⟩

theorem siteAt_of_closed {name : Text} (h : IsSegment name) : EntryPath.root.child (name ++ ['/']) = siteAt name := by
  have hslash : endsWithSlash (name ++ ['/']) = true := by simp [endsWithSlash]
  simp only [EntryPath.child, clean_closed h, hslash]
  rfl

theorem resolve_site (header : Option Bytes) (target : Target) :
    (resolve header target).site = siteAt (siteName (hostFor header target)) := by
  rw [← siteAt_of_closed (segment_siteName header target)]
  show siteOf (hostOf header target) = _
  rw [siteOf, hostFor]
  cases (hostOf header target).filter isHost with
  | none => rfl
  | some h => simp [siteName]

/-! ## Inside a site -/

/-- Each parameter leads into the metadata of an entry inside, and from there to a child. -/
theorem within_descend {above : List Step} {e : EntryPath} (h : Within above e.hops) (pairs : List (Text × Text)) :
    Within above (pairs.foldl descend e).hops := by
  induction pairs generalizing e with
  | nil => exact h
  | cons pair pairs ih =>
    rw [List.foldl_cons]
    apply ih
    unfold descend
    split
    · exact within_child (within_metadata_cons.mpr h) pair.2
    · exact h

/-- The entry that a request addresses belongs to its site. -/
theorem covers_resolve (header : Option Bytes) (target : Target) :
    (resolve header target).site.Covers (resolve header target).entry := by
  have hsite := resolve_site header target
  -- the path starts from the container itself, so even a path without segments stays there
  have hentry : Within [.child (siteName (hostFor header target))] (resolve header target).entry.hops := by
    show Within _ (List.foldl descend ((resolve header target).site.child _) _).hops
    rw [hsite]
    exact within_descend (within_child (within_dir_cons.mpr (Or.inl rfl)) _) _
  rw [hsite]
  exact hentry

theorem resolve_not_root (header : Option Bytes) (target : Target) :
    (resolve header target).entry.isRoot = false := by
  have hcovers := covers_resolve header target
  rw [resolve_site] at hcovers
  cases hroot : (resolve header target).entry.isRoot with
  | false => rfl
  | true =>
    rw [siteAt, covers_container, List.isEmpty_iff.mp hroot] at hcovers
    exact absurd hcovers (within_nil _)

/-! ## On disk -/

/-- What an entry keeps on disk is in the directory of a container's children. -/
structure Inside (root : Text) (site q : EntryPath) : Prop where
  render : site.render root <+: q.render root
  data : site.childrenText root <+: q.dataText root
  staging : site.childrenText root <+: q.stagingText root
  children : site.childrenText root <+: q.childrenText root
  folder : site.place.children <:+ q.place.folder

/-- Two containers have no entry, no location and no path in common. -/
structure Separate (root : Text) (site site' : EntryPath) : Prop where
  entries : ∀ q, site.Covers q → ¬ site'.Covers q
  locations : ∀ l, site.place.children <:+ l → ¬ site'.place.children <:+ l
  paths : ∀ path, site.childrenText root <+: path → ¬ site'.childrenText root <+: path

theorem siteAt_children (name : Text) : (siteAt name).place.children = [name ++ ".dir".toList] := by
  simp [siteAt, place, placeOf, Place.children]

section Disk
variable {root name name' : Text} (hroot : endsWithSlash root = true)

theorem children_suffix_of_covers {q : EntryPath} (h : (siteAt name).Covers q) :
    (siteAt name).place.children <:+ q.place.folder := by
  have hleaf : (siteAt name).place.children = (⟨[.child name]⟩ : EntryPath).place.children := by
    simp [siteAt, place, placeOf, Place.children]
  rw [hleaf]
  exact children_suffix_folder rfl h

include hroot

theorem inside_of_covers {q : EntryPath} (h : (siteAt name).Covers q) : Inside root (siteAt name) q := by
  have hfolder := children_suffix_of_covers h
  have hprefix := folderText_prefix root hfolder
  have hsite : (siteAt name).render root = folderText root (siteAt name).place.children := by
    rw [render_eq hroot]
    exact List.append_nil _
  have hrender : folderText root (siteAt name).place.children <+: q.render root := by
    rw [render_eq hroot]
    exact hprefix.trans (List.prefix_append ..)
  refine ⟨hsite ▸ hrender, ?_, ?_, ?_, hfolder⟩
  · rw [childrenText_eq hroot]
    exact hrender.trans (List.prefix_append ..)
  · rw [childrenText_eq hroot]
    exact hrender.trans (List.prefix_append ..)
  · rw [childrenText_eq hroot, childrenText_eq hroot]
    exact folderText_prefix root (hfolder.trans q.place.folder_suffix_children)

theorem separate_of_ne (hname : IsSegment name) (hname' : IsSegment name') (hne : name ≠ name') :
    Separate root (siteAt name) (siteAt name') := by
  have hslash : ∀ {n : Text}, IsSegment n → ∀ m ∈ (siteAt n).place.children, '/' ∉ m := by
    intro n hn m hm
    rw [siteAt_children, List.mem_singleton] at hm
    subst hm
    simp [hn.2.2.2]
  -- both directories are one name long, so neither is above the other
  have hsuffix : ∀ {m n : Text}, (siteAt m).place.children <:+ (siteAt n).place.children → m = n := by
    intro m n h
    rw [siteAt_children, siteAt_children] at h
    exact List.append_cancel_right (List.cons.inj (h.eq_of_length rfl)).1
  have hlocations : ∀ l, (siteAt name).place.children <:+ l → ¬ (siteAt name').place.children <:+ l := by
    intro l h h'
    rcases List.suffix_or_suffix_of_suffix h h' with h | h
    · exact hne (hsuffix h)
    · exact hne (hsuffix h).symm
  refine ⟨fun q h h' => ?_, hlocations, fun path h h' => ?_⟩
  · exact hlocations _ (children_suffix_of_covers h) (children_suffix_of_covers h')
  · rw [childrenText_eq hroot] at h h'
    rcases List.prefix_or_prefix_of_prefix h h' with h | h
    · exact hne (hsuffix (suffix_of_folderText (hslash hname) (hslash hname') List.not_mem_nil (by simpa using h)))
    · exact hne (hsuffix (suffix_of_folderText (hslash hname') (hslash hname) List.not_mem_nil
        (by simpa using h))).symm

end Disk

/-- The files and directories of what a request addresses, and of everything that belongs to it, are in the
directory of its site, and its removal takes nothing else, whatever the store holds. Requests for different hosts,
or for a host and for none, have separate sites. -/
theorem requests_stay_in_site (folder : Text) (header : Option Bytes) (target : Target) :
    (resolve header target).site = siteAt (siteName (hostFor header target)) ∧
    IsSegment (siteName (hostFor header target)) ∧
    (∀ q, (resolve header target).entry.Covers q → Inside (rootText folder) (resolve header target).site q) ∧
    (∀ q ∈ [(resolve header target).entry, (resolve header target).entry.parameters,
      headersOf (resolve header target).entry], Inside (rootText folder) (resolve header target).site q) ∧
    (∀ t l, ((Store.deleteAll (resolve header target).entry).run.run t).2.sight l ≠ t.sight l →
      (resolve header target).site.place.children <:+ l) ∧
    ∀ header' target', hostFor header target ≠ hostFor header' target' →
      Separate (rootText folder) (resolve header target).site (resolve header' target').site := by
  have hroot : endsWithSlash (rootText folder) = true := endsWithSlash_rootText folder
  have hcovers := covers_resolve header target
  have hinside : ∀ q, (resolve header target).entry.Covers q →
      Inside (rootText folder) (resolve header target).site q := by
    intro q hq
    have hq := hcovers.trans hq
    rw [resolve_site] at hq ⊢
    exact inside_of_covers hroot hq
  refine ⟨resolve_site header target, segment_siteName header target, hinside, fun q hq => hinside q ?_,
    fun t l hl => ?_, ?_⟩
  · have hself := covers_self (resolve header target).entry
    simp only [List.mem_cons, List.not_mem_nil, or_false] at hq
    rcases hq with rfl | rfl | rfl
    · exact hself
    · exact hself.extend (List.suffix_cons ..)
    · refine hself.extend ?_
      rw [Entry.headersOf_hops]
      exact ((List.suffix_cons ..).trans (List.suffix_cons ..)).trans (List.suffix_cons ..)
  · by_contra hout
    refine hl (Store.sight_deleteAll t fun hremoved => hout ?_)
    exact (hinside _ (covers_self _)).folder.trans
      (Store.folder_suffix_of_removed (resolve_not_root header target) hremoved)
  · intro header' target' hne
    rw [resolve_site, resolve_site]
    exact separate_of_ne hroot (segment_siteName _ _) (segment_siteName _ _) fun h => hne (siteName_inj h)

/-- A path that climbs out of the site, and a parameter that climbs on. -/
def climbing : Target := Target.parse "/../../secret?meta=%2F..%2Fx".toList

/-- The climbing path stays in the site of its host, apart from the site for requests without a host. -/
theorem climbing_stays_in_site :
    (resolve (some (Ascii.bytes "h")) climbing).entry.render (rootText "web".toList) =
      "web/h.host.dir/secret.metadir/x.".toList ∧
    Inside (rootText "web".toList) (siteAt "h.host".toList) (resolve (some (Ascii.bytes "h")) climbing).entry ∧
    hostFor (some (Ascii.bytes "h")) climbing ≠ hostFor none climbing ∧
    Separate (rootText "web".toList) (siteAt "h.host".toList) (siteAt "host".toList) := by
  have hne : hostFor (some (Ascii.bytes "h")) climbing ≠ hostFor none climbing := by decide +kernel
  have hsite : (resolve (some (Ascii.bytes "h")) climbing).site = siteAt "h.host".toList := by decide +kernel
  have hsite' : (resolve none climbing).site = siteAt "host".toList := by decide +kernel
  obtain ⟨-, -, -, hinside, -, hseparate⟩ := requests_stay_in_site "web".toList (some (Ascii.bytes "h")) climbing
  rw [hsite] at hinside hseparate
  have hapart := hseparate none climbing hne
  rw [hsite'] at hapart
  exact ⟨by decide +kernel, hinside _ (List.mem_cons_self ..), hne, hapart⟩

end EntryServer.Http.Addressed
