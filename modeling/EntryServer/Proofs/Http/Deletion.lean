import EntryServer.Proofs.Acl.Sealed
import EntryServer.Proofs.Http.Addressing
import EntryServer.Proofs.Http.Handling
import EntryServer.Proofs.Store.Contents

/-! # Deletions by requests

A request deletes the branch of the entry that it addresses. The access configuration of an entry outside
that branch is kept, with one exception: the container of the entry's metadata can be addressed and is not
sealed, and it holds the configuration. -/
namespace EntryServer.Http
set_option autoImplicit false
open EntryPath FileTree Acl

/-! ## The configuration of an entry -/

theorem removed_config_iff {e p : EntryPath} (he : e.Canonical) (hsealed : isSealed e = false)
    (hmeta : e.hops.head? ≠ some .metadata) (hp : ¬ e.Covers p) {l : Location} (hl : ConfigFacet p l) :
    Store.Removed e l ↔ e = p.parameters.dir := by
  obtain ⟨q, f, hq, hcovers, rfl⟩ := hl
  rw [covers_configOf] at hcovers
  have hkeeper : authHops p.hops <:+ (Store.keeper f q.hops).hops := hcovers.trans (Store.suffix_keeper f q.hops)
  have hother : ¬ (f = .staging ∧ q.hops = e.hops ∧ e.isContainer = false) := by
    rintro ⟨-, heq, -⟩
    exact not_sealed_of_suffix hsealed p.hops (heq ▸ hcovers)
  rw [place, Store.removed_facet_iff he hq, and_iff_left hother]
  exact covers_sealed_iff hsealed hmeta hp hkeeper

/-- The configuration lies in one folder, and every name in it is long enough for that of a content. -/
theorem config_folder {p : EntryPath} {l : Location} (hl : ConfigFacet p l) :
    ∃ name, name :: p.parameters.dir.place.folder <:+ l ∧ Utf8.size "data".toList ≤ Utf8.size name := by
  obtain ⟨q, f, hq, hcovers, rfl⟩ := hl
  rw [covers_configOf] at hcovers
  have hfolder : (placeOf (authHops p.hops)).folder = p.parameters.dir.place.folder := by
    rw [parameters_dir]
    rfl
  have hlong : ∀ (k : Nat) (g : Facet),
      Utf8.size "data".toList ≤ Utf8.size ((placeOf (deeper k (authHops p.hops))).stem ++ g.ending) := by
    intro k g
    have hstem : (placeOf (authHops p.hops)).stem = "auth.".toList := rfl
    rw [placeOf_deeper, hstem]
    simp only [Utf8.size_append]
    have hauth : Utf8.size "data".toList ≤ Utf8.size "auth.".toList := by decide
    omega
  have hdeeper : ∃ k, q.hops = deeper k (authHops p.hops) ∨ Within (deeper k (authHops p.hops)) q.hops := by
    rcases within_or_metadata hcovers with h | h | h
    · exact ⟨0, Or.inl h⟩
    · exact ⟨0, Or.inr h⟩
    · obtain ⟨k, h⟩ := Store.deeper_or_within h
      exact ⟨k + 1, h⟩
  obtain ⟨k, h | h⟩ := hdeeper
  · refine ⟨(placeOf (deeper k (authHops p.hops))).stem ++ f.ending, ?_, hlong k f⟩
    have hplace : q.place = placeOf (deeper k (authHops p.hops)) := congrArg placeOf h
    exact ⟨[], by rw [List.nil_append, hplace, Place.facet, placeOf_deeper, hfolder]⟩
  · refine ⟨(placeOf (deeper k (authHops p.hops))).stem ++ Facet.children.ending, ?_, hlong k .children⟩
    have hne : deeper k (authHops p.hops) ≠ [] := by simp [deeper, authHops]
    have hd : (deeper k (authHops p.hops)).head? ≠ some .dir := by
      cases k with
      | zero => simp [deeper, authHops]
      | succ k => simp [deeper_succ]
    have hs := suffix_folder_of_within hne hd h
    rw [Place.facet, placeOf_deeper] at hs
    rw [placeOf_deeper, ← hfolder]
    exact hs.trans (List.suffix_cons ..)

theorem fits_metadata_container {t : FileTree} (ht : t.Sound) {p : EntryPath} {l : Location}
    (hl : ConfigFacet p l) {n : Node} (hn : t.node? l = some n) : t.Fits p.parameters.dir.place.data := by
  obtain ⟨name, hs, hsize⟩ := config_folder hl
  have hne : l ≠ [] := by
    rintro rfl
    simp at hs
  have hdata : p.parameters.dir.place.data = "data".toList :: p.parameters.dir.place.folder := by
    rw [parameters_dir]
    rfl
  rw [hdata]
  exact ((ht.fits hn hne).suffix hs).shorter hsize (by decide)

/-! ## Requests -/

namespace Server

/-- After an authorized deletion the files are those that the removal of the entry leaves. -/
theorem files_of_delete {s : Server} {r : Request} {now : Nat} {draw : Nat → Auth.Keys} {identifier : Bytes}
    {state : State} (hmethod : r.method = "DELETE".toList) (hsize : s.announcesTooMuch r = false)
    (hsealed : isSealed (addressed r).entry = false) (hauth : (s.verdict r now draw state).authorized = true) :
    (s.serve r now draw identifier state).2.2.files =
      if (Target.parse r.target).path.head? = some '/' then
        ((Store.deleteAll (addressed r).entry).run.run state.files).2
      else state.files := by
  have hget : ¬ ("DELETE".toList = "GET".toList ∨ "DELETE".toList = "HEAD".toList) := by decide
  have hput : ¬ "DELETE".toList = "PUT".toList := by decide
  rw [serve_state, hsize, if_neg (by simp), (guarded_authorized hsealed hauth).2, answer_files,
    Entry.run_handle, hmethod, if_neg hget, if_neg hput, if_pos rfl, Entry.run_delete]
  split
  · cases (Store.deleteAll (addressed r).entry).run.run state.files with
    | mk result t' =>
      cases result with
      | ok u => rfl
      | error e => rfl
  · rfl

/-- A deletion keeps the configuration of an entry outside the deleted branch, unless it deletes the container
of that entry's metadata and there is a configuration. -/
theorem delete_keeps_configuration_iff {root : Text} {s : Server} {r : Request} {now : Nat}
    {draw : Nat → Auth.Keys} {identifier : Bytes} {state : State} (hbuilt : Store.Built root state.files)
    (hmethod : r.method = "DELETE".toList) (hsize : s.announcesTooMuch r = false)
    (hsealed : isSealed (addressed r).entry = false) (hauth : (s.verdict r now draw state).authorized = true)
    {p : EntryPath} (hp : ¬ (addressed r).entry.Covers p) :
    (∀ l content, ConfigFacet p l → state.files.sight l = some (.file content) →
      (s.serve r now draw identifier state).2.2.files.sight l = some (.file content)) ↔
    ¬ ((addressed r).entry = p.parameters.dir ∧
      ∃ l content, ConfigFacet p l ∧ state.files.sight l = some (.file content)) := by
  have ht := hbuilt.sound.1
  have he : (addressed r).entry.Canonical := Addressed.resolve_canonical _ _
  have hmeta := Addressed.resolve_head (r.headers.first? "host") (Target.parse r.target)
  rw [files_of_delete hmethod hsize hsealed hauth]
  constructor
  · rintro hkeep ⟨heq, l, content, hl, hfile⟩
    have hkept := hkeep l content hl hfile
    -- the container of metadata is named in a query, so the request has a path
    rw [if_pos] at hkept
    · obtain ⟨i, hi, -⟩ := sight_eq_file.mp hfile
      have hfits := fits_metadata_container ht.tree hl hi
      obtain ⟨t', hrun, -, hcut⟩ := ht.deleteAll_of_fits he (heq ▸ hfits)
      rw [hrun, hcut.sight_gone ((removed_config_iff he hsealed hmeta hp hl).mpr heq)] at hkept
      cases hkept
    · refine Decidable.byContradiction fun hpath => ?_
      have hnone := Addressed.metadata_not_mem_resolve (r.headers.first? "host") (Target.query_of_no_path hpath)
      rw [addressed] at heq
      rw [heq, parameters_dir] at hnone
      simp at hnone
  · intro hother l content hl hfile
    split
    · rcases ht.deleteAll he with ⟨-, t', hrun, -, hcut⟩ | ⟨e, -, -, hrun⟩
      · have hkept : ¬ Store.Removed (addressed r).entry l := fun h =>
          hother ⟨(removed_config_iff he hsealed hmeta hp hl).mp h, l, content, hl, hfile⟩
        rw [hrun, hcut.sight_kept hkept]
        exact hfile
      · rw [hrun]
        exact hfile
    · exact hfile

/-! ## A page with a rule of its own -/

def visitedPage : EntryPath := ⟨[.child "page".toList, .child "host".toList]⟩

/-- Grants everything on the page to everybody. -/
def pageRule : EntryPath := ⟨.child "default.perm".toList :: .child anonymous :: authHops visitedPage.hops⟩

def openPage : State :=
  ⟨((Store.write pageRule (Ascii.bytes "allow")).run.run (FileTree.empty "data/".toList)).2, []⟩

theorem openPage_built : Store.Built "data/".toList openPage.files :=
  Store.Built.empty.write (reachable_iff_canonical.mpr (by decide)) _

theorem pageRule_config : ConfigFacet visitedPage pageRule.place.data := ⟨pageRule, .data, by decide, by decide, rfl⟩

def site : Server := ⟨⟨anonymous, 1000⟩, 1000⟩

def deletion (target : String) : Request := ⟨"DELETE".toList, target.toList, [], ⟨[], true⟩⟩

/-- Deleting the children of the page keeps its rule. -/
theorem delete_keeps_configuration_of_page :
    (addressed (deletion "/page/")).entry ≠ visitedPage.parameters.dir ∧
    (site.serve (deletion "/page/") 0 (fun _ => ⟨[], []⟩) [] openPage).2.2.files.sight pageRule.place.data =
      some (.file (Ascii.bytes "allow")) := by
  have hother : (addressed (deletion "/page/")).entry ≠ visitedPage.parameters.dir := by decide +kernel
  have hkeep : ∀ l content, ConfigFacet visitedPage l → openPage.files.sight l = some (.file content) →
      (site.serve (deletion "/page/") 0 (fun _ => ⟨[], []⟩) [] openPage).2.2.files.sight l =
        some (.file content) :=
    (delete_keeps_configuration_iff openPage_built rfl (by decide +kernel) (by decide +kernel) (by decide +kernel)
      (by decide +kernel)).mpr fun h => absurd h.1 hother
  exact ⟨hother, hkeep pageRule.place.data (Ascii.bytes "allow") pageRule_config (by decide +kernel)⟩

/-- Deleting an empty name in the metadata of the page strips the page of its rule, though the page stays. -/
theorem delete_strips_configuration :
    isSealed (addressed (deletion "/page?meta=")).entry = false ∧
    (site.verdict (deletion "/page?meta=") 0 (fun _ => ⟨[], []⟩) openPage).authorized = true ∧
    ¬ (addressed (deletion "/page?meta=")).entry.Covers visitedPage ∧
    ConfigFacet visitedPage pageRule.place.data ∧
    openPage.files.sight pageRule.place.data = some (.file (Ascii.bytes "allow")) ∧
    (site.serve (deletion "/page?meta=") 0 (fun _ => ⟨[], []⟩) [] openPage).2.2.files.sight pageRule.place.data =
      none :=
  ⟨by decide +kernel, by decide +kernel, by decide +kernel, pageRule_config, by decide +kernel, by decide +kernel⟩

end Server
end EntryServer.Http
