import EntryServer.Proofs.Acl.Climbs
import EntryServer.Proofs.Http.Addressing
import EntryServer.Proofs.Http.Replacement

/-! # Requests stay out of access configurations

A request that deletes nothing touches the entry that it addresses and the stored header fields of that. None
of this is sealed, so the configurations outside the stored fields stay as they are. -/
namespace EntryServer.Http
set_option autoImplicit false
open EntryPath FileTree Acl
open Store (Written Removed keeper)
open Entry (headersOf typeOf fieldHops PutTouched)

/-! ## Locations outside -/

/-- Of the facets of other entries, writing an entry touches the folders that its way leads through. -/
theorem suffix_of_written {e : EntryPath} (he : e.Canonical) {q : EntryPath} (hq : q.Canonical) {f : Facet}
    (h : Written e (q.place.facet f)) : q.hops <:+ e.hops := by
  rcases h with hs | hs | hs
  · obtain ⟨b, hb, -, -, hw, heq⟩ := exists_of_suffix_folder he hs (List.cons_ne_nil _ _)
    obtain ⟨rfl, -⟩ := facet_inj hq hb heq
    exact hw.suffix
  · exact (facet_inj (g := .staging) hq he hs).1 ▸ List.suffix_rfl
  · exact (facet_inj (g := .data) hq he hs).1 ▸ List.suffix_rfl

theorem covers_headersOf {e q : EntryPath} : (headersOf e).Covers q ↔ Within (fieldHops e.hops) q.hops := by
  unfold Covers
  rw [Entry.headersOf_hops]

/-- The stored fields of an entry are in no configuration that the entry is not in. -/
theorem authHops_suffix_fields {e : EntryPath} (he : isSealed e = false) (above : List Step) :
    ¬ authHops above <:+ fieldHops e.hops := by
  intro h
  rcases List.suffix_cons_iff.mp h with heq | h
  · have hauth : "auth".toList = "headers".toList := Step.child.inj (List.cons.inj heq).1
    exact absurd hauth (by decide)
  · rcases List.suffix_cons_iff.mp h with heq | h
    · cases (List.cons.inj heq).1
    · exact not_sealed_of_suffix he above h

theorem authHops_suffix_type {e : EntryPath} (he : isSealed e = false) (above : List Step) :
    ¬ authHops above <:+ (typeOf e).hops := by
  rw [Entry.typeOf_hops]
  intro h
  rcases List.suffix_cons_iff.mp h with heq | h
  · cases (List.cons.inj (List.cons.inj heq).2).1
  · exact authHops_suffix_fields he above h

/-- A sealed facet outside the stored fields is not touched. -/
theorem not_touched_of_sealed {e q : EntryPath} (he : e.Canonical) (hsealed : isSealed e = false)
    (hq : q.Canonical) {above : List Step} (hauth : authHops above <:+ q.hops)
    (hout : ¬ (headersOf e).Covers q) (f : Facet) : ¬ PutTouched e (q.place.facet f) := by
  rintro (h | h | h)
  · exact not_sealed_of_suffix hsealed above (hauth.trans (suffix_of_written he hq h))
  · have hcovers := ((Store.removed_facet_iff (Entry.headersOf_canonical he) hq).mp h).1
    cases f with
    | data => exact hout hcovers
    | staging => exact hout hcovers
    | children =>
      rcases within_dir_cons.mp (covers_headersOf.mp hcovers) with heq | hw
      · exact authHops_suffix_fields hsealed above (heq ▸ hauth)
      · exact hout (covers_headersOf.mpr hw)
  · exact authHops_suffix_type hsealed above
      (hauth.trans (suffix_of_written (Entry.typeOf_canonical he) hq h))

/-- The configuration of an entry outside the stored fields is outside as well. -/
theorem outside_of_config {e a q : EntryPath} (hsealed : isSealed e = false) (ha : ¬ (headersOf e).Covers a)
    (hq : authHops a.hops <:+ q.hops) : ¬ (headersOf e).Covers q := by
  rw [covers_headersOf] at ha ⊢
  rintro ⟨s, hs, h⟩
  rcases List.suffix_or_suffix_of_suffix h hq with hle | hle
  · rcases List.suffix_cons_iff.mp hle with heq | hle
    · cases (List.cons.inj (List.cons.inj heq).2).1
    · rcases List.suffix_cons_iff.mp hle with heq | hle
      · exact hs (List.cons.inj heq).1
      · exact ha ⟨s, hs, hle⟩
  · rcases List.suffix_cons_iff.mp hle with heq | hle
    · cases (List.cons.inj (List.cons.inj heq).2).1
    · exact authHops_suffix_fields hsealed a.hops hle

/-- Where no touched location is involved, an entry has the same configuration before and after. -/
theorem sameConfig_of_frame {t t' : FileTree} (ht : Store.Sound t) (ht' : Store.Sound t') {e a : EntryPath}
    (he : e.Canonical) (hsealed : isSealed e = false) (ha : a.Canonical) (hout : ¬ (headersOf e).Covers a)
    (hframe : ∀ l, ¬ PutTouched e l → t'.sight l = t.sight l) : SameConfig t t' a := by
  have hcanonical : CanonicalHops (authHops a.hops) := ⟨isSegment_auth, by simp, ha⟩
  have hfacet : ∀ {q : List Step} {f : Facet}, CanonicalHops q → configFolder a <:+ (placeOf q).facet f →
      t'.sight ((placeOf q).facet f) = t.sight ((placeOf q).facet f) := by
    intro q f hq hs
    rw [configFolder_eq] at hs
    have hw := (Store.children_suffix_facet_iff hcanonical hq (authHops_ne_nil _) (authHops_head _)).mp hs
    have hauth : authHops a.hops <:+ q := by
      cases f with
      | data => exact hw.suffix
      | staging => exact hw.suffix
      | children =>
        rcases within_dir_cons.mp hw with rfl | hw
        · exact List.suffix_rfl
        · exact hw.suffix
    exact hframe _ (not_touched_of_sealed (q := ⟨q⟩) he hsealed hq hauth (outside_of_config hsealed hout hauth) f)
  intro l hl
  have hne : l ≠ [] := by
    rintro rfl
    exact configFolder_ne_nil a (List.suffix_nil.mp hl)
  cases hn : t.node? l with
  | some n =>
    obtain ⟨q, f, hq, rfl, -⟩ := ht.facets hn hne
    exact hfacet hq hl
  | none =>
    cases hn' : t'.node? l with
    | some n =>
      obtain ⟨q, f, hq, rfl, -⟩ := ht'.facets hn' hne
      exact hfacet hq hl
    | none => rw [sight_eq_none.mpr hn, sight_eq_none.mpr hn']

/-! ## Requests -/

namespace Server

theorem answer_frame {s : Server} {r : Request} (hmethod : r.method ≠ "DELETE".toList) {e : EntryPath}
    (he : e.Canonical) (target : Target) {t : FileTree} (ht : Store.Sound t) :
    Store.Sound (s.answer e target r t).2 ∧ (s.answer e target r t).2.root = t.root ∧
      ∀ l, ¬ PutTouched e l → (s.answer e target r t).2.sight l = t.sight l := by
  rw [answer_files]
  split
  · rw [Entry.run_handle]
    split
    · cases Entry.get t e with
      | ok response => exact ⟨ht, rfl, fun _ _ => rfl⟩
      | error failure => exact ⟨ht, rfl, fun _ _ => rfl⟩
    · split
      · obtain ⟨result, t', hrun, ht', hroot, hframe, -⟩ := Entry.run_put_spec ht he
          (r.headers.first? "content-type") (s.received r)
        rw [hrun]
        exact ⟨ht', hroot, hframe⟩
      · exact ⟨ht, rfl, fun _ _ => rfl⟩
  · exact ⟨ht, rfl, fun _ _ => rfl⟩

theorem serve_frame (s : Server) {r : Request} (now : Nat) (draw : Nat → Auth.Keys) (identifier : Bytes)
    {state : State} (ht : Store.Sound state.files) (hmethod : r.method ≠ "DELETE".toList)
    (hsealed : isSealed (addressed r).entry = false) :
    Store.Sound (s.serve r now draw identifier state).2.2.files ∧
      (s.serve r now draw identifier state).2.2.files.root = state.files.root ∧
      ∀ l, ¬ PutTouched (addressed r).entry l →
        (s.serve r now draw identifier state).2.2.files.sight l = state.files.sight l := by
  rw [serve_state]
  split
  · exact ⟨ht, rfl, fun _ _ => rfl⟩
  · cases hauth : (s.verdict r now draw state).authorized with
    | true =>
      rw [(guarded_authorized hsealed hauth).2]
      exact answer_frame hmethod (Addressed.resolve_canonical _ _) _ ht
    | false =>
      rw [guarded_unauthorized hsealed hauth]
      exact ⟨ht, rfl, fun _ _ => rfl⟩

end Server
end EntryServer.Http
