import EntryServer.Proofs.EntryPath.Layout
import EntryServer.Proofs.Http.Noninterference
import EntryServer.Proofs.Store.Agreement

/-! # Contents behind the handlers

The handlers see and change a store by its contents only. The stored fields come of the contents below the metadata
`headers`, whatever else is listed there, and a replacement is a sequence of changes. -/
namespace EntryServer.Store
set_option autoImplicit false
open EntryPath FileTree

/-! ## Names of children -/

/-- The names that what is in the folder of the children tells of. -/
def childNames (t : FileTree) (q : EntryPath) : List Text :=
  sorted ((t.namesIn q.place.children).filterMap childBase?)

section Names
variable {t : FileTree} {q : EntryPath} {n : Text}

theorem mem_childNames :
    n ∈ childNames t q ↔ ∃ name, t.sight (name :: q.place.children) ≠ none ∧ childBase? name = some n := by
  simp only [childNames, mem_sorted, List.mem_filterMap, mem_namesIn_iff]

theorem children_names (ht : Sound t) {found : List EntryPath} (h : children t q = .ok found) :
    found = (childNames t q).map q.literalChild := children_listed ht.tree h

theorem childNames_segment (ht : Sound t) (hn : n ∈ childNames t q) : IsSegment n := by
  obtain ⟨name, hthere, hbase⟩ := mem_childNames.mp hn
  obtain ⟨node, hnode⟩ := Option.ne_none_iff_exists'.mp (mt sight_eq_none.mpr hthere)
  obtain ⟨hops, f, hc, heq, -⟩ := ht.facets hnode (List.cons_ne_nil _ _)
  refine childBase?_segment ?_ hbase
  rw [(List.cons.inj heq).1]
  exact (isSegment_facet (slash_not_mem_stem hc) f).2.2.2

end Names

end Store

namespace Http.Entry
open EntryPath FileTree
open Store (Change childNames content?)

/-! ## Stored fields -/

section Fields
variable {t t' : FileTree} {p : EntryPath}

theorem storedHeader?_content (ht : Store.Sound t) {c : EntryPath} (h : storedHeader? t c ≠ none) :
    content? t c ≠ none := by
  rw [storedHeader?] at h
  split at h
  · exact absurd rfl h
  · split at h
    · exact absurd rfl h
    · split at h
      · exact absurd rfl h
      · next content hread =>
        rw [ht.read_ok_iff.mp hread]
        exact Option.some_ne_none _

theorem storedHeader?_congr (ht : Store.Sound t) (ht' : Store.Sound t') {c : EntryPath}
    (h : content? t' c = content? t c) : storedHeader? t' c = storedHeader? t c := by
  have hread : ∀ content, Store.read t' c = .ok content ↔ Store.read t c = .ok content := fun content => by
    rw [ht'.read_ok_iff, ht.read_ok_iff, h]
  rw [storedHeader?, storedHeader?]
  cases hr : Store.read t c with
  | ok content => rw [(hread content).mpr hr]
  | error e =>
    cases hr' : Store.read t' c with
    | ok content => cases hr.symm.trans ((hread content).mp hr')
    | error e' => rfl

/-- A child of the fields that has a content is listed. -/
theorem mem_fieldNames {n : Text} (hn : IsSegment n) (h : content? t ((headersOf p).literalChild n) ≠ none) :
    n ∈ childNames t (headersOf p) := by
  refine Store.mem_childNames.mpr ⟨n ++ ['.'] ++ "data".toList, fun hnone => h ?_, ?_⟩
  · rw [content?, literalChild_data, hnone]
  · rw [Store.childBase?_append hn (by decide), if_pos (Or.inl rfl)]

/-- The stored fields are those of any names, as long as every child with a content is among them. -/
theorem storedHeaders_of_names (ht : Store.Sound t) {names : List Text} (hsorted : names.Pairwise (· < ·))
    (hsegment : ∀ n ∈ names, IsSegment n)
    (hall : ∀ n, IsSegment n → content? t ((headersOf p).literalChild n) ≠ none → n ∈ names) :
    storedHeaders t p = names.filterMap fun n => storedHeader? t ((headersOf p).literalChild n) := by
  rw [storedHeaders]
  cases hlist : Store.children t (headersOf p) with
  | error e =>
    symm
    refine List.filterMap_eq_nil_iff.mpr fun n hn => ?_
    refine Decidable.byContradiction fun hsome => storedHeader?_content ht hsome ?_
    obtain ⟨path, error, hread⟩ := Store.read_below_unlisted hlist (q := (headersOf p).literalChild n)
      (Store.literalChild_folder .. ▸ List.suffix_rfl)
    cases hc : content? t ((headersOf p).literalChild n) with
    | none => rfl
    | some content => cases hread.symm.trans (ht.read_ok_iff.mpr hc)
  | ok found =>
    obtain rfl := Store.children_names ht hlist
    simp only [List.filterMap_map, Function.comp_def]
    set field := fun n => storedHeader? t ((headersOf p).literalChild n) with hfield
    have hfilter : ∀ names : List Text,
        names.filterMap field = (names.filter fun n => (field n).isSome).filterMap field := by
      intro names
      rw [List.filterMap_filter]
      refine List.filterMap_congr fun n _ => ?_
      cases field n with
      | none => rfl
      | some x => rfl
    have hcontent : ∀ n, (field n).isSome = true → content? t ((headersOf p).literalChild n) ≠ none := fun n hn =>
      storedHeader?_content ht (Option.isSome_iff_ne_none.mp hn)
    rw [hfilter, hfilter names]
    congr 1
    refine ((Store.pairwise_sorted _).sublist List.filter_sublist).eq_of_mem_iff
      (hsorted.sublist List.filter_sublist) fun n => ?_
    rw [List.mem_filter, List.mem_filter]
    refine and_congr_left fun hn => ⟨fun hlisted => ?_, fun hnamed => ?_⟩
    · exact hall n (Store.childNames_segment (q := headersOf p) ht hlisted) (hcontent n hn)
    · exact mem_fieldNames (hsegment n hnamed) (hcontent n hn)

theorem storedHeaders_congr (ht : Store.Sound t) (ht' : Store.Sound t') (hp : p.Canonical)
    (h : ∀ q, q.Canonical → content? t' q = content? t q) : storedHeaders t' p = storedHeaders t p := by
  have hchild : ∀ {n}, IsSegment n → ((headersOf p).literalChild n).Canonical := fun hn =>
    (headersOf_canonical hp).literalChild hn
  have hsegment : ∀ n ∈ childNames t (headersOf p), IsSegment n := fun n => Store.childNames_segment ht
  have hnames := Store.pairwise_sorted ((t.namesIn (headersOf p).place.children).filterMap Store.childBase?)
  rw [storedHeaders_of_names ht hnames hsegment fun n hn => mem_fieldNames hn,
    storedHeaders_of_names ht' hnames hsegment fun n hn hc => mem_fieldNames hn (h _ (hchild hn) ▸ hc)]
  exact List.filterMap_congr fun n hn => storedHeader?_congr ht ht' (h _ (hchild (hsegment n hn)))

end Fields

/-! ## Replacements -/

/-- What a replacement does, one change after the other up to the first that fails. -/
def putChanges (p : EntryPath) (contentType : Option Bytes) (body : Body) : List Change :=
  if body.complete then
    .replace p body.chunks :: .deleteAll (headersOf p) :: contentType.toList.map (.write (typeOf p))
  else [.abandon p body.chunks]

theorem run_storeType_changes (p : EntryPath) (contentType : Option Bytes) (t : FileTree) :
    ((storeType p contentType).run.run t).2 =
      ((Store.runAll (contentType.toList.map (.write (typeOf p)))).run.run t).2 := by
  cases contentType with
  | none => rfl
  | some value =>
    have hwrite : (Change.write (typeOf p) value).run = Store.write (typeOf p) value := rfl
    have hstore := run_onStore (Store.write (typeOf p) value) t
    rw [Option.toList_some, List.map_singleton, Store.run_runAll_cons, hwrite]
    cases hrun : (Store.write (typeOf p) value).run.run t with
    | mk r t' =>
      rw [hrun] at hstore
      cases r with
      | ok u => exact congrArg Prod.snd hstore
      | error e => exact congrArg Prod.snd hstore

theorem put_files (p : EntryPath) (contentType : Option Bytes) (body : Body) (t : FileTree) :
    ((put p contentType body).run.run t).2 = ((Store.runAll (putChanges p contentType body)).run.run t).2 := by
  rw [run_put]
  cases hcomplete : body.complete with
  | false =>
    have hchanges : putChanges p contentType body = [.abandon p body.chunks] := by
      rw [putChanges, hcomplete]
      rfl
    rw [hchanges, Store.run_runAll_cons, Store.run_abandon]
    cases (Store.create p).run.run t with
    | mk r t₁ =>
      cases r with
      | error e => rfl
      | ok w => rfl
  | true =>
    have hfields : (Change.deleteAll (headersOf p)).run = Store.deleteAll (headersOf p) := rfl
    have hchanges : putChanges p contentType body =
        .replace p body.chunks :: .deleteAll (headersOf p) :: contentType.toList.map (.write (typeOf p)) := by
      rw [putChanges, hcomplete]
      rfl
    rw [hchanges, Store.run_runAll_cons, Store.run_replace]
    cases (Store.create p).run.run t with
    | mk r t₁ =>
      cases r with
      | error e => rfl
      | ok w =>
        simp only [Bool.not_true, Bool.false_eq_true, if_false]
        cases (appendAll w t₁ body.chunks).1.commit.run.run (appendAll w t₁ body.chunks).2 with
        | mk r t₂ =>
          cases r with
          | error e => rfl
          | ok u =>
            simp only [Store.run_runAll_cons, hfields]
            cases (Store.deleteAll (headersOf p)).run.run t₂ with
            | mk r t₃ =>
              cases r with
              | error e => rfl
              | ok u =>
                simp only [← run_storeType_changes]
                cases (storeType p contentType).run.run t₃ with
                | mk r t₄ =>
                  cases r with
                  | error e => rfl
                  | ok u => rfl

theorem mem_putChanges {p : EntryPath} {contentType : Option Bytes} {body : Body} {c : Change}
    (h : c ∈ putChanges p contentType body) : c = .abandon p body.chunks ∨ c = .replace p body.chunks ∨
      c = .deleteAll (headersOf p) ∨ ∃ value, c = .write (typeOf p) value := by
  rw [putChanges] at h
  split at h
  · rcases List.mem_cons.mp h with rfl | h
    · exact Or.inr (Or.inl rfl)
    · rcases List.mem_cons.mp h with rfl | h
      · exact Or.inr (Or.inr (Or.inl rfl))
      · obtain ⟨value, -, rfl⟩ := List.mem_map.mp h
        exact Or.inr (Or.inr (Or.inr ⟨value, rfl⟩))
  · exact Or.inl (List.mem_singleton.mp h)

/-- What a request does. -/
def changes (p : EntryPath) (method : Text) (contentType : Option Bytes) (body : Body) : List Change :=
  if method = "PUT".toList then putChanges p contentType body
  else if method = "DELETE".toList then [.deleteAll p]
  else []

theorem handle_files (p : EntryPath) (method : Text) (contentType : Option Bytes) (body : Body) (t : FileTree) :
    ((handle p method contentType body).run.run t).2 =
      ((Store.runAll (changes p method contentType body)).run.run t).2 := by
  rw [run_handle, changes]
  by_cases hput : method = "PUT".toList
  · rw [if_neg (by rw [hput]; decide), if_pos hput, if_pos hput]
    exact put_files p contentType body t
  · by_cases hdelete : method = "DELETE".toList
    · have hrun : (Change.deleteAll p).run = Store.deleteAll p := rfl
      rw [if_neg (by rw [hdelete]; decide), if_neg hput, if_neg hput, if_pos hdelete, if_pos hdelete, run_delete,
        Store.run_runAll_cons, hrun]
      cases (Store.deleteAll p).run.run t with
      | mk r t' =>
        cases r with
        | ok u => rfl
        | error e => rfl
    · rw [if_neg hput, if_neg hput, if_neg hdelete, if_neg hdelete]
      split
      · cases get t p with
        | ok response => rfl
        | error failure => rfl
      · rfl

end Entry

/-! ## Outside of access configurations -/

section Configs
open EntryPath FileTree Acl
open Store (Change Written)

/-- The locations in access configurations. -/
def InConfig (l : Location) : Prop := ∃ a : EntryPath, a.Canonical ∧ configFolder a <:+ l

variable {q e : EntryPath}

theorem not_written_of_config (hq : q.Canonical) (hopen : ∀ above, ¬ authHops above <:+ q.hops) {l : Location}
    (hl : InConfig l) : ¬ Written q l := by
  obtain ⟨a, ha, hl⟩ := hl
  intro hwritten
  have hfacet : ∃ f, l <:+ q.place.facet f := by
    rcases hwritten with h | rfl | rfl
    · exact ⟨.data, h.trans (List.suffix_cons ..)⟩
    · exact ⟨.staging, List.suffix_rfl⟩
    · exact ⟨.data, List.suffix_rfl⟩
  obtain ⟨f, hf⟩ := hfacet
  have hcanonical : CanonicalHops (authHops a.hops) := ⟨isSegment_auth, by simp, ha⟩
  have hin := hl.trans hf
  rw [configFolder_eq] at hin
  have hw := (Store.children_suffix_facet_iff hcanonical hq (authHops_ne_nil _) (authHops_head _)).mp hin
  cases f with
  | data => exact hopen _ hw.suffix
  | staging => exact hopen _ hw.suffix
  | children =>
    rcases within_dir_cons.mp hw with heq | hw
    · exact hopen a.hops (heq ▸ List.suffix_rfl)
    · exact hopen _ hw.suffix

theorem putChanges_outside (he : e.Canonical) (hsealed : isSealed e = false) {contentType : Option Bytes}
    {body : Body} {c : Change} (hc : c ∈ Entry.putChanges e contentType body) :
    c.entry.Canonical ∧ ∀ l, InConfig l → ¬ c.Writes l := by
  have hcontent : ∀ l, InConfig l → ¬ Written e l := fun l =>
    not_written_of_config he (not_sealed_of_suffix hsealed)
  rcases Entry.mem_putChanges hc with rfl | rfl | rfl | ⟨value, rfl⟩
  · exact ⟨he, hcontent⟩
  · exact ⟨he, hcontent⟩
  · exact ⟨Entry.headersOf_canonical he, fun _ _ hl => hl⟩
  · exact ⟨Entry.typeOf_canonical he, fun l =>
      not_written_of_config (Entry.typeOf_canonical he) (authHops_suffix_type hsealed)⟩

theorem changes_outside (he : e.Canonical) (hsealed : isSealed e = false) {method : Text} {contentType : Option Bytes}
    {body : Body} {c : Change} (hc : c ∈ Entry.changes e method contentType body) :
    c.entry.Canonical ∧ ∀ l, InConfig l → ¬ c.Writes l := by
  rw [Entry.changes] at hc
  split at hc
  · exact putChanges_outside he hsealed hc
  · split at hc
    · obtain rfl := List.mem_singleton.mp hc
      exact ⟨he, fun _ _ hl => hl⟩
    · cases hc

end Configs

end Http
end EntryServer
