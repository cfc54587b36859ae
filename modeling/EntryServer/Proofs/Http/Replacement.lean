import EntryServer.Proofs.Http.Handling
import EntryServer.Proofs.Store.Writing

/-! # Replacements by requests

A request that replaces a content touches the entry, removes its stored header fields and stores the type
that is announced. Its answer depends on the paths and on whether there was a content before, and on nothing
else in the store. -/
namespace EntryServer.Http.Entry
set_option autoImplicit false
open EntryPath FileTree
open Store (Written Removed Draft)

/-! ## Paths of the stored fields -/

/-- The way to the stored header fields of an entry. -/
def fieldHops (above : List Step) : List Step := .child "headers".toList :: .metadata :: above

/-- The entry of the announced type. -/
def typeOf (p : EntryPath) : EntryPath := (headersOf p).child "content-type".toList

theorem headersOf_hops (p : EntryPath) : (headersOf p).hops = .dir :: fieldHops p.hops := by
  have hfile : p.parameters.file = p.parameters := file_of_head_ne_dir (by simp)
  have hclean : clean "headers/".toList = ["headers".toList] := by decide
  have hslash : endsWithSlash "headers/".toList = true := by decide
  simp only [headersOf, EntryPath.child, hclean, hfile, hslash]
  rfl

theorem headersOf_file (p : EntryPath) : (headersOf p).file.hops = fieldHops p.hops := by
  unfold EntryPath.file
  rw [headersOf_hops]

theorem typeOf_hops (p : EntryPath) : (typeOf p).hops = .child "content-type".toList :: fieldHops p.hops := by
  have hsegment : IsSegment "content-type".toList := by decide
  rw [typeOf, child_of_segment _ hsegment, literalChild, headersOf_file]

theorem headersOf_canonical {p : EntryPath} (hp : p.Canonical) : (headersOf p).Canonical := hp.parameters.child _

theorem typeOf_canonical {p : EntryPath} (hp : p.Canonical) : (typeOf p).Canonical := (headersOf_canonical hp).child _

theorem headersOf_data (p : EntryPath) : (headersOf p).place.data =
    "data".toList :: "headers.dir".toList :: (p.place.stem ++ "metadir".toList) :: p.place.folder := by
  have hstem : p.place.stem ++ "meta".toList ≠ [] := by simp
  rw [place, headersOf_hops]
  simp only [placeOf, fieldHops, Place.data, Place.children, place]
  simp

/-- Where an entry can be written, only the length of the whole path can keep its fields from being removed. -/
theorem headersOf_slot {t : FileTree} {p : EntryPath} (h : t.Fits p.place.staging)
    (hlong : ¬ t.Fits (headersOf p).place.data) : t.slot (headersOf p).place.data = .error .nameTooLong := by
  obtain ⟨hstaging, hfolder⟩ := List.forall_mem_cons.mp h.noNul
  obtain ⟨hsize, hsizes⟩ := List.forall_mem_cons.mp h.names
  have hnul : ∀ name ∈ (headersOf p).place.data, '\x00' ∉ name := by
    rw [headersOf_data]
    refine List.forall_mem_cons.mpr ⟨by decide, List.forall_mem_cons.mpr ⟨by decide,
      List.forall_mem_cons.mpr ⟨fun hm => ?_, hfolder⟩⟩⟩
    rcases List.mem_append.mp hm with hm | hm
    · exact hstaging (List.mem_append_left _ hm)
    · exact absurd hm (by decide)
  have hnames : ∀ name ∈ (headersOf p).place.data, Utf8.size name ≤ nameLimit := by
    rw [headersOf_data]
    refine List.forall_mem_cons.mpr ⟨by decide, List.forall_mem_cons.mpr ⟨by decide,
      List.forall_mem_cons.mpr ⟨Nat.le_trans ?_ hsize, hsizes⟩⟩⟩
    simp only [Utf8.size_append]
    exact Nat.add_le_add_left (by decide) _
  have hpath : pathLimit ≤ t.pathSize (headersOf p).place.data :=
    Nat.not_lt.mp fun hlt => hlong ⟨hnul, hlt, hnames⟩
  have hany : ¬ (headersOf p).place.data.any (·.contains '\x00') = true := by
    rw [List.any_eq_true]
    rintro ⟨name, hn, hc⟩
    exact hnul name hn (by simpa using hc)
  rw [slot, if_neg hany, if_pos hpath]

/-! ## The steps -/

section Steps
variable {t : FileTree} {p : EntryPath}

theorem run_removeFields (ht : Store.Sound t) (hp : p.Canonical) (hfits : t.Fits p.place.staging) :
    ∃ r t', (Store.deleteAll (headersOf p)).run.run t = (r, t') ∧ Store.Sound t' ∧ t'.root = t.root ∧
      (∀ l, ¬ Removed (headersOf p) l → t'.sight l = t.sight l) ∧
      match r with
      | .ok () => t.Fits (headersOf p).place.data
      | .error e => ¬ t.Fits (headersOf p).place.data ∧ e.isNotFound = false := by
  have hcanonical := headersOf_canonical hp
  rcases ht.deleteAll hcanonical with ⟨herror, t', hrun, ht', hcut⟩ | ⟨e, he, hslot, hrun⟩
  · refine ⟨_, t', hrun, ht', hcut.root, fun l hl => hcut.sight_kept hl, ?_⟩
    refine Decidable.byContradiction fun hlong => ?_
    have hnot := herror _ (headersOf_slot hfits hlong)
    cases hnot
  · refine ⟨_, t, hrun, ht, rfl, fun _ _ => rfl, fun hf => he (ht.missing_of_fits hcanonical hf hslot), ?_⟩
    exact StoreError.isNotFound_ofFile _ he

theorem run_storeType (ht : Store.Sound t) (hp : p.Canonical) (contentType : Option Bytes) :
    ∃ r t', (storeType p contentType).run.run t = (r, t') ∧ Store.Sound t' ∧ t'.root = t.root ∧
      (∀ l, ¬ Written (typeOf p) l → t'.sight l = t.sight l) ∧
      match r with
      | .ok _ => contentType = none ∨ t.Fits (typeOf p).place.staging
      | .error f => contentType ≠ none ∧ ¬ t.Fits (typeOf p).place.staging ∧
          ∃ e, f = .store e ∧ e.isNotFound = false := by
  cases contentType with
  | none => exact ⟨_, t, rfl, ht, rfl, fun _ _ => rfl, Or.inl rfl⟩
  | some value =>
    obtain ⟨r, t', hrun, ht', hroot, hframe, hr⟩ := Store.run_write_frame ht (typeOf_canonical hp) value
    have hstore := run_onStore (Store.write (typeOf p) value) t
    rw [hrun] at hstore
    cases r with
    | ok u => exact ⟨_, t', hstore, ht', hroot, hframe, Or.inr hr⟩
    | error e => exact ⟨_, t', hstore, ht', hroot, hframe, by simp, hr.1, e, rfl, hr.2⟩

end Steps

/-! ## The whole request -/

/-- The locations that a replacement may touch. -/
def PutTouched (p : EntryPath) (l : Location) : Prop :=
  Written p l ∨ Removed (headersOf p) l ∨ Written (typeOf p) l

/-- What is answered when a handler ends. -/
def answerOf : Except Failure Response → Response
  | .ok r => r
  | .error f => f.response

/-- The answer to a request that failed in the store. -/
def broken : Response := Response.text .internalServerError Status.internalServerError.reason

theorem answerOf_store {e : StoreError} (h : e.isNotFound = false) : answerOf (.error (.store e)) = broken := by
  simp [answerOf, Failure.response, Failure.status, h, broken]

/-- The answer to a replacement: it fails where a path is not accepted or the content ends early. -/
def putAnswer (t : FileTree) (p : EntryPath) (contentType : Option Bytes) (body : Body) : Response :=
  if ¬ t.Fits p.place.staging then broken
  else if body.complete = false then Failure.body.response
  else if ¬ t.Fits (headersOf p).place.data then broken
  else if contentType ≠ none ∧ ¬ t.Fits (typeOf p).place.staging then broken
  else Response.empty (if Store.hasData t p then .noContent else .created)

theorem run_put_spec {t : FileTree} (ht : Store.Sound t) {p : EntryPath} (hp : p.Canonical)
    (contentType : Option Bytes) (body : Body) :
    ∃ r t', (put p contentType body).run.run t = (r, t') ∧ Store.Sound t' ∧ t'.root = t.root ∧
      (∀ l, ¬ PutTouched p l → t'.sight l = t.sight l) ∧ answerOf r = putAnswer t p contentType body := by
  have hwritten : ∀ {l}, ¬ PutTouched p l → ¬ Written p l := fun hl h => hl (Or.inl h)
  have hfields : ∀ {l}, ¬ PutTouched p l → ¬ Removed (headersOf p) l := fun hl h => hl (Or.inr (Or.inl h))
  have htype : ∀ {l}, ¬ PutTouched p l → ¬ Written (typeOf p) l := fun hl h => hl (Or.inr (Or.inr h))
  obtain ⟨r₁, t₁, hrun₁, ht₁, hroot₁, hframe₁, hr₁⟩ := Store.run_create_frame ht hp
  rw [run_put, hrun₁, putAnswer]
  cases r₁ with
  | error e =>
    refine ⟨_, t₁, rfl, ht₁, hroot₁, fun l hl => hframe₁ l (hwritten hl), ?_⟩
    rw [if_pos hr₁.1, answerOf_store hr₁.2]
  | ok w =>
    obtain ⟨hfits, rfl, hdraft⟩ := hr₁
    rw [if_neg (not_not_intro hfits)]
    cases hcomplete : body.complete with
    | false =>
      obtain ⟨ht₂, -, hframe₂⟩ := Store.appendAll_frame ht₁ hdraft body.chunks
      refine ⟨_, _, rfl, ht₂, (Store.appendAll_root w t₁ body.chunks).trans hroot₁, fun l hl => ?_, rfl⟩
      rw [hframe₂ l (hwritten hl), hframe₁ l (hwritten hl)]
    | true =>
      obtain ⟨t₂, hrun₂, ht₂, hroot₂, hframe₂⟩ := Store.run_commit_frame ht₁ hp hdraft body.chunks
      have hroot₂ := hroot₂.trans hroot₁
      obtain ⟨r₃, t₃, hrun₃, ht₃, hroot₃, hframe₃, hr₃⟩ := run_removeFields ht₂ hp (hfits.congr t₂ hroot₂)
      have hroot₃ := hroot₃.trans hroot₂
      simp only [Bool.not_true, Bool.false_eq_true, if_false, hrun₂, hrun₃, reduceCtorEq]
      cases r₃ with
      | error e =>
        refine ⟨_, t₃, rfl, ht₃, hroot₃, fun l hl => ?_, ?_⟩
        · rw [hframe₃ l (hfields hl), hframe₂ l (hwritten hl), hframe₁ l (hwritten hl)]
        · rw [if_pos fun hf => hr₃.1 (hf.congr t₂ hroot₂), answerOf_store hr₃.2]
      | ok u =>
        obtain ⟨r₄, t₄, hrun₄, ht₄, hroot₄, hframe₄, hr₄⟩ := run_storeType ht₃ hp contentType
        have hroot₄ := hroot₄.trans hroot₃
        have hframe : ∀ l, ¬ PutTouched w.entry l → t₄.sight l = t.sight l := by
          intro l hl
          rw [hframe₄ l (htype hl), hframe₃ l (hfields hl), hframe₂ l (hwritten hl), hframe₁ l (hwritten hl)]
        have hfields' : t.Fits (headersOf w.entry).place.data := FileTree.Fits.congr hr₃ t hroot₂.symm
        simp only [hrun₄, if_neg (not_not_intro hfields')]
        cases r₄ with
        | error f =>
          obtain ⟨hsome, hunfit, e, rfl, he⟩ := hr₄
          refine ⟨_, t₄, rfl, ht₄, hroot₄, hframe, ?_⟩
          rw [if_pos ⟨hsome, fun hf => hunfit (hf.congr t₃ hroot₃)⟩, answerOf_store he]
        | ok a =>
          refine ⟨_, t₄, rfl, ht₄, hroot₄, hframe, ?_⟩
          have haccepted : ¬ (contentType ≠ none ∧ ¬ t.Fits (typeOf w.entry).place.staging) := by
            rintro ⟨hsome, hunfit⟩
            rcases hr₄ with hnone | hf
            · exact hsome hnone
            · exact hunfit (FileTree.Fits.congr hf t hroot₃.symm)
          rw [if_neg haccepted]
          rfl

end EntryServer.Http.Entry
