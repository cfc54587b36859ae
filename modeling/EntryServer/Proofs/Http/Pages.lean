import EntryServer.Proofs.Http.Confinement
import EntryServer.Proofs.Http.Fields
import Mathlib.Data.List.Infix

/-! # Pages

To its clients a store without configurations is a map from entries to pages: contents, each with the type that was
announced for it. In the store a page with a type takes two entries. The changes that a request makes to the contents
of all entries are those that it makes to the pages. -/
namespace EntryServer.Http
set_option autoImplicit false
open EntryPath
open Store (Change content?)
open Entry (headersOf typeOf fieldHops putChanges)

structure Page where
  content : Bytes
  type : Option Bytes
  deriving DecidableEq, Repr

abbrev Pages := EntryPath → Option Page

/-- A value of a field as it arrives with a request. -/
structure Received (value : Bytes) : Prop where
  isValue : Header.isValue value = true
  trimmed : Header.received value = value

instance (value : Bytes) : Decidable (Received value) :=
  decidable_of_iff (Header.isValue value = true ∧ Header.received value = value)
    ⟨fun ⟨hvalue, htrimmed⟩ => ⟨hvalue, htrimmed⟩, fun h => ⟨h.isValue, h.trimmed⟩⟩

/-! ## Entries of fields -/

/-- The entries in the stored fields of any entry. -/
def InFields (q : EntryPath) : Prop := ∃ above, fieldHops above <:+ q.hops

instance (q : EntryPath) : Decidable (InFields q) :=
  decidable_of_iff (∃ above ∈ q.hops.tails, fieldHops above <:+ q.hops)
    ⟨fun ⟨above, _, h⟩ => ⟨above, h⟩, fun ⟨above, h⟩ => ⟨above, (List.mem_tails above q.hops).mpr
      ((List.suffix_cons ..).trans ((List.suffix_cons ..).trans h)), h⟩⟩

/-- The entry whose type is stored there. -/
def typed? (q : EntryPath) : Option EntryPath :=
  match q.hops with
  | .child n :: .child fields :: .metadata :: above =>
    if n = "content-type".toList ∧ fields = "headers".toList then some ⟨above⟩ else none
  | _ => none

section Fields
variable {e p q : EntryPath}

theorem typed?_eq_some : typed? q = some p ↔ q = typeOf p := by
  constructor
  · intro h
    unfold typed? at h
    split at h
    · next n fields above hq =>
      split at h
      · next hnames =>
        obtain ⟨rfl, rfl⟩ := hnames
        obtain rfl := Option.some.inj h
        exact EntryPath.ext (hq.trans (Entry.typeOf_hops _).symm)
      · cases h
    · cases h
  · rintro rfl
    unfold typed?
    rw [Entry.typeOf_hops]
    rfl

theorem typeOf_inj (h : typeOf p = typeOf q) : p = q :=
  Option.some.inj ((typed?_eq_some.mpr rfl).symm.trans (typed?_eq_some.mpr h))

theorem inFields_typeOf (p : EntryPath) : InFields (typeOf p) := ⟨p.hops, Entry.typeOf_hops p ▸ List.suffix_cons ..⟩

theorem typed?_eq_none (hq : ¬ InFields q) : typed? q = none := by
  refine Option.eq_none_iff_forall_ne_some.mpr fun p h => hq ?_
  rw [typed?_eq_some.mp h]
  exact inFields_typeOf p

theorem literalChild_type (p : EntryPath) : (headersOf p).literalChild "content-type".toList = typeOf p :=
  EntryPath.ext (by rw [literalChild, Entry.headersOf_file, Entry.typeOf_hops])

theorem inFields_literalChild (p : EntryPath) (n : Text) : InFields ((headersOf p).literalChild n) :=
  ⟨p.hops, by rw [literalChild, Entry.headersOf_file]; exact List.suffix_cons ..⟩

theorem inFields_of_covers (h : (headersOf e).Covers q) : InFields q := ⟨e.hops, (covers_headersOf.mp h).suffix⟩

theorem covers_fields_type (p : EntryPath) : (headersOf p).Covers (typeOf p) := by
  rw [covers_headersOf, Entry.typeOf_hops]
  exact within_child_cons.mpr (Or.inl rfl)

/-- The fields of an entry hold no other type than its own, except for types of fields. -/
theorem eq_or_inFields_of_covers_type (h : (headersOf e).Covers (typeOf p)) : p = e ∨ InFields p := by
  rw [covers_headersOf, Entry.typeOf_hops] at h
  rcases within_child_cons.mp h with heq | h
  · exact Or.inl (EntryPath.ext (List.cons.inj (List.cons.inj heq).2).2)
  · rcases within_child_cons.mp h with heq | h
    · cases (List.cons.inj heq).1
    · exact Or.inr ⟨e.hops, (within_metadata_cons.mp h).suffix⟩

/-- A branch holds a type if it holds the entry, unless it begins between the two. -/
theorem covers_type_iff (he : ¬ InFields e) (hm : e.hops.head? ≠ some .metadata)
    (hd : ∀ above, e.hops ≠ .dir :: .metadata :: above) : e.Covers (typeOf p) ↔ e.Covers p := by
  have hway : p.hops <:+ (typeOf p).hops := by
    rw [Entry.typeOf_hops]
    exact (List.suffix_cons ..).trans ((List.suffix_cons ..).trans (List.suffix_cons ..))
  refine ⟨fun h => ?_, fun h => h.extend hway⟩
  -- what lies between an entry and its type are its metadata, the fields, and the type itself
  by_cases hdir : e.hops.head? = some .dir
  · obtain ⟨hops⟩ := e
    obtain ⟨above, rfl⟩ := List.head?_eq_some_iff.mp hdir
    rw [covers_container, Entry.typeOf_hops] at h
    rcases within_child_cons.mp h with rfl | h
    · exact absurd ⟨p.hops, List.suffix_cons ..⟩ he
    · rcases within_child_cons.mp h with rfl | h
      · exact absurd rfl (hd p.hops)
      · exact covers_container.mpr (within_metadata_cons.mp h)
  · rw [covers_leaf hdir, Entry.typeOf_hops] at h
    rcases List.suffix_cons_iff.mp h with heq | h
    · exact absurd ⟨p.hops, heq ▸ List.suffix_cons ..⟩ he
    · rcases List.suffix_cons_iff.mp h with heq | h
      · exact absurd ⟨p.hops, heq ▸ List.suffix_rfl⟩ he
      · rcases List.suffix_cons_iff.mp h with heq | h
        · exact absurd (heq ▸ rfl) hm
        · exact (covers_leaf hdir).mpr h

end Fields

namespace Pages

/-! ## Pages and requests -/

/-- Removes what a deletion of the entry removes. -/
def without (m : Pages) (e : EntryPath) : Pages := fun q => if e.Covers q then none else m q

/-- The pages after a request. -/
def after (m : Pages) (r : Request) : Pages :=
  let e := (Server.addressed r).entry
  if r.method = "PUT".toList then
    Function.update m e (some ⟨r.body.chunks.flatten, r.headers.first? "content-type"⟩)
  else if r.method = "DELETE".toList then m.without e
  else m

/-- How an entry is shown: its page with the announced type, or with the one that is guessed. -/
def shown (m : Pages) (e : EntryPath) : Response :=
  match m e with
  | none =>
    ⟨.notFound, [("content-type".toList, Ascii.bytes "text/plain; charset=utf-8"),
      ("content-length".toList, Header.ofNat 9)], Ascii.bytes "Not Found"⟩
  | some page =>
    ⟨.ok, [("content-type".toList, page.type.getD (Ascii.bytes (Entry.guessedType e page.content).text)),
      ("content-length".toList, Header.ofNat page.content.length)], page.content⟩

def answer (m : Pages) (r : Request) : Response :=
  let e := (Server.addressed r).entry
  if r.method = "PUT".toList then
    match m e with
    | none => ⟨.created, [("content-length".toList, Header.ofNat 0)], []⟩
    | some _ => ⟨.noContent, [], []⟩
  else if r.method = "DELETE".toList then ⟨.noContent, [], []⟩
  else m.shown e

/-- The answer as a client gets it: with an identifier, and without a content if only the fields are asked for. -/
def reply (m : Pages) (r : Request) (identifier : Bytes) : Response where
  status := (m.answer r).status
  headers := (m.answer r).headers ++ [("x-request-id".toList, (r.headers.first? "x-request-id").getD identifier)]
  body := if r.method = "HEAD".toList then [] else (m.answer r).body

/-! ## Pages in a store -/

/-- The contents of all entries: those of the pages, and their types. -/
def stored (m : Pages) (q : EntryPath) : Option Bytes :=
  match typed? q with
  | some p => (m p).bind Page.type
  | none => (m q).map Page.content

/-- Stored fields have no pages, and types are as they arrive. -/
structure Proper (m : Pages) : Prop where
  apart : ∀ q, InFields q → m q = none
  types : ∀ q page, m q = some page → ∀ value, page.type = some value → Received value

variable {m : Pages} {e p q : EntryPath}

theorem stored_typeOf (m : Pages) (p : EntryPath) : m.stored (typeOf p) = (m p).bind Page.type := by
  rw [stored, typed?_eq_some.mpr rfl]

theorem stored_of_apart (m : Pages) (hq : ¬ InFields q) : m.stored q = (m q).map Page.content := by
  rw [stored, typed?_eq_none hq]

theorem stored_field (hm : m.Proper) (hq : InFields q) (hne : ∀ p, q ≠ typeOf p) : m.stored q = none := by
  have hnone : typed? q = none := Option.eq_none_iff_forall_ne_some.mpr fun p h => hne p (typed?_eq_some.mp h)
  rw [stored, hnone]
  exact congrArg (Option.map Page.content) (hm.apart q hq)

theorem proper_empty : Proper fun _ => none := ⟨fun _ _ => rfl, fun _ _ h => nomatch h⟩

theorem Proper.update (hm : m.Proper) (he : ¬ InFields e) {page : Page}
    (htype : ∀ value, page.type = some value → Received value) : Proper (Function.update m e (some page)) := by
  constructor
  · intro q hq
    have hne : q ≠ e := fun heq => he (heq ▸ hq)
    rw [Function.update_of_ne hne]
    exact hm.apart q hq
  · intro q found hfound
    by_cases hqe : q = e
    · rw [hqe, Function.update_self] at hfound
      obtain rfl := Option.some.inj hfound
      exact htype
    · rw [Function.update_of_ne hqe] at hfound
      exact hm.types q found hfound

theorem Proper.without (hm : m.Proper) (e : EntryPath) : (m.without e).Proper := by
  constructor
  · intro q hq
    rw [Pages.without, hm.apart q hq, ite_self]
  · intro q page hpage
    rw [Pages.without] at hpage
    split at hpage
    · cases hpage
    · exact hm.types q page hpage

theorem Proper.after (hm : m.Proper) {r : Request} (he : ¬ InFields (Server.addressed r).entry)
    (htype : ∀ value ∈ r.headers.first? "content-type", Received value) : (m.after r).Proper := by
  unfold Pages.after
  split
  · exact hm.update he htype
  · split
    · exact hm.without _
    · exact hm

/-! ### Changes -/

theorem apply_putChanges (f : EntryPath → Option Bytes) {body : Body} (hbody : body.complete = true)
    (contentType : Option Bytes) : ((putChanges e contentType body).foldl Change.apply f) q =
      if q = typeOf e then contentType
      else if (headersOf e).Covers q then none
      else if q = e then some body.chunks.flatten else f q := by
  rw [putChanges, if_pos hbody, List.foldl_cons, List.foldl_cons]
  cases contentType with
  | none =>
    simp only [Option.toList_none, List.map_nil, List.foldl_nil, Change.apply]
    by_cases hq : q = typeOf e
    · rw [if_pos hq, if_pos (hq ▸ covers_fields_type e)]
    · rw [if_neg hq]
  | some value => rfl

theorem stored_update (hm : m.Proper) (he : ¬ InFields e) {body : Body} (hbody : body.complete = true)
    (contentType : Option Bytes) : (putChanges e contentType body).foldl Change.apply m.stored =
      stored (Function.update m e (some ⟨body.chunks.flatten, contentType⟩)) := by
  funext q
  rw [apply_putChanges m.stored hbody]
  -- a type belongs to the page of another entry, and is removed only with the types of fields
  cases htyped : typed? q with
  | some p =>
    obtain rfl := typed?_eq_some.mp htyped
    rw [stored_typeOf, stored_typeOf]
    by_cases hpe : p = e
    · rw [hpe, if_pos rfl, Function.update_self]
      rfl
    · have hne : typeOf p ≠ typeOf e := fun heq => hpe (typeOf_inj heq)
      have hentry : typeOf p ≠ e := fun heq => he (heq ▸ inFields_typeOf p)
      rw [if_neg hne, if_neg hentry, Function.update_of_ne hpe]
      split
      · next hcovers =>
        rw [hm.apart p ((eq_or_inFields_of_covers_type hcovers).resolve_left hpe)]
        rfl
      · rfl
  | none =>
    have hne : q ≠ typeOf e := fun heq => by rw [typed?_eq_some.mpr heq] at htyped; cases htyped
    rw [if_neg hne, stored, htyped, stored, htyped]
    by_cases hqe : q = e
    · have hout : ¬ (headersOf e).Covers q := fun hcovers => he (hqe ▸ inFields_of_covers hcovers)
      rw [if_neg hout, if_pos hqe, hqe, Function.update_self]
      rfl
    · rw [if_neg hqe, Function.update_of_ne hqe]
      split
      · next hcovers => rw [hm.apart q (inFields_of_covers hcovers), Option.map_none]
      · rfl

theorem stored_without (m : Pages) (he : ¬ InFields e) (hhead : e.hops.head? ≠ some .metadata)
    (hd : ∀ above, e.hops ≠ .dir :: .metadata :: above) :
    (Change.deleteAll e).apply m.stored = (m.without e).stored := by
  funext q
  simp only [Change.apply]
  cases htyped : typed? q with
  | some p =>
    obtain rfl := typed?_eq_some.mp htyped
    rw [stored_typeOf, stored_typeOf, without]
    by_cases hp : e.Covers p
    · rw [if_pos hp, if_pos ((covers_type_iff he hhead hd).mpr hp)]
      rfl
    · rw [if_neg hp, if_neg (mt (covers_type_iff he hhead hd).mp hp)]
  | none =>
    rw [stored, htyped, stored, htyped]
    simp only [without]
    split
    · rfl
    · rfl

/-- The changes of a request make of the contents those of the pages after the request. -/
theorem stored_after (hm : m.Proper) {r : Request} (he : ¬ InFields (Server.addressed r).entry)
    (hhead : (Server.addressed r).entry.hops.head? ≠ some .metadata)
    (hd : ∀ above, (Server.addressed r).entry.hops ≠ .dir :: .metadata :: above) (hbody : r.body.complete = true) :
    (Entry.changes (Server.addressed r).entry r.method (r.headers.first? "content-type") r.body).foldl
      Change.apply m.stored = (m.after r).stored := by
  unfold Entry.changes after
  by_cases hput : r.method = "PUT".toList
  · simp only [if_pos hput]
    exact stored_update hm he hbody _
  · simp only [if_neg hput]
    split
    · exact stored_without m he hhead hd
    · rfl

end Pages

/-! ## Showing pages -/

theorem isBlank_of_value {b : UInt8} (h : ((32 ≤ b && b ≠ 127) || b = 9) = true) :
    Ascii.isBlank b = (b = 32 || b = 9) := by
  have hblank : ∀ c : UInt8, ((32 ≤ c && c ≠ 127) || c = 9) = false → b ≠ c := by
    rintro c hc rfl
    rw [h] at hc
    cases hc
  have hfeed := beq_eq_false_iff_ne.mpr (hblank 10 (by decide))
  have hreturn := beq_eq_false_iff_ne.mpr (hblank 13 (by decide))
  have hform := beq_eq_false_iff_ne.mpr (hblank 12 (by decide))
  rw [Ascii.isBlank, hfeed, hreturn, hform, Bool.or_false, Bool.or_false, Bool.or_false]
  rfl

theorem Received.trim {value : Bytes} (h : Received value) : Ascii.trim value = value := by
  have hdrop : ∀ bs : Bytes, (∀ b ∈ bs, b ∈ value) →
      bs.dropWhile Ascii.isBlank = bs.dropWhile fun b => b = 32 || b = 9 := by
    intro bs
    induction bs with
    | nil => exact fun _ => rfl
    | cons b bs ih =>
      intro hbs
      obtain ⟨hb, hrest⟩ := List.forall_mem_cons.mp hbs
      rw [List.dropWhile_cons, List.dropWhile_cons, isBlank_of_value (List.all_eq_true.mp h.isValue b hb), ih hrest]
  have hback : ∀ b ∈ (value.dropWhile fun b => b = 32 || b = 9).reverse, b ∈ value := fun b hb =>
    (List.dropWhile_sublist _).subset (List.mem_reverse.mp hb)
  rw [Ascii.trim, hdrop value fun _ hb => hb, hdrop _ hback]
  exact h.trimmed

namespace Pages
variable {m : Pages} {t : FileTree} {p : EntryPath}

/-- A stored type is sent as it was announced. -/
theorem storedHeader?_type (hm : m.Proper) (ht : Store.Sound t)
    (hstored : content? t (typeOf p) = (m p).bind Page.type) :
    Entry.storedHeader? t (typeOf p) = ((m p).bind Page.type).map fun value => ("content-type".toList, value) := by
  have hname : Header.name? (typeOf p).name = some "content-type".toList := by
    rw [EntryPath.name, Entry.typeOf_hops, nameOf]
    decide
  have hlength : ¬ "content-type".toList = "content-length".toList := by decide
  rw [Entry.storedHeader?, hname]
  simp only [if_neg hlength]
  cases htype : (m p).bind Page.type with
  | none =>
    split
    · rfl
    · next content hread =>
      rw [ht.read_ok_iff.mp hread, htype] at hstored
      cases hstored
  | some value =>
    obtain ⟨page, hpage, hvalue⟩ := Option.bind_eq_some_iff.mp htype
    have hreceived := hm.types p page hpage value hvalue
    rw [ht.read_ok_iff.mpr (hstored.trans htype)]
    simp only [hreceived.trim, hreceived.isValue, if_true, Option.map_some]

theorem storedHeaders_page (hm : m.Proper) (ht : Store.Sound t) (hstored : ∀ q, q.Canonical → content? t q = m.stored q)
    (hp : p.Canonical) : Entry.storedHeaders t p =
      ((m p).bind Page.type).toList.map fun value => ("content-type".toList, value) := by
  have hsegment : IsSegment "content-type".toList := by decide
  have honly : ∀ n, IsSegment n → content? t ((headersOf p).literalChild n) ≠ none → n ∈ ["content-type".toList] := by
    intro n hn hcontent
    rw [hstored _ ((Entry.headersOf_canonical hp).literalChild hn)] at hcontent
    refine Decidable.byContradiction fun hother => hcontent ?_
    refine stored_field hm (inFields_literalChild p n) fun q heq => hother ?_
    have hhops := congrArg EntryPath.hops heq
    rw [literalChild, Entry.typeOf_hops] at hhops
    exact List.mem_singleton.mpr (Step.child.inj (List.cons.inj hhops).1)
  have htype := storedHeader?_type hm ht ((hstored _ (Entry.typeOf_canonical hp)).trans (stored_typeOf m p))
  rw [Entry.storedHeaders_of_names ht (List.pairwise_singleton _ _) (List.forall_mem_singleton.mpr hsegment) honly]
  cases hbind : (m p).bind Page.type with
  | none =>
    rw [hbind] at htype
    simp only [List.filterMap_cons, literalChild_type, htype]
    rfl
  | some value =>
    rw [hbind] at htype
    simp only [List.filterMap_cons, literalChild_type, htype]
    rfl

/-- An entry is answered as its page is shown. -/
theorem get_shown (hm : m.Proper) (ht : Store.Sound t) (hstored : ∀ q, q.Canonical → content? t q = m.stored q)
    (hp : p.Canonical) (hout : ¬ InFields p) (hfits : t.Fits p.place.data) (headOnly : Bool) :
    (Entry.answerOf (Entry.get t p)).completed headOnly =
      { m.shown p with body := if headOnly then [] else (m.shown p).body } := by
  have hcontent : content? t p = (m p).map Page.content := (hstored p hp).trans (stored_of_apart m hout)
  have hfields := storedHeaders_page hm ht hstored hp
  rw [Entry.get, shown]
  cases hpage : m p with
  | none =>
    rw [hpage] at hcontent
    have hmissing : Entry.answerOf (.error (.store (.notFound (p.dataText t.root)))) =
        ⟨.notFound, [("content-type".toList, Ascii.bytes MediaType.plain.text)], Ascii.bytes "Not Found"⟩ := rfl
    rw [ht.read_missing hp hfits hcontent]
    simp only [hmissing]
    rfl
  | some page =>
    rw [hpage] at hcontent hfields
    rw [ht.read_ok_iff.mpr hcontent, hfields]
    obtain ⟨content, type⟩ := page
    cases type with
    | none => rfl
    | some value => rfl

theorem answer_without_id (m : Pages) (r : Request) : (m.answer r).headers.has "x-request-id" = false := by
  simp only [answer, shown]
  split
  · split
    · rfl
    · rfl
  · split
    · rfl
    · split
      · rfl
      · rfl

end Pages

end EntryServer.Http
