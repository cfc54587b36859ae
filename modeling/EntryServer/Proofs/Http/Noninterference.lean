import EntryServer.Proofs.Http.Confinement

/-! # Answers tell nothing about access configurations

Two stores that differ only in what the files of access configurations hold answer a request alike, once
both authorize it, unless it deletes. -/
namespace EntryServer.FileTree
set_option autoImplicit false

/-- What is seen at a location, apart from the content of a file. -/
def Sight.blank : Sight → Sight
  | directory => directory
  | file _ => file []

end FileTree

namespace Http
open EntryPath FileTree Acl
open Entry (headersOf typeOf fieldHops)

/-- Two stores have the same files, and those of entries that are not sealed have the same content. -/
structure Alike (t t' : FileTree) : Prop where
  root : t'.root = t.root
  shape : ∀ l, (t'.sight l).map Sight.blank = (t.sight l).map Sight.blank
  contents : ∀ (q : EntryPath) (f : Facet), q.Canonical → isSealed q = false →
    t'.sight (q.place.facet f) = t.sight (q.place.facet f)

namespace Alike
variable {t t' : FileTree}

/-- Stores that differ in the contents of sealed files only are alike. -/
theorem of_contents (hroot : t'.root = t.root) (hnodes : t'.nodes = t.nodes)
    (hblob : ∀ l i, (l, .file i) ∈ t.nodes → t'.blob i = t.blob i ∨ ∃ p, ConfigFacet p l) : Alike t t' := by
  have hnode : ∀ l, t'.node? l = t.node? l := fun l => by rw [node?, node?, hnodes]
  constructor
  · exact hroot
  · intro l
    unfold sight
    rw [hnode]
    cases t.node? l with
    | none => rfl
    | some n => cases n <;> rfl
  · intro q f hq hsealed
    refine sight_congr (hnode _) fun i hi => ?_
    have hne : q.place.facet f ≠ [] := List.cons_ne_nil _ _
    rw [node?_of_ne_nil _ hne, List.lookup_eq_some_iff] at hi
    obtain ⟨before, after, hsplit, -⟩ := hi
    rcases hblob (q.place.facet f) i (by simp [hsplit]) with h | ⟨p, b, g, hb, hcovers, hfacet⟩
    · exact h
    · have hauth := covers_configOf.mp hcovers
      rw [← (facet_inj hq hb hfacet).1] at hauth
      exact absurd hauth (not_sealed_of_suffix hsealed p.hops)

theorem none_iff (h : Alike t t') (l : Location) : t'.sight l = none ↔ t.sight l = none := by
  have hshape := h.shape l
  constructor
  · intro hnone
    rw [hnone] at hshape
    exact Option.map_eq_none_iff.mp hshape.symm
  · intro hnone
    rw [hnone] at hshape
    exact Option.map_eq_none_iff.mp hshape

theorem sight_of_no_file (h : Alike t t') {l : Location} (hl : ∀ i, t.node? l ≠ some (.file i)) :
    t'.sight l = t.sight l := by
  have hshape := h.shape l
  cases hs : t.sight l with
  | none => exact (h.none_iff l).mpr hs
  | some s =>
    cases s with
    | file content =>
      obtain ⟨i, hi, -⟩ := sight_eq_file.mp hs
      exact absurd hi (hl i)
    | directory =>
      rw [hs] at hshape
      cases hs' : t'.sight l with
      | none =>
        rw [hs'] at hshape
        cases hshape
      | some s' =>
        rw [hs'] at hshape
        cases s' with
        | file content => cases hshape
        | directory => rfl

theorem look (h : Alike t t') {name : Text} {folder : Location} (hc : t.Clear folder)
    (hs : t'.sight (name :: folder) = t.sight (name :: folder)) :
    t'.look (name :: folder) = t.look (name :: folder) := by
  refine look_congr_of_sights h.root fun r hr => ?_
  rcases List.suffix_cons_iff.mp hr with rfl | hr
  · exact hs
  · exact h.sight_of_no_file (hc r hr)

theorem read (h : Alike t t') (ht : Store.Sound t) {q : EntryPath} (hq : q.Canonical)
    (hsealed : isSealed q = false) : Store.read t' q = Store.read t q :=
  Store.read_congr h.root (h.look (ht.clear_folder hq) (h.contents q .data hq hsealed))

end Alike

/-! ## The stored fields -/

theorem authHops_suffix_deeper {above hops : List Step} (k : Nat) (h : authHops above <:+ deeper k hops) :
    authHops above <:+ hops := by
  induction k with
  | zero => exact h
  | succ k ih =>
    rw [deeper_succ] at h
    rcases List.suffix_cons_iff.mp h with heq | h
    · cases (List.cons.inj heq).1
    · exact ih h

/-- What lies directly in the folder of the stored fields is not sealed. -/
theorem unsealed_of_folder {e b : EntryPath} (he : e.Canonical) (hsealed : isSealed e = false)
    (hb : b.Canonical) (hfolder : b.place.folder = (placeOf (fieldHops e.hops)).facet .children) :
    isSealed b = false := by
  have hfields : CanonicalHops (fieldHops e.hops) := ⟨by decide, by simp, he⟩
  have hne : fieldHops e.hops ≠ [] := List.cons_ne_nil _ _
  have hd : (fieldHops e.hops).head? ≠ some .dir := by simp [fieldHops]
  have hchildren : ∀ above : List Step, CanonicalHops above → above.head? ≠ some .dir →
      (placeOf above).children = (placeOf (fieldHops e.hops)).facet .children → above = fieldHops e.hops := by
    intro above ha hda heq
    rw [← children_eq_facet hne hd] at heq
    exact placeOf_inj ha hfields (children_inj hda hd heq)
  cases hs : isSealed b with
  | false => rfl
  | true =>
    exfalso
    obtain ⟨above, hauth⟩ := sealedHops_iff.mp hs
    obtain ⟨k, owner, howner, hmeta⟩ := exists_deeper b.hops
    have hcanonical : CanonicalHops owner := by
      have hbh : CanonicalHops b.hops := hb
      rw [howner] at hbh
      exact hbh.suffix (suffix_deeper k owner)
    rw [howner] at hauth
    have hauth := authHops_suffix_deeper k hauth
    rw [place, howner, placeOf_deeper] at hfolder
    cases owner with
    | nil => exact authHops_ne_nil above (List.suffix_nil.mp hauth)
    | cons step rest =>
      cases step with
      | child n =>
        obtain rfl := hchildren rest hcanonical.2.2 hcanonical.2.1 hfolder
        rcases List.suffix_cons_iff.mp hauth with heq | hauth
        · cases (List.cons.inj (List.cons.inj heq).2).1
        · exact authHops_suffix_fields hsealed above hauth
      | dir =>
        obtain rfl := hchildren rest hcanonical.2.2 hcanonical.2.1 hfolder
        rcases List.suffix_cons_iff.mp hauth with heq | hauth
        · cases (List.cons.inj heq).1
        · exact authHops_suffix_fields hsealed above hauth
      | metadata => exact hmeta rfl

section Fields
variable {t t' : FileTree} {e : EntryPath}

theorem headersOf_children (e : EntryPath) :
    (headersOf e).place.children = (placeOf (fieldHops e.hops)).facet .children := by
  have hne : fieldHops e.hops ≠ [] := List.cons_ne_nil _ _
  have hd : (fieldHops e.hops).head? ≠ some .dir := by simp [fieldHops]
  rw [← children_eq_facet hne hd, place, Entry.headersOf_hops]
  simp [placeOf, Place.children]

theorem literalChild_data (e : EntryPath) (name : Text) : ((headersOf e).literalChild name).place.data =
    (name ++ ['.'] ++ "data".toList) :: (headersOf e).place.children := by
  have hne : fieldHops e.hops ≠ [] := List.cons_ne_nil _ _
  have hd : (fieldHops e.hops).head? ≠ some .dir := by simp [fieldHops]
  rw [headersOf_children, ← children_eq_facet hne hd, place, literalChild, Entry.headersOf_file]
  rfl

theorem Alike.sight_field (h : Alike t t') (ht : Store.Sound t) (he : e.Canonical)
    (hsealed : isSealed e = false) (name : Text) :
    t'.sight (name :: (headersOf e).place.children) = t.sight (name :: (headersOf e).place.children) := by
  cases hn : t.node? (name :: (headersOf e).place.children) with
  | none => exact h.sight_of_no_file fun i hi => by rw [hn] at hi; cases hi
  | some n =>
    obtain ⟨b, f, hb, heq, -⟩ := ht.facets hn (List.cons_ne_nil _ _)
    have hfolder : (⟨b⟩ : EntryPath).place.folder = (placeOf (fieldHops e.hops)).facet .children := by
      rw [← headersOf_children]
      exact (List.cons.inj heq).2.symm
    rw [heq]
    exact h.contents ⟨b⟩ f hb (unsealed_of_folder he hsealed hb hfolder)

theorem clear_fields (ht : Store.Sound t) (he : e.Canonical) : t.Clear (headersOf e).place.children :=
  ht.clear_children (Entry.headersOf_canonical he)

theorem Alike.storedHeaders (h : Alike t t') (ht : Store.Sound t) (he : e.Canonical)
    (hsealed : isSealed e = false) : Entry.storedHeaders t' e = Entry.storedHeaders t e := by
  have hclear := clear_fields (e := e) ht he
  have hchildren : Store.children t' (headersOf e) = Store.children t (headersOf e) :=
    Store.children_congr h.root
      (look_congr_of_sights h.root fun r hr => h.sight_of_no_file (hclear r hr))
      fun name _ => by rw [h.sight_field ht he hsealed name]
  have hfield : ∀ name, Entry.storedHeader? t' ((headersOf e).literalChild name) =
      Entry.storedHeader? t ((headersOf e).literalChild name) := by
    intro name
    have hread : Store.read t' ((headersOf e).literalChild name) = Store.read t ((headersOf e).literalChild name) := by
      refine Store.read_congr h.root ?_
      rw [literalChild_data]
      exact h.look hclear (h.sight_field ht he hsealed _)
    rw [Entry.storedHeader?, Entry.storedHeader?, hread]
  rw [Entry.storedHeaders, Entry.storedHeaders, hchildren]
  cases hlist : Store.children t (headersOf e) with
  | error e => rfl
  | ok found =>
    refine List.filterMap_congr fun c hc => ?_
    obtain ⟨name, rfl⟩ := Store.mem_children hlist hc
    exact hfield name

theorem Alike.get (h : Alike t t') (ht : Store.Sound t) (he : e.Canonical) (hsealed : isSealed e = false) :
    Entry.get t' e = Entry.get t e := by
  rw [Entry.get, Entry.get, h.read ht he hsealed, h.storedHeaders ht he hsealed]

theorem Alike.hasData (h : Alike t t') (ht : Store.Sound t) (ht' : Store.Sound t') (he : e.Canonical)
    (hsealed : isSealed e = false) : Store.hasData t' e = Store.hasData t e :=
  Store.hasData_eq ht.tree ht'.tree (h.contents e .data he hsealed)

/-- The answer to a replacement is the same, since no path is accepted in one store only. -/
theorem Alike.putAnswer (h : Alike t t') (ht : Store.Sound t) (ht' : Store.Sound t') (he : e.Canonical)
    (hsealed : isSealed e = false) (contentType : Option Bytes) (body : Body) :
    Entry.putAnswer t' e contentType body = Entry.putAnswer t e contentType body := by
  have hfits : ∀ l, t'.Fits l ↔ t.Fits l := fun l => ⟨fun hf => hf.congr t h.root.symm, fun hf => hf.congr t' h.root⟩
  simp only [Entry.putAnswer, hfits, h.hasData ht ht' he hsealed]

end Fields

/-! ## Answers -/

namespace Server

theorem answer_response (s : Server) (e : EntryPath) (target : Target) (r : Request) (t : FileTree) :
    (s.answer e target r t).1 = if target.path.head? = some '/' then
      Entry.answerOf ((Entry.handle e r.method (r.headers.first? "content-type")
        (s.received r)).run.run t).1
      else Response.empty .notFound := by
  unfold answer
  split
  · simp only
    split
    · next h =>
      rw [h]
      rfl
    · next h =>
      rw [h]
      rfl
  · rfl

theorem answer_alike (s : Server) {r : Request} (hmethod : r.method ≠ "DELETE".toList) {e : EntryPath}
    (he : e.Canonical) (hsealed : isSealed e = false) (target : Target) {t t' : FileTree} (ht : Store.Sound t)
    (ht' : Store.Sound t') (h : Alike t t') : (s.answer e target r t').1 = (s.answer e target r t).1 := by
  rw [answer_response, answer_response]
  split
  · rw [Entry.run_handle, Entry.run_handle, h.get ht he hsealed]
    split
    · cases Entry.get t e with
      | ok response => rfl
      | error failure => rfl
    · split
      · obtain ⟨r₁, t₁, hrun, -, -, -, hanswer⟩ := Entry.run_put_spec ht he (r.headers.first? "content-type")
          (s.received r)
        obtain ⟨r₂, t₂, hrun', -, -, -, hanswer'⟩ := Entry.run_put_spec ht' he (r.headers.first? "content-type")
          (s.received r)
        rw [hrun, hrun', hanswer, hanswer', h.putAnswer ht ht' he hsealed]
      · rfl
  · rfl

end Server

end Http
end EntryServer
