import EntryServer.Proofs.Acl.Climbs
import EntryServer.Proofs.Acl.Listing
import EntryServer.Proofs.Store.Removal
import Mathlib.Data.List.Induction

/-! # Stores that differ in their users

The users of a domain are kept in a folder of its scope. The listing of domains, the realms and the rules are read
beside this folder. So for an entry that is not sealed they are the same in two stores that differ in such folders
only. -/
namespace EntryServer.Acl
set_option autoImplicit false
open EntryPath FileTree

/-! ## Configurations one below the other -/

section Configured
variable {p a : EntryPath}

theorem configured_canonical (ha : a.Canonical) {names : List Text} (h : ∀ n ∈ names, IsSegment n) :
    (configured a names).Canonical := by
  induction names using List.reverseRecOn with
  | nil =>
    rw [configured_nil]
    exact configOf_canonical ha
  | append_singleton names n ih =>
    obtain ⟨hnames, hn⟩ := List.forall_mem_append.mp h
    rw [← configured_child a names (hn n (List.mem_singleton.mpr rfl))]
    exact (ih hnames).child n

theorem configured_leaf (a : EntryPath) (names : List Text) : (configured a names).isContainer = false := by
  rcases List.eq_nil_or_concat names with rfl | ⟨names, n, rfl⟩
  · rfl
  · exact isLeaf_iff.mpr (by simp [configured_hops_append])

theorem prefix_of_configured_suffix (ha : isSealed a = false) {names names' : List Text}
    (h : (configured p names).hops <:+ (configured a names').hops) : p = a ∧ names <+: names' := by
  have hchildren : .metadata ∉ (names'.map Step.child).reverse := by simp
  obtain rfl := eq_of_authHops_suffix ha hchildren ((List.suffix_append _ _).trans h)
  refine ⟨rfl, ?_⟩
  obtain ⟨way, hway⟩ := h
  rw [configured, configured, ← List.append_assoc, List.append_cancel_right_eq] at hway
  have hprefix : names.map Step.child <+: names'.map Step.child :=
    List.reverse_suffix.mp ⟨way, hway⟩
  obtain ⟨more, hmore, heq⟩ := List.prefix_map_iff.mp hprefix
  rwa [List.map_injective_iff.mpr (fun _ _ => Step.child.inj) heq]

theorem prefix_of_children_suffix (hp : p.Canonical) (ha : a.Canonical) (hsealed : isSealed a = false)
    {names names' : List Text} (hnames : ∀ n ∈ names, IsSegment n) (hnames' : ∀ n ∈ names', IsSegment n)
    (h : (configured p names).place.children <:+ (configured a names').place.children) : names <+: names' := by
  obtain ⟨hne, hd⟩ := isLeaf_iff.mp (configured_leaf p names)
  rw [children_of_leaf (configured_leaf p names), children_of_leaf (configured_leaf a names')] at h
  have hw := (Store.children_suffix_facet_iff (configured_canonical hp hnames) (configured_canonical ha hnames')
    hne hd).mp h
  have hsuffix : (configured p names).hops <:+ (configured a names').hops := by
    rcases within_dir_cons.mp hw with heq | hw
    · exact heq ▸ List.suffix_rfl
    · exact hw.suffix
  exact (prefix_of_configured_suffix hsealed hsuffix).2

end Configured

/-! ## Where users are kept -/

/-- At or below the folder of the users of some scope. Whether the scope is there is told outside of it. -/
def InUsers (scheme : Text) (l : Location) : Prop :=
  ∃ (p : EntryPath) (d : Text), p.Canonical ∧ IsSegment d ∧
    (configured p [d, usersFolder scheme]).place.children <:+ l

/-- Two stores differ at most in the users of scopes. -/
structure SameButUsers (scheme : Text) (t t' : FileTree) : Prop where
  root : t'.root = t.root
  sight : ∀ l, ¬ InUsers scheme l → t'.sight l = t.sight l

/-- A store that has lost the users of a scope. -/
theorem sameButUsers_eraseBranch (scheme : Text) (t : FileTree) {p : EntryPath} (hp : p.Canonical) {d : Text}
    (hd : IsSegment d) :
    SameButUsers scheme t (t.eraseBranch (configured p [d, usersFolder scheme]).place.children) := by
  refine ⟨rfl, fun l hl => ?_⟩
  have hout : ¬ (configured p [d, usersFolder scheme]).place.children <:+ l := fun hin => hl ⟨p, d, hp, hd, hin⟩
  have hne : (configured p [d, usersFolder scheme]).place.children ≠ [] := by
    rw [children_of_leaf (configured_leaf ..)]
    exact List.cons_ne_nil _ _
  rw [sight, node?_eraseBranch t hne, if_neg hout]
  rfl

section Places
variable {scheme : Text} {a : EntryPath}

theorem InUsers.below {l l' : Location} (h : InUsers scheme l) (hl : l <:+ l') : InUsers scheme l' := by
  obtain ⟨p, d, hp, hd, hsuffix⟩ := h
  exact ⟨p, d, hp, hd, hsuffix.trans hl⟩

variable (hscheme : '/' ∉ scheme) (ha : a.Canonical) (hsealed : isSealed a = false)
include hscheme ha hsealed

/-- In a configuration, users are kept two names deep. -/
theorem inUsers_cons {names : List Text} (hnames : ∀ n ∈ names, IsSegment n) {name : Text}
    (h : InUsers scheme (name :: (configured a names).place.children)) :
    ∃ d, [d] <+: names ∧ name = usersFolder scheme ++ ['.'] ++ "dir".toList ∨ [d, usersFolder scheme] <+: names := by
  obtain ⟨p, d, hp, hd, hsuffix⟩ := h
  have husers : IsSegment (usersFolder scheme) := isSegment_usersFolder hscheme
  refine ⟨d, ?_⟩
  rcases List.suffix_cons_iff.mp hsuffix with heq | hsuffix
  · have hfolder := children_configured p [d] (usersFolder scheme)
    rw [List.singleton_append, heq] at hfolder
    obtain ⟨hname, hchildren⟩ := List.cons.inj hfolder
    have hsame : (configured p [d]).place.children <:+ (configured a names).place.children :=
      hchildren ▸ List.suffix_rfl
    exact Or.inl ⟨prefix_of_children_suffix hp ha hsealed (by simpa using hd) hnames hsame, hname⟩
  · exact Or.inr (prefix_of_children_suffix hp ha hsealed (by simp [hd, husers]) hnames hsuffix)

theorem not_inUsers_listed (name : Text) : ¬ InUsers scheme (name :: (configured a []).place.children) := by
  intro h
  obtain ⟨d, hd⟩ := inUsers_cons hscheme ha hsealed (by simp) h
  simp at hd

theorem not_inUsers_data {d : Text} (hd : IsSegment d) (n : Text) :
    ¬ InUsers scheme (configured a [d, n]).place.data := by
  intro h
  have hdata := data_configured a [d] n
  rw [List.singleton_append] at hdata
  rw [hdata] at h
  obtain ⟨e, ⟨-, hname⟩ | hprefix⟩ := inUsers_cons hscheme ha hsealed (by simpa using hd) h
  · have hending : n ++ ['.'] ++ Facet.data.ending = usersFolder scheme ++ ['.'] ++ Facet.children.ending := hname
    cases (Facet.ending_inj hending).2
  · simpa using hprefix.length_le

end Places

/-! ## What is read beside the users -/

namespace SameButUsers
variable {scheme : Text} {t t' : FileTree} {a y : EntryPath}

theorem look (h : SameButUsers scheme t t') {l : Location} (hl : ¬ InUsers scheme l) : t'.look l = t.look l :=
  look_congr_of_sights h.root fun r hr => h.sight r fun hin => hl (hin.below hr)

section Scope
variable (h : SameButUsers scheme t t') (hscheme : '/' ∉ scheme) (ha : a.Canonical) (hsealed : isSealed a = false)
include h hscheme ha hsealed

theorem look_folder : t'.look (configured a []).place.children = t.look (configured a []).place.children :=
  h.look fun hin => not_inUsers_listed hscheme ha hsealed [] (hin.below (List.suffix_cons ..))

theorem endsListing : Acl.endsListing t' a = Acl.endsListing t a := by
  have hmarker := h.look (not_inUsers_listed hscheme ha hsealed (inherit ++ ['.'] ++ "data".toList))
  rw [← data_configured a [] inherit, List.nil_append] at hmarker
  rw [Acl.endsListing, Acl.endsListing, Store.hasFolder_congr h.root (h.look_folder hscheme ha hsealed),
    Store.hasData_congr hmarker]

theorem children : Store.children t' (configOf a) = Store.children t (configOf a) := by
  rw [← configured_nil]
  refine Store.children_congr h.root (h.look_folder hscheme ha hsealed) fun name _ => ?_
  rw [h.sight _ (not_inUsers_listed hscheme ha hsealed name)]

variable {d : Text} (hd : IsSegment d)
include hd

theorem read {n : Text} (hn : IsSegment n) :
    Store.read t' ((scopeOf a d).child n) = Store.read t ((scopeOf a d).child n) := by
  rw [child_scope a hd hn]
  exact Store.read_congr h.root (h.look (not_inUsers_data hscheme ha hsealed hd n))

theorem sameMarks : SameMarks t t' (scopeOf a d) where
  folder := by
    have hfolder := h.look (not_inUsers_listed hscheme ha hsealed (d ++ ['.'] ++ "dir".toList))
    rw [← children_configured a [] d, List.nil_append] at hfolder
    rw [scopeOf_eq a hd]
    exact Store.hasFolder_congr h.root hfolder
  marker := by
    rw [child_scope a hd (by decide)]
    exact Store.hasData_congr (h.look (not_inUsers_data hscheme ha hsealed hd inherit))
  realm := realmIn_congr fun content => by rw [h.read hscheme ha hsealed hd (n := realmKey) (by decide)]

end Scope

/-! ## The answers -/

section Answers
variable (h : SameButUsers scheme t t') (hscheme : '/' ∉ scheme) (hy : y.Canonical) (hsealed : isSealed y = false)
include h hscheme hy hsealed

theorem domains (open_ : Text) : Acl.domains t' open_ y = Acl.domains t open_ y := by
  refine domainsAlong_congr open_ (fun a ha => ?_) [] []
  have hunsealed := unsealed_ancestor hsealed ha
  refine ⟨h.children hscheme (hy.ancestors a ha) hunsealed, ?_⟩
  rw [endsAt_configOf, endsAt_configOf, h.endsListing hscheme (hy.ancestors a ha) hunsealed]

variable {d : Text} (hd : IsSegment d)
include hd

theorem domain : Acl.domain t' y d = Acl.domain t y d := by
  have halong := domainAlong_congr (fun a ha => h.sameMarks hscheme (hy.ancestors a ha) (unsealed_ancestor hsealed ha)
    hd) none none
  simp only [Acl.domain, halong]

theorem permission {method : Text} (hmethod : '/' ∉ method) :
    Acl.permission t' y d method = Acl.permission t y d method := by
  refine permissionAlong_congr method fun a ha => ?_
  have hunsealed := unsealed_ancestor hsealed ha
  refine ⟨h.sameMarks hscheme (hy.ancestors a ha) hunsealed hd, fun rule hrule => ?_⟩
  have hsegment : IsSegment rule := by
    rcases List.mem_pair.mp hrule with rfl | rfl
    · exact isSegment_rulesFile hmethod
    · decide
  exact h.read hscheme (hy.ancestors a ha) hunsealed hd hsegment

end Answers

end SameButUsers

end EntryServer.Acl
