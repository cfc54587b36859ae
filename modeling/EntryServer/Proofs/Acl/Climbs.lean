import EntryServer.Proofs.Acl.Sealed
import EntryServer.Proofs.Store.Listing

/-! # What a climb depends on

Every question about access climbs through the ancestors of an entry, and asks at each of them about the
files of its configuration only. Two stores with the same configurations there give the same answers. A
failure is told from an absence by the names on the way, so where a failure can come of a question the stores
have to agree on the way to the configuration, too. -/
namespace EntryServer.Acl
set_option autoImplicit false
open EntryPath FileTree Store

/-! ## Inside a configuration -/

/-- The folder of the configuration of an entry. -/
def configFolder (p : EntryPath) : Location := (configOf p).place.children

theorem authHops_ne_nil (above : List Step) : authHops above ≠ [] := List.cons_ne_nil _ _

theorem authHops_head (above : List Step) : (authHops above).head? ≠ some .dir := by
  simp [authHops]

theorem configOf_leaf (p : EntryPath) : (configOf p).isContainer = false := by
  rw [isContainer, configOf_hops]
  rfl

theorem configFolder_eq (p : EntryPath) : configFolder p = (placeOf (authHops p.hops)).facet .children := by
  rw [configFolder, children_of_leaf (configOf_leaf p), place, configOf_hops]

theorem configFolder_ne_nil (p : EntryPath) : configFolder p ≠ [] := by
  rw [configFolder_eq]
  exact facet_ne_nil _ _

theorem configOf_canonical {p : EntryPath} (hp : p.Canonical) : (configOf p).Canonical := hp.parameters.child auth

theorem within_scopeOf (p : EntryPath) (domain : Text) : Within (configOf p).hops (scopeOf p domain).hops :=
  within_child_of_leaf (configOf_leaf p) (Or.inl rfl) domain

/-! ## The same folder -/

/-- Two stores see the same in the folder of the children of an entry, unfinished contents of children apart. -/
def SameFolder (t t' : FileTree) (p : EntryPath) : Prop :=
  ∀ l, p.place.children <:+ l → ¬ Unfinished l → t'.sight l = t.sight l

namespace SameFolder
variable {t t' : FileTree} {p q : EntryPath}

theorem hasData (h : SameFolder t t' p) (ht : t.Sound) (ht' : t'.Sound) (hq : p.place.children <:+ q.place.folder) :
    Store.hasData t' q = Store.hasData t q :=
  hasData_eq ht ht' (h _ (hq.trans (List.suffix_cons ..)) (finished_data q _ List.suffix_rfl))

theorem hasFolder (h : SameFolder t t' p) (ht : t.Sound) (ht' : t'.Sound) (hroot : t'.root = t.root)
    (hne : q.place.children ≠ []) (hq : p.place.children <:+ q.place.children) :
    Store.hasFolder t' q = Store.hasFolder t q :=
  hasFolder_eq ht ht' hroot hne (h _ hq (finished_children q _ List.suffix_rfl))

theorem read_ok (h : SameFolder t t' p) (ht : Store.Sound t) (ht' : Store.Sound t')
    (hq : p.place.children <:+ q.place.folder) (content : Bytes) :
    Store.read t' q = .ok content ↔ Store.read t q = .ok content := by
  have hdata := h _ (hq.trans (List.suffix_cons ..)) (finished_data q _ List.suffix_rfl)
  rw [ht'.read_ok_iff, ht.read_ok_iff, content?_congr hdata]

theorem sight_listed (h : SameFolder t t' p) {name : Text} (hname : childBase? name ≠ none) :
    t'.sight (name :: p.place.children) = t.sight (name :: p.place.children) :=
  h _ (List.suffix_cons ..) (not_unfinished_of_child hname _)

/-- The first look into a folder comes to the same where it can only be missing. -/
theorem lookAlong (h : SameFolder t t' p) (ht : Store.Sound t) (ht' : Store.Sound t') (hp : p.Canonical)
    (hnames : NamesFit p.place.children) : t'.lookAlong p.place.children = t.lookAlong p.place.children := by
  rw [place, lookAlong_of_names ht.tree (ht.clear_children hp) hnames,
    lookAlong_of_names ht'.tree (ht'.clear_children hp) hnames, ← place,
    h _ List.suffix_rfl (finished_children p _ List.suffix_rfl)]

theorem look (h : SameFolder t t' p) (hroot : t'.root = t.root)
    (hfirst : t'.lookAlong p.place.children = t.lookAlong p.place.children) {l : Location}
    (hl : p.place.children <:+ l) (hfinished : Finished l) : t'.look l = t.look l :=
  look_congr hroot hfirst hl fun r hr hrl => h r hr (hfinished r hrl)

theorem read (h : SameFolder t t' p) (hroot : t'.root = t.root)
    (hfirst : t'.lookAlong p.place.children = t.lookAlong p.place.children)
    (hq : p.place.children <:+ q.place.folder) : Store.read t' q = Store.read t q :=
  read_congr hroot (h.look hroot hfirst (hq.trans (List.suffix_cons ..)) (finished_data q))

theorem children (h : SameFolder t t' p) (hroot : t'.root = t.root)
    (hfirst : t'.lookAlong p.place.children = t.lookAlong p.place.children) :
    Store.children t' p = Store.children t p :=
  children_congr hroot (h.look hroot hfirst List.suffix_rfl (finished_children p))
    fun name hname => by rw [h.sight_listed hname]

end SameFolder

/-! ## The same scope -/

/-- Two stores answer alike what a climb asks about a scope, secrets and rules apart. -/
structure SameMarks (t t' : FileTree) (scope : EntryPath) : Prop where
  folder : Store.hasFolder t' scope = Store.hasFolder t scope
  marker : Store.hasData t' (scope.child inherit) = Store.hasData t (scope.child inherit)
  realm : realmIn t' scope = realmIn t scope

/-- Two stores answer alike what a climb asks about a scope, rules apart. -/
structure SameScope (t t' : FileTree) (scope : EntryPath) : Prop extends SameMarks t t' scope where
  secret : ∀ scheme user, Store.hasFolder t scope = true →
    Store.read t' (secretOf scope scheme user) = Store.read t (secretOf scope scheme user)

section Scope
variable {t t' : FileTree}

theorem SameMarks.endsAt {scope : EntryPath} (h : SameMarks t t' scope) : Acl.endsAt t' scope = Acl.endsAt t scope := by
  rw [Acl.endsAt, Acl.endsAt, h.folder, h.marker]

theorem realmIn_congr {scope : EntryPath} (h : ∀ content, Store.read t' (scope.child realmKey) = .ok content ↔
    Store.read t (scope.child realmKey) = .ok content) : realmIn t' scope = realmIn t scope := by
  rw [realmIn, realmIn]
  cases hr : Store.read t (scope.child realmKey) with
  | ok content => rw [(h content).mpr hr]
  | error e =>
    cases hr' : Store.read t' (scope.child realmKey) with
    | ok content =>
      rw [(h content).mp hr'] at hr
      cases hr
    | error e' => rfl

/-- A scope in a folder is the same where the folder is. No failure comes of names on the way to a secret,
since a secret is looked up in a scope that is there. -/
theorem SameFolder.sameScope {p scope : EntryPath} (h : SameFolder t t' p) (ht : Store.Sound t) (ht' : Store.Sound t')
    (hroot : t'.root = t.root) (hleaf : p.isContainer = false)
    (hscope : scope.hops = p.hops ∨ Within p.hops scope.hops) : SameScope t t' scope := by
  have hfolder := children_suffix_children hleaf hscope
  have hne : scope.place.children ≠ [] := by
    intro hnil
    rw [hnil, children_of_leaf hleaf] at hfolder
    exact facet_ne_nil _ _ (List.suffix_nil.mp hfolder)
  have hin : ∀ name, p.place.children <:+ (scope.child name).place.folder := fun name =>
    children_suffix_folder hleaf (within_child_of_leaf hleaf hscope name)
  refine ⟨⟨?folder, ?marker, ?realm⟩, ?secret⟩
  case folder => exact h.hasFolder ht.tree ht'.tree hroot hne hfolder
  case marker => exact h.hasData ht.tree ht'.tree (hin inherit)
  case realm => exact realmIn_congr (h.read_ok ht ht' (hin realmKey))
  case secret =>
    intro scheme user hthere
    have hdir := ht.tree.directory_above hfolder (sight_of_isFolder hthere).1
    have hdir' := (h _ List.suffix_rfl (finished_children p _ List.suffix_rfl)).trans hdir
    refine h.read hroot ?_ (children_suffix_folder hleaf ?_)
    · rw [ht.tree.lookAlong hdir, ht'.tree.lookAlong hdir']
    · exact within_child (within_child_of_leaf hleaf hscope _) user

theorem SameFolder.sameScope_of {p : EntryPath} (h : SameFolder t t' (configOf p)) (ht : Store.Sound t)
    (ht' : Store.Sound t') (hroot : t'.root = t.root) (domain : Text) : SameScope t t' (scopeOf p domain) :=
  h.sameScope ht ht' hroot (configOf_leaf p) (Or.inr (within_scopeOf p domain))

end Scope

/-- Two stores see the same in the configuration of an entry. -/
def SameConfig (t t' : FileTree) (p : EntryPath) : Prop :=
  ∀ l, configFolder p <:+ l → t'.sight l = t.sight l

theorem SameConfig.sameFolder {t t' : FileTree} {p : EntryPath} (h : SameConfig t t' p) :
    SameFolder t t' (configOf p) := fun l hl _ => h l hl

/-! ## The listing -/

section Listing
variable {t t' : FileTree}

/-- The names that the configuration of an entry declares. -/
def declared (t : FileTree) (p : EntryPath) : List Text :=
  sorted ((t.namesIn (configFolder p)).filterMap childBase?)

/-- The domains that are listed on a way, failures apart. -/
def listedAlong (t : FileTree) (open_ : Text) (names : List Text) : List EntryPath → List Text
  | [] => names
  | p :: above =>
    let names := (declared t p).foldl (addDomain open_) names
    if endsAt t (configOf p) then names else listedAlong t open_ names above

theorem SameFolder.declared {p : EntryPath} (h : SameFolder t t' (configOf p)) :
    Acl.declared t' p = Acl.declared t p :=
  listed_congr fun name hname => by rw [configFolder, h.sight_listed hname]

/-- Without its folder a configuration declares nothing. -/
theorem declared_missing (ht : t.Sound) {p : EntryPath} (h : Store.hasFolder t (configOf p) = false) :
    declared t p = [] := by
  rw [declared, configFolder, ht.namesIn_unlisted h]
  rfl

theorem endsAt_missing {p : EntryPath} (h : Store.hasFolder t p = false) : endsAt t p = false := by
  rw [endsAt, h, Bool.false_and]

/-- Which domains are listed does not depend on whether a missing configuration is a failure. -/
theorem domainsAlong_names (ht : t.Sound) (open_ : Text) (names : List Text) (errors : List StoreError)
    (way : List EntryPath) : (domainsAlong t open_ names errors way).1 = listedAlong t open_ names way := by
  induction way generalizing names errors with
  | nil => rfl
  | cons p way ih =>
    rw [domainsAlong, listedAlong]
    cases hc : Store.children t (configOf p) with
    | error e =>
      have hfolder := hasFolder_of_error hc
      rw [declared_missing ht hfolder, endsAt_missing hfolder]
      exact ih _ _
    | ok found =>
      have hnames : found.map (·.name) = declared t p := by
        rw [children_listed ht hc, List.map_map]
        exact List.map_id _
      simp only [hnames]
      split
      · rfl
      · exact ih _ _

theorem listedAlong_congr (open_ : Text) {way : List EntryPath} (hway : ∀ a ∈ way,
    declared t' a = declared t a ∧ endsAt t' (configOf a) = endsAt t (configOf a)) (names : List Text) :
    listedAlong t' open_ names way = listedAlong t open_ names way := by
  induction way generalizing names with
  | nil => rfl
  | cons a way ih =>
    obtain ⟨hdeclared, hends⟩ := hway a (List.mem_cons_self ..)
    simp only [listedAlong, hdeclared, hends, ih fun b hb => hway b (List.mem_cons_of_mem _ hb)]

theorem filter_addDomain (open_ : Text) (keep : Text → Bool) (names : List Text) (name : Text) :
    (addDomain open_ names name).filter keep =
      if keep name then addDomain open_ (names.filter keep) name else names.filter keep := by
  have hcontains : keep name = true → (names.filter keep).contains name = names.contains name := fun hkeep => by
    rw [Bool.eq_iff_iff, List.contains_iff_mem, List.contains_iff_mem, List.mem_filter, and_iff_left hkeep]
  unfold addDomain
  cases hkeep : keep name with
  | true =>
    rw [hcontains hkeep, if_pos rfl]
    split
    · rfl
    · simp [hkeep]
  | false =>
    split
    · rfl
    · simp [hkeep]

theorem filter_addDomains (open_ : Text) (keep : Text → Bool) (found names : List Text) :
    (found.foldl (addDomain open_) names).filter keep =
      (found.filter keep).foldl (addDomain open_) (names.filter keep) := by
  induction found generalizing names with
  | nil => rfl
  | cons name found ih =>
    rw [List.foldl_cons, ih, filter_addDomain, List.filter_cons]
    split <;> rfl

/-- Which of the names that are kept are listed depends on those of them that are declared. -/
theorem filter_listedAlong_congr (open_ : Text) (keep : Text → Bool) {way : List EntryPath} (hway : ∀ a ∈ way,
    (declared t' a).filter keep = (declared t a).filter keep ∧ endsAt t' (configOf a) = endsAt t (configOf a))
    {names names' : List Text} (hnames : names'.filter keep = names.filter keep) :
    (listedAlong t' open_ names' way).filter keep = (listedAlong t open_ names way).filter keep := by
  induction way generalizing names names' with
  | nil => exact hnames
  | cons a way ih =>
    obtain ⟨hdeclared, hends⟩ := hway a (List.mem_cons_self ..)
    have hfolds := filter_addDomains open_ keep (declared t a) names
    rw [← hdeclared, ← hnames, ← filter_addDomains] at hfolds
    rw [listedAlong, listedAlong, hends]
    split
    · exact hfolds.symm
    · exact ih (fun b hb => hway b (List.mem_cons_of_mem _ hb)) hfolds.symm

theorem domainsAlong_congr (open_ : Text) {way : List EntryPath} (hway : ∀ a ∈ way,
    Store.children t' (configOf a) = Store.children t (configOf a) ∧
      endsAt t' (configOf a) = endsAt t (configOf a)) (names : List Text) (errors : List StoreError) :
    domainsAlong t' open_ names errors way = domainsAlong t open_ names errors way := by
  induction way generalizing names errors with
  | nil => rfl
  | cons a way ih =>
    obtain ⟨hchildren, hends⟩ := hway a (List.mem_cons_self ..)
    have hrest := ih fun b hb => hway b (List.mem_cons_of_mem _ hb)
    simp only [domainsAlong, hchildren, hends, hrest]

end Listing

/-! ## The other questions -/

section Questions
variable {t t' : FileTree}

theorem domainAlong_congr {name : Text} {way : List EntryPath} (hway : ∀ a ∈ way, SameMarks t t' (scopeOf a name))
    (realm : Option Text) (scope : Option EntryPath) :
    domainAlong t' name realm scope way = domainAlong t name realm scope way := by
  induction way generalizing realm scope with
  | nil => rfl
  | cons a way ih =>
    have h := hway a (List.mem_cons_self ..)
    have hrest := ih fun b hb => hway b (List.mem_cons_of_mem _ hb)
    simp only [domainAlong, h.folder, h.realm, h.marker, hrest]

theorem secretAlong_congr {domain : Text} (scheme user : Text) {way : List EntryPath}
    (hway : ∀ a ∈ way, SameMarks t t' (scopeOf a domain) ∧ (Store.hasFolder t (scopeOf a domain) = true →
      Store.read t' (secretOf (scopeOf a domain) scheme user) =
        Store.read t (secretOf (scopeOf a domain) scheme user))) :
    secretAlong t' domain scheme user way = secretAlong t domain scheme user way := by
  induction way with
  | nil => rfl
  | cons a way ih =>
    obtain ⟨h, hsecret⟩ := hway a (List.mem_cons_self ..)
    have hrest := ih fun b hb => hway b (List.mem_cons_of_mem _ hb)
    rw [secretAlong, secretAlong, h.folder, hrest, h.marker]
    cases hfolder : Store.hasFolder t (scopeOf a domain) with
    | false => rfl
    | true => rw [hsecret hfolder]

theorem firstRule_congr {scope : EntryPath} {rules : List Text}
    (h : ∀ rule ∈ rules, Store.read t' (scope.child rule) = Store.read t (scope.child rule)) :
    firstRule t' scope rules = firstRule t scope rules := by
  induction rules with
  | nil => rfl
  | cons rule rules ih =>
    rw [firstRule, firstRule, h rule (List.mem_cons_self ..), ih fun r hr => h r (List.mem_cons_of_mem _ hr)]

theorem permissionAlong_congr {domain : Text} (method : Text) {way : List EntryPath}
    (hway : ∀ a ∈ way, SameMarks t t' (scopeOf a domain) ∧
      ∀ rule ∈ rules method,
        Store.read t' ((scopeOf a domain).child rule) = Store.read t ((scopeOf a domain).child rule)) :
    permissionAlong t' domain method way = permissionAlong t domain method way := by
  induction way with
  | nil => rfl
  | cons a way ih =>
    obtain ⟨hscope, hrules⟩ := hway a (List.mem_cons_self ..)
    have hrest := ih fun b hb => hway b (List.mem_cons_of_mem _ hb)
    rw [permissionAlong, permissionAlong, firstRule_congr hrules, hscope.endsAt, hrest]

end Questions

/-! ## The whole climb -/

/-- Two stores see the same in every configuration above an entry, unfinished contents apart. -/
structure SameWay (t t' : FileTree) (y : EntryPath) : Prop where
  before : Store.Sound t
  after : Store.Sound t'
  root : t'.root = t.root
  canonical : y.Canonical
  config : ∀ a ∈ y.ancestors, SameFolder t t' (configOf a)

namespace SameWay
variable {t t' : FileTree} {y a : EntryPath}

theorem scope (h : SameWay t t' y) (ha : a ∈ y.ancestors) (name : Text) : SameScope t t' (scopeOf a name) :=
  (h.config a ha).sameScope_of h.before h.after h.root name

theorem endsAt (h : SameWay t t' y) (ha : a ∈ y.ancestors) :
    Acl.endsAt t' (configOf a) = Acl.endsAt t (configOf a) :=
  ((h.config a ha).sameScope h.before h.after h.root (configOf_leaf a) (Or.inl rfl)).endsAt

theorem first (h : SameWay t t' y) (ha : a ∈ y.ancestors) (hnames : NamesFit (configFolder a)) :
    t'.lookAlong (configOf a).place.children = t.lookAlong (configOf a).place.children :=
  (h.config a ha).lookAlong h.before h.after (configOf_canonical (h.canonical.ancestors a ha)) hnames

theorem listed (h : SameWay t t' y) (open_ : Text) : (domains t' open_ y).1 = (domains t open_ y).1 := by
  rw [domains, domains, domainsAlong_names h.before.tree, domainsAlong_names h.after.tree]
  exact listedAlong_congr open_ (fun a ha => ⟨(h.config a ha).declared, h.endsAt ha⟩) []

theorem domain (h : SameWay t t' y) (name : Text) : Acl.domain t' y name = Acl.domain t y name := by
  have halong := domainAlong_congr (fun a ha => (h.scope (a := a) ha name).toSameMarks) none none
  simp only [Acl.domain, halong]

theorem secret (h : SameWay t t' y) (name scheme user : Text) :
    Acl.secret t' y name scheme user = Acl.secret t y name scheme user := by
  rw [Acl.secret, Acl.secret, secretAlong_congr scheme user fun a ha =>
    ⟨(h.scope ha name).toSameMarks, (h.scope ha name).secret scheme user⟩]

theorem domains (h : SameWay t t' y) (hnames : ∀ a ∈ y.ancestors, NamesFit (configFolder a)) (open_ : Text) :
    Acl.domains t' open_ y = Acl.domains t open_ y :=
  domainsAlong_congr open_ (fun a ha => ⟨(h.config a ha).children h.root (h.first ha (hnames a ha)), h.endsAt ha⟩) [] []

theorem permission (h : SameWay t t' y) (hnames : ∀ a ∈ y.ancestors, NamesFit (configFolder a)) (name method : Text) :
    Acl.permission t' y name method = Acl.permission t y name method :=
  permissionAlong_congr method fun a ha => ⟨(h.scope ha name).toSameMarks, fun rule _ =>
    (h.config a ha).read h.root (h.first ha (hnames a ha))
      (children_suffix_folder (configOf_leaf a) (within_child (within_scopeOf a name) rule))⟩

end SameWay

end EntryServer.Acl
