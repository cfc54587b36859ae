import EntryServer.Proofs.Acl.Chain
import EntryServer.Proofs.EntryPath.Layout
import EntryServer.Proofs.Store.Listing
import EntryServer.Proofs.Text.Utf8

/-! # The listing of domains

The listing goes up the ancestors of an entry as far as the first one whose configuration is there without a
marker. Ancestors whose configuration cannot be listed are failures, and the listing goes on above them. The names
are those of the children on this chain, in the order in which the climb comes to them, each of them once. -/
namespace EntryServer.Acl
set_option autoImplicit false
open EntryPath FileTree

/-! ## What one ancestor gives -/

/-- Why the configuration of an entry cannot be listed, if it cannot. -/
def failureAt (t : FileTree) (a : EntryPath) : Option StoreError :=
  match Store.children t (configOf a) with
  | .error e => some e
  | .ok _ => none

/-- The children of the configuration of an entry, as far as they can be listed. -/
def childrenAt (t : FileTree) (a : EntryPath) : List EntryPath := (Store.children t (configOf a)).toOption.getD []

def namesAt (t : FileTree) (a : EntryPath) : List Text := (childrenAt t a).map (·.name)

/-- Does the listing end with this ancestor? -/
def endsListing (t : FileTree) (a : EntryPath) : Bool :=
  Store.hasFolder t (configured a []) && !Store.hasData t (configured a [inherit])

/-- The ancestors that the listing comes to. -/
def listingChain (t : FileTree) (p : EntryPath) : List EntryPath := upTo (endsListing t) p.ancestors

def isDomain (open_ name : Text) : Bool := name ≠ open_ && name ≠ inherit

/-- No name has a slash, which separates names. -/
def Slashless (t : FileTree) : Prop := ∀ kv ∈ t.nodes, ∀ name ∈ kv.1, '/' ∉ name

instance (t : FileTree) : Decidable (Slashless t) := inferInstanceAs (Decidable (∀ kv ∈ t.nodes, _))

section Step
variable {t : FileTree} {a : EntryPath}

theorem endsAt_configOf (a : EntryPath) : endsAt t (configOf a) = endsListing t a := by
  rw [endsAt, ← configured_nil, configured_child a [] (by decide)]
  rfl

theorem children_of_failure {e : StoreError} (h : failureAt t a = some e) :
    Store.children t (configOf a) = .error e := by
  rw [failureAt] at h
  split at h
  · next hchildren => rw [hchildren, Option.some.inj h]
  · cases h

/-- A folder that is there can be listed, so the listing does not end at a failure. -/
theorem endsListing_of_failure {e : StoreError} (h : failureAt t a = some e) : endsListing t a = false := by
  rw [endsListing, configured_nil, Store.hasFolder_of_error (children_of_failure h), Bool.false_and]

theorem children_of_no_failure (h : failureAt t a = none) :
    Store.children t (configOf a) = .ok (childrenAt t a) := by
  rw [failureAt] at h
  split at h
  · cases h
  · next hchildren => rw [childrenAt, hchildren]; rfl

theorem namesAt_of_failure {e : StoreError} (h : failureAt t a = some e) : namesAt t a = [] := by
  rw [namesAt, childrenAt, children_of_failure h]
  rfl

end Step

/-! ## Each name once -/

section Names
variable {open_ : Text}

theorem addDomain_eq (X : List Text) (name : Text) :
    addDomain open_ X.eraseDups name = (X ++ [name].filter (isDomain open_)).eraseDups := by
  rw [addDomain]
  cases hname : isDomain open_ name with
  | false =>
    have hother : name = open_ ∨ name = inherit := by
      simpa [isDomain, Classical.or_iff_not_imp_left] using hname
    rw [if_pos (hother.elim Or.inl fun h => Or.inr (Or.inl h)), List.filter_cons_of_neg (by rw [hname]; decide),
      List.filter_nil, List.append_nil]
  | true =>
    have hdomain : name ≠ open_ ∧ name ≠ inherit := by simpa [isDomain] using hname
    rw [List.filter_cons_of_pos hname, List.filter_nil, List.eraseDups_append]
    by_cases hold : name ∈ X
    · rw [if_pos (Or.inr (Or.inr (List.contains_iff_mem.mpr (List.mem_eraseDups.mpr hold))))]
      simp [List.removeAll, hold]
    · rw [if_neg (by simp [hdomain, hold])]
      simp [List.removeAll, hold, List.eraseDups_cons]

theorem addDomains_eq (X found : List Text) :
    found.foldl (addDomain open_) X.eraseDups = (X ++ found.filter (isDomain open_)).eraseDups := by
  induction found generalizing X with
  | nil => rw [List.foldl_nil, List.filter_nil, List.append_nil]
  | cons name found ih =>
    rw [List.foldl_cons, addDomain_eq, ih, List.append_assoc, ← List.filter_append, List.singleton_append]

/-- The climb gathers what its chain gives: the names that are not there yet, and the failures. -/
theorem domainsAlong_eq (t : FileTree) (X : List Text) (errors : List StoreError) (way : List EntryPath) :
    domainsAlong t open_ X.eraseDups errors way =
      ((X ++ ((upTo (endsListing t) way).flatMap (namesAt t)).filter (isDomain open_)).eraseDups,
        errors ++ (upTo (endsListing t) way).filterMap (failureAt t)) := by
  induction way generalizing X errors with
  | nil => simp [domainsAlong, upTo]
  | cons a above ih =>
    rw [domainsAlong, upTo, List.flatMap_cons, List.filterMap_cons, List.filter_append, ← List.append_assoc]
    cases hfailure : failureAt t a with
    | some e =>
      rw [children_of_failure hfailure, namesAt_of_failure hfailure, endsListing_of_failure hfailure]
      simp only [Bool.false_eq_true, if_false, ih, List.filter_nil, List.append_nil, List.append_assoc,
        List.singleton_append]
    | none =>
      have hnames : (childrenAt t a).map (·.name) = namesAt t a := rfl
      rw [children_of_no_failure hfailure]
      simp only [hnames, addDomains_eq, endsAt_configOf]
      cases endsListing t a with
      | true => simp
      | false => exact ih _ _

end Names

/-! ## The names on disk -/

/-- The file name of a facet of a child. -/
def IsFacetOf (d fileName : Text) : Prop :=
  ∃ facet, fileName = d ++ ['.'] ++ facet ∧ '.' ∉ facet ∧
    (facet = "data".toList ∨ facet = "dir".toList ∨ "meta".toList <+: facet)

theorem childBase?_eq_some_iff {d fileName : Text} (hslash : '/' ∉ fileName) :
    Store.childBase? fileName = some d ↔ IsSegment d ∧ IsFacetOf d fileName := by
  constructor
  · intro h
    refine ⟨childBase?_segment hslash h, ?_⟩
    rw [Store.childBase?] at h
    split at h
    · cases h
    · next base facet hsplit =>
      obtain ⟨rfl, hdot⟩ := splitLast?_eq_some hsplit
      split at h
      · cases h
      · split at h
        · next hfacet =>
          obtain rfl := Option.some.inj h
          exact ⟨facet, by simp, hdot, by simpa only [List.isPrefixOf_iff_prefix] using hfacet⟩
        · cases h
  · rintro ⟨hd, facet, rfl, hdot, hfacet⟩
    rw [Store.childBase?_append hd hdot, if_pos (by simpa only [List.isPrefixOf_iff_prefix] using hfacet)]

section Disk
variable {t : FileTree} {a c : EntryPath}

theorem childrenAt_eq (t : FileTree) (a : EntryPath) : childrenAt t a =
    if Store.hasFolder t (configured a []) then
      (Store.sorted ((t.namesIn (configured a []).place.children).filterMap Store.childBase?)).map
        (configOf a).literalChild
    else [] := by
  rw [childrenAt, configured_nil, Store.children, Store.hasFolder, FileTree.list, isFolder]
  cases t.folderSlot (configOf a).place.children with
  | error e => cases e <;> rfl
  | ok there => cases there <;> rfl

theorem namesAt_eq (t : FileTree) (a : EntryPath) : namesAt t a =
    if Store.hasFolder t (configured a []) then
      Store.sorted ((t.namesIn (configured a []).place.children).filterMap Store.childBase?)
    else [] := by
  rw [namesAt, childrenAt_eq]
  split
  · rw [List.map_map]
    exact List.map_id _
  · rfl

/-- The names are in the order of their bytes. -/
theorem namesAt_ascending (t : FileTree) (a : EntryPath) :
    (namesAt t a).Pairwise fun m n => Utf8.encode m < Utf8.encode n := by
  rw [namesAt_eq]
  split
  · exact (Store.pairwise_sorted _).imp Utf8.encode_lt
  · exact List.Pairwise.nil

theorem Slashless.namesIn (h : Slashless t) {folder : Location} {name : Text} (hname : name ∈ t.namesIn folder) :
    '/' ∉ name := by
  obtain ⟨⟨l, n⟩, hmem, heq⟩ := List.mem_filterMap.mp hname
  cases l with
  | nil => cases heq
  | cons first up =>
    obtain ⟨-, hfirst⟩ := Option.ite_none_right_eq_some.mp heq
    rw [← Option.some.inj hfirst]
    exact h _ hmem first (List.mem_cons_self ..)

theorem mem_namesAt_iff (h : Slashless t) {d : Text} : d ∈ namesAt t a ↔ IsSegment d ∧
    Store.hasFolder t (configured a []) = true ∧
      ∃ fileName ∈ t.namesIn (configured a []).place.children, IsFacetOf d fileName := by
  rw [namesAt_eq]
  cases hfolder : Store.hasFolder t (configured a []) with
  | false => simp
  | true =>
    rw [if_pos rfl, Store.mem_sorted, List.mem_filterMap]
    constructor
    · rintro ⟨fileName, hname, hbase⟩
      obtain ⟨hd, hfacet⟩ := (childBase?_eq_some_iff (h.namesIn hname)).mp hbase
      exact ⟨hd, rfl, fileName, hname, hfacet⟩
    · rintro ⟨hd, -, fileName, hname, hfacet⟩
      exact ⟨fileName, hname, (childBase?_eq_some_iff (h.namesIn hname)).mpr ⟨hd, hfacet⟩⟩

/-- A listed child is the scope of its name. -/
theorem scopeOf_childrenAt (h : Slashless t) (hc : c ∈ childrenAt t a) :
    IsSegment c.name ∧ scopeOf a c.name = c := by
  have hname : IsSegment c.name := ((mem_namesAt_iff h).mp (List.mem_map_of_mem hc)).1
  refine ⟨hname, ?_⟩
  rw [childrenAt_eq] at hc
  split at hc
  · obtain ⟨d, -, rfl⟩ := List.mem_map.mp hc
    refine (scopeOf_eq a hname).trans ?_
    rw [← configured_nil, EntryPath.literalChild, configured_file]
    rfl
  · cases hc

end Disk

/-! ## The whole listing -/

theorem domains_eq (t : FileTree) (open_ : Text) (p : EntryPath) : domains t open_ p =
    ((((listingChain t p).flatMap (namesAt t)).filter (isDomain open_)).eraseDups,
      (listingChain t p).filterMap (failureAt t)) := domainsAlong_eq t [] [] p.ancestors

theorem exists_of_mem_domains {t : FileTree} {open_ : Text} {p : EntryPath} {d : Text}
    (h : d ∈ (domains t open_ p).1) : ∃ a ∈ listingChain t p, d ∈ namesAt t a := by
  rw [domains_eq, List.mem_eraseDups, List.mem_filter, List.mem_flatMap] at h
  exact h.1

/-- The domains of an entry are the names along the chain, nearest first, each where it first occurs, and what
cannot be listed is a failure that the listing goes on above. A name is that of a facet on disk, and it leads back
to the child that was listed. -/
theorem listing_follows_chain {t : FileTree} (hnames : Slashless t) (open_ : Text) (p : EntryPath) :
    domains t open_ p =
      ((((listingChain t p).flatMap (namesAt t)).filter (isDomain open_)).eraseDups,
        (listingChain t p).filterMap (failureAt t)) ∧
    ((∀ a ∈ listingChain t p, failureAt t a = none) → (domains t open_ p).2 = []) ∧
    (∀ a e, failureAt t a = some e → endsListing t a = false ∧ namesAt t a = []) ∧
    (∀ a, (namesAt t a).Pairwise fun m n => Utf8.encode m < Utf8.encode n) ∧
    (∀ a d, d ∈ namesAt t a ↔ IsSegment d ∧ Store.hasFolder t (configured a []) = true ∧
      ∃ fileName ∈ t.namesIn (configured a []).place.children, IsFacetOf d fileName) ∧
    (∀ a, ∀ c ∈ childrenAt t a, IsSegment c.name ∧ scopeOf a c.name = c) ∧
    ∀ d ∈ (domains t open_ p).1, IsSegment d ∧ ∃ a ∈ listingChain t p, scopeOf a d ∈ childrenAt t a := by
  refine ⟨domains_eq t open_ p, fun hnone => ?_, fun a e he => ⟨endsListing_of_failure he, namesAt_of_failure he⟩,
    namesAt_ascending t, fun a d => mem_namesAt_iff hnames, fun a c => scopeOf_childrenAt hnames, fun d hd => ?_⟩
  · rw [domains_eq]
    exact List.filterMap_eq_nil_iff.mpr hnone
  · obtain ⟨a, ha, hda⟩ := exists_of_mem_domains hd
    obtain ⟨c, hc, rfl⟩ := List.mem_map.mp hda
    obtain ⟨hsegment, hscope⟩ := scopeOf_childrenAt hnames hc
    exact ⟨hsegment, a, ha, by rw [hscope]; exact hc⟩

/-! ## A failure below two listings -/

/-- The book hands on to its shelf, where the listing ends. A file stands where the mark would have its metadata. -/
def reading : FileTree :=
  let t := [(book, ["staff".toList, realmKey]), (book, ["members".toList, realmKey]), (book, [inherit]),
    (shelf, ["staff".toList, realmKey]), (shelf, [admin, realmKey]), (root, ["owner".toList, realmKey])].foldl
    (fun t file => ((Store.write (configured file.1 file.2) []).run.run t).2) (FileTree.empty "data/".toList)
  { t.put (configured mark []).place.folder (.file t.blobs.size) with blobs := t.blobs.push [] }

theorem listing_follows_chain_reading :
    Slashless reading ∧
    domains reading anonymous mark = (["members".toList, "staff".toList, admin],
      [.ofFile "data/shelf.dir/book.metadir/mark.metadir/auth.dir/".toList .notADirectory]) := by
  have hnames : Slashless reading := by decide +kernel
  refine ⟨hnames, ?_⟩
  rw [(listing_follows_chain hnames anonymous mark).1]
  decide +kernel

end EntryServer.Acl
