import EntryServer.Proofs.Acl.Climbs
import EntryServer.Proofs.Auth.Verdict
import EntryServer.Proofs.Store.Undo

/-! # Removing a scope

Removing a scope takes back what was written into it, and with that every answer about access, unless
directories stay that were made for the scope. They stay where an entry had no configuration before. The new
one declares nothing, but the listing of domains ends there. -/
namespace EntryServer.Acl
set_option autoImplicit false
open EntryPath FileTree Store

/-! ## Where a scope lies -/

section Places
variable {e a : EntryPath} {d : Text}

theorem configOf_file (a : EntryPath) : (configOf a).file = configOf a :=
  file_of_head_ne_dir (isLeaf_iff.mp (configOf_leaf a)).2

theorem scopeOf_hops (e : EntryPath) (hd : IsSegment d) : (scopeOf e d).hops = .child d :: authHops e.hops := by
  rw [scopeOf, child_of_segment _ hd, literalChild, configOf_file, configOf_hops]

theorem scopeOf_canonical (he : e.Canonical) (d : Text) : (scopeOf e d).Canonical := (configOf_canonical he).child d

theorem scopeOf_leaf (e : EntryPath) (hd : IsSegment d) : (scopeOf e d).isContainer = false := by
  rw [isContainer, scopeOf_hops e hd]
  rfl

theorem scopeOf_folder (e : EntryPath) (hd : IsSegment d) : (scopeOf e d).place.folder = configFolder e := by
  rw [place, scopeOf_hops e hd, configFolder, place, configOf_hops]
  rfl

theorem unfinished_staging (e : EntryPath) (hd : IsSegment d) : Unfinished (scopeOf e d).place.staging := by
  rw [place, scopeOf_hops e hd]
  exact ⟨d, _, rfl⟩

/-- The scope of a name that leads into a configuration is a child there, or inside one. -/
theorem scopeOf_in_child (a : EntryPath) {name : Text} (hname : clean name ≠ []) : ∃ n, IsSegment n ∧
    ((scopeOf a name).hops = ((configOf a).literalChild n).hops ∨
      Within ((configOf a).literalChild n).hops (scopeOf a name).hops) := by
  obtain ⟨kept, n, hkept⟩ := (List.eq_nil_or_concat (clean name)).resolve_left hname
  have hn : IsSegment n := segments_clean name n (by simp [hkept])
  have hleaf : (⟨(clean name).map .child ++ (configOf a).file.hops⟩ : EntryPath).hops =
        ((configOf a).literalChild n).hops ∨
      Within ((configOf a).literalChild n).hops ((clean name).map Step.child ++ (configOf a).file.hops) := by
    rw [hkept]
    clear hkept
    induction kept with
    | nil => exact Or.inl rfl
    | cons m kept ih => exact Or.inr (within_child_cons.mpr ih)
  refine ⟨n, hn, ?_⟩
  simp only [scopeOf, EntryPath.child, if_neg hname]
  split
  · unfold EntryPath.dir
    split
    · exact hleaf
    · exact Or.inr (within_dir_cons.mpr hleaf)
  · exact hleaf

/-- No configuration is above that of an entry that is not sealed. -/
theorem eq_of_configFolder_suffix (he : e.Canonical) (hsealed : isSealed e = false) (ha : a.Canonical)
    (h : configFolder a <:+ configFolder e) : a = e := by
  have hconfig : ∀ {p : EntryPath}, p.Canonical → CanonicalHops (authHops p.hops) := by
    intro p hp
    rw [← configOf_hops]
    exact configOf_canonical hp
  rw [configFolder_eq, configFolder_eq] at h
  have hw := (children_suffix_facet_iff (hconfig ha) (hconfig he) (authHops_ne_nil _) (authHops_head _)).mp h
  have hsuffix : authHops a.hops <:+ authHops e.hops := by
    rcases within_dir_cons.mp hw with heq | hw
    · exact heq ▸ List.suffix_rfl
    · exact hw.suffix
  exact eq_of_authHops_suffix hsealed List.not_mem_nil hsuffix

end Places

/-! ## Everything as before -/

/-- Two stores answer every question about access to an entry alike. -/
structure SameAnswers (t t' : FileTree) (y : EntryPath) : Prop where
  domains : ∀ open_, domains t' open_ y = domains t open_ y
  domain : ∀ name, domain t' y name = domain t y name
  secret : ∀ name scheme user, secret t' y name scheme user = secret t y name scheme user
  permission : ∀ name method, permission t' y name method = permission t y name method
  authorized : ∀ (a : Auth.Authenticator) (r : Auth.Request) (now : Nat) (draw : Nat → Auth.Keys)
    (cache : Auth.Cache), r.entry = y → r.authorization = [] →
    (Auth.authenticate a t' r now draw cache).1.authorized = (Auth.authenticate a t r now draw cache).1.authorized

section Answers
variable {t t' : FileTree}

theorem authorized_congr {a : Auth.Authenticator} {r : Auth.Request} (now : Nat) (draw : Nat → Auth.Keys)
    (cache : Auth.Cache) (hnone : r.authorization = [])
    (hpermission : permission t' r.entry a.anonymous r.method = permission t r.entry a.anonymous r.method)
    (hdomains : (domains t' a.anonymous r.entry).1 = (domains t a.anonymous r.entry).1) :
    (Auth.authenticate a t' r now draw cache).1.authorized =
      (Auth.authenticate a t r now draw cache).1.authorized := by
  rw [Auth.authorized_of_no_credentials _ _ _ _ _ _ hnone, Auth.authorized_of_no_credentials _ _ _ _ _ _ hnone,
    hpermission, hdomains]

/-- Unfinished contents have no influence on the answers. -/
theorem sameAnswers_of_sights (ht : Store.Sound t) (ht' : Store.Sound t') (hroot : t'.root = t.root)
    (h : ∀ l, ¬ Unfinished l → t'.sight l = t.sight l) (y : EntryPath) : SameAnswers t t' y := by
  have hfolder : ∀ p, SameFolder t t' p := fun p l _ hl => h l hl
  have hfirst : ∀ p : EntryPath, t'.lookAlong p.place.children = t.lookAlong p.place.children := fun p =>
    lookAlong_congr (c := []) rfl List.nil_suffix fun r _ hr => h r (finished_children p r hr)
  have hscope : ∀ a name, SameScope t t' (scopeOf a name) := fun a name =>
    (hfolder _).sameScope_of ht ht' hroot name
  have hdomains : ∀ open_, Acl.domains t' open_ y = Acl.domains t open_ y := fun open_ =>
    domainsAlong_congr open_ (fun a _ => ⟨(hfolder _).children hroot (hfirst _),
      ((hfolder _).sameScope ht ht' hroot (configOf_leaf a) (Or.inl rfl)).endsAt⟩) [] []
  have hpermission : ∀ name method, Acl.permission t' y name method = Acl.permission t y name method :=
    fun name method => permissionAlong_congr method fun a _ => ⟨(hscope a name).toSameMarks, fun rule _ =>
      (hfolder _).read hroot (hfirst _)
        (children_suffix_folder (configOf_leaf a) (within_child (within_scopeOf a name) rule))⟩
  constructor
  case domains => exact hdomains
  case domain =>
    intro name
    have halong := domainAlong_congr (fun a (_ : a ∈ y.ancestors) => (hscope a name).toSameMarks) none none
    simp only [Acl.domain, halong]
  case secret =>
    intro name scheme user
    rw [Acl.secret, Acl.secret, secretAlong_congr scheme user fun a _ =>
      ⟨(hscope a name).toSameMarks, (hscope a name).secret scheme user⟩]
  case permission => exact hpermission
  case authorized =>
    rintro a r now draw cache rfl hnone
    exact authorized_congr now draw cache hnone (hpermission _ _) (by rw [hdomains])

end Answers

/-! ## Directories that stay -/

/-- Two stores answer alike about an entry, but where the second one alone has a configuration of `e`, every
listing that comes to `e` ends there. -/
structure SameButListing (e : EntryPath) (t t' : FileTree) (y : EntryPath) : Prop where
  domain : ∀ name, clean name ≠ [] → domain t' y name = domain t y name
  secret : ∀ name scheme user, clean name ≠ [] → secret t' y name scheme user = secret t y name scheme user
  permission : ∀ name method, clean name ≠ [] → (∀ a ∈ y.ancestors, NamesFit (scopeOf a name).place.children) →
    permission t' y name method = permission t y name method
  listed : e ∉ y.ancestors ∨ Store.hasFolder t' (configOf e) = Store.hasFolder t (configOf e) →
    ∀ open_, (domains t' open_ y).1 = (domains t open_ y).1
  cut : e ∈ y.ancestors → Store.hasFolder t' (configOf e) ≠ Store.hasFolder t (configOf e) →
    ∀ open_, (domains t' open_ y).1 = (domainsAlong t open_ [] [] (y.ancestors.takeWhile (· ≠ e))).1
  authorized : e ∉ y.ancestors ∨ Store.hasFolder t' (configOf e) = Store.hasFolder t (configOf e) →
    ∀ (a : Auth.Authenticator) (r : Auth.Request) (now : Nat) (draw : Nat → Auth.Keys) (cache : Auth.Cache),
      clean a.anonymous ≠ [] → (∀ x ∈ y.ancestors, NamesFit (scopeOf x a.anonymous).place.children) →
      r.entry = y → r.authorization = [] → (Auth.authenticate a t' r now draw cache).1.authorized =
        (Auth.authenticate a t r now draw cache).1.authorized

section Left
variable {t t' : FileTree} {e : EntryPath} {d : Text}

theorem sight_restored (hd : IsSegment d) (h : Restored (scopeOf e d) t t') {l : Location}
    (hfinished : ¬ Unfinished l) : t'.sight l = t.sight l ∨
      l <:+ configFolder e ∧ t.sight l = none ∧ t'.sight l = some .directory := by
  rw [← scopeOf_folder e hd]
  refine h.sight l ?_
  rintro rfl
  exact hfinished (unfinished_staging e hd)

theorem hasData_missing (ht : t.Sound) {p : EntryPath} {c : Location} (hc : c <:+ p.place.data)
    (hnone : t.sight c = none) : Store.hasData t p = false := by
  have hdata : t.sight p.place.data = none := sight_eq_none.mpr (ht.node_below hc (sight_eq_none.mp hnone))
  rw [Bool.eq_false_iff]
  intro hfile
  obtain ⟨content, hsight⟩ := (isFile_iff ht (List.cons_ne_nil _ _)).mp hfile
  exact absurd (hdata.symm.trans hsight) (by simp)

theorem literalChild_children (a : EntryPath) (n : Text) :
    ((configOf a).literalChild n).place.children = (n ++ ['.'] ++ "dir".toList) :: configFolder a := by
  rw [place, literalChild, configOf_file, configFolder, place]
  simp [placeOf, Place.children]

theorem listedAlong_cut (open_ : Text) {way : List EntryPath} (he : e ∈ way)
    (hbefore : ∀ a ∈ way, a ≠ e →
      declared t' a = declared t a ∧ endsAt t' (configOf a) = endsAt t (configOf a))
    (hdeclared : declared t' e = []) (hends : endsAt t' (configOf e) = true) (names : List Text) :
    listedAlong t' open_ names way = listedAlong t open_ names (way.takeWhile (· ≠ e)) := by
  induction way generalizing names with
  | nil => cases he
  | cons a way ih =>
    by_cases heq : a = e
    · rw [listedAlong, heq, hdeclared, hends, List.takeWhile_cons_of_neg (by simp)]
      rfl
    · obtain ⟨h1, h2⟩ := hbefore a (List.mem_cons_self ..) heq
      have hin : e ∈ way := (List.mem_cons.mp he).resolve_left (Ne.symm heq)
      have hrest := ih hin fun b hb => hbefore b (List.mem_cons_of_mem _ hb)
      rw [List.takeWhile_cons_of_pos (by simpa using heq)]
      simp only [listedAlong, h1, h2, hrest]

end Left

/-- Two sound stores, the second one after the removal of a scope of an entry that is not sealed. -/
structure ScopeRemoved (e : EntryPath) (d : Text) (t t' : FileTree) : Prop where
  before : Store.Sound t
  after : Store.Sound t'
  root : t'.root = t.root
  canonical : e.Canonical
  unsealed : isSealed e = false
  segment : IsSegment d
  /-- The path of the configuration is no hindrance to what is in it. -/
  short : t.folderSize (configFolder e) < pathLimit
  restored : Restored (scopeOf e d) t t'

namespace ScopeRemoved
variable {t t' : FileTree} {e a y : EntryPath} {d : Text}

/-- In a configuration nothing but its own folder may be new. -/
theorem sight_config (h : ScopeRemoved e d t t') (ha : a.Canonical) {l : Location} (hl : configFolder a <:+ l)
    (hne : l ≠ configFolder e) (hfinished : ¬ Unfinished l) : t'.sight l = t.sight l := by
  rcases sight_restored h.segment h.restored hfinished with hsame | ⟨hway, -, -⟩
  · exact hsame
  · obtain rfl := eq_of_configFolder_suffix h.canonical h.unsealed ha (hl.trans hway)
    exact absurd (hway.eq_of_length_le hl.length_le) hne

/-- What is below the folder of a configuration is as before. -/
theorem sight_below (h : ScopeRemoved e d t t') (ha : a.Canonical) {name : Text} {l : Location}
    (hl : name :: configFolder a <:+ l) (hfinished : ¬ Unfinished l) : t'.sight l = t.sight l := by
  have hconfig := (List.suffix_cons name (configFolder a)).trans hl
  refine h.sight_config ha hconfig ?_ hfinished
  rintro rfl
  obtain rfl := eq_of_configFolder_suffix h.canonical h.unsealed ha hconfig
  exact not_cons_suffix name _ hl

theorem sameFolder_child (h : ScopeRemoved e d t t') (ha : a.Canonical) (n : Text) :
    SameFolder t t' ((configOf a).literalChild n) := by
  intro l hl hfinished
  rw [literalChild_children] at hl
  exact h.sight_below ha hl hfinished

theorem declared (h : ScopeRemoved e d t t') (ha : a.Canonical) : Acl.declared t' a = Acl.declared t a :=
  listed_congr fun name hname => by
    rw [h.sight_below ha List.suffix_rfl (not_unfinished_of_child hname _)]

theorem marker (h : ScopeRemoved e d t t') :
    Store.hasData t' (scopeOf e inherit) = Store.hasData t (scopeOf e inherit) := by
  refine hasData_eq h.before.tree h.after.tree ?_
  have hplace : (scopeOf e inherit).place.data =
      ((scopeOf e inherit).place.stem ++ "data".toList) :: configFolder e := by
    rw [Place.data, scopeOf_folder e (by decide)]
  have hfinished := finished_data (scopeOf e inherit) _ List.suffix_rfl
  rw [hplace] at hfinished ⊢
  exact h.sight_below h.canonical List.suffix_rfl hfinished

theorem hasFolder_made (h : ScopeRemoved e d t t') (hmade : t'.sight (configFolder e) = some .directory) :
    Store.hasFolder t' (configOf e) = true := by
  refine (isFolder_iff h.after.tree (configFolder_ne_nil e)).mpr ⟨hmade, ?_⟩
  rw [folderSize, h.root]
  exact h.short

/-- A configuration whose directory is not new is as before. -/
theorem sameFolder_config (h : ScopeRemoved e d t t') (ha : a.Canonical)
    (hold : a ≠ e ∨ Store.hasFolder t' (configOf e) = Store.hasFolder t (configOf e)) :
    SameFolder t t' (configOf a) := by
  intro l hl hfinished
  by_cases heq : l = configFolder e
  · subst heq
    rcases hold with hne | hsame
    · exact absurd (eq_of_configFolder_suffix h.canonical h.unsealed ha hl) hne
    · rcases sight_restored h.segment h.restored hfinished with hsight | ⟨-, hnone, hmade⟩
      · exact hsight
      · have hbefore := (sight_of_isFolder (hsame.symm.trans (h.hasFolder_made hmade))).1
        rw [← configFolder, hnone] at hbefore
        cases hbefore
  · exact h.sight_config ha hl heq hfinished

theorem endsAt (h : ScopeRemoved e d t t') (ha : a.Canonical)
    (hold : a ≠ e ∨ Store.hasFolder t' (configOf e) = Store.hasFolder t (configOf e)) :
    Acl.endsAt t' (configOf a) = Acl.endsAt t (configOf a) :=
  ((h.sameFolder_config ha hold).sameScope h.before h.after h.root (configOf_leaf a) (Or.inl rfl)).endsAt

/-- A configuration whose directory is new ends the listing, since no marker is in it. -/
theorem endsAt_new (h : ScopeRemoved e d t t')
    (hnew : Store.hasFolder t' (configOf e) ≠ Store.hasFolder t (configOf e)) :
    Acl.endsAt t' (configOf e) = true ∧ Acl.declared t' e = [] := by
  have hfinished := finished_children (configOf e) _ List.suffix_rfl
  rcases sight_restored h.segment h.restored hfinished with hsame | ⟨-, hnone, hmade⟩
  · exact absurd (hasFolder_eq h.before.tree h.after.tree h.root (configFolder_ne_nil e) hsame) hnew
  · have hmarker : Store.hasData t (scopeOf e inherit) = false := by
      have hbelow : configFolder e <:+ (scopeOf e inherit).place.data :=
        (children_suffix_folder (configOf_leaf e) (within_scopeOf e inherit)).trans (List.suffix_cons ..)
      exact hasData_missing h.before.tree hbelow hnone
    constructor
    · rw [Acl.endsAt, h.hasFolder_made hmade, ← scopeOf, h.marker, hmarker]
      rfl
    · rw [h.declared h.canonical]
      refine declared_missing h.before.tree (hasFolder_missing fun hdir => ?_)
      rw [hnone] at hdir
      cases hdir

/-- A scope lies below a child of the configuration, where everything is as before. -/
theorem sameScope (h : ScopeRemoved e d t t') (ha : a.Canonical) {name : Text} (hname : clean name ≠ []) :
    SameScope t t' (scopeOf a name) := by
  obtain ⟨n, -, hin⟩ := scopeOf_in_child a hname
  exact (h.sameFolder_child ha n).sameScope h.before h.after h.root rfl hin

theorem rule (h : ScopeRemoved e d t t') (ha : a.Canonical) {name : Text} (hname : clean name ≠ [])
    (hnames : NamesFit (scopeOf a name).place.children) (rule : Text) :
    Store.read t' ((scopeOf a name).child rule) = Store.read t ((scopeOf a name).child rule) := by
  obtain ⟨n, hn, hin⟩ := scopeOf_in_child a hname
  have hfits : NamesFit ((configOf a).literalChild n).place.children := fun m hm =>
    hnames m ((children_suffix_children rfl hin).subset hm)
  have hsame := h.sameFolder_child ha n
  have hfirst := hsame.lookAlong h.before h.after ((configOf_canonical ha).literalChild hn) hfits
  exact hsame.read h.root hfirst (children_suffix_folder rfl (within_child_of_leaf rfl hin rule))

theorem permission (h : ScopeRemoved e d t t') (hy : y.Canonical) {name : Text} (method : Text)
    (hname : clean name ≠ []) (hnames : ∀ a ∈ y.ancestors, NamesFit (scopeOf a name).place.children) :
    Acl.permission t' y name method = Acl.permission t y name method :=
  permissionAlong_congr method fun a ha =>
    ⟨(h.sameScope (hy.ancestors a ha) hname).toSameMarks,
      fun rule _ => h.rule (hy.ancestors a ha) hname (hnames a ha) rule⟩

theorem listed (h : ScopeRemoved e d t t') (hy : y.Canonical)
    (hold : e ∉ y.ancestors ∨ Store.hasFolder t' (configOf e) = Store.hasFolder t (configOf e)) (open_ : Text) :
    (domains t' open_ y).1 = (domains t open_ y).1 := by
  rw [domains, domains, domainsAlong_names h.before.tree, domainsAlong_names h.after.tree]
  refine listedAlong_congr open_ (fun a ha => ?_) []
  refine ⟨h.declared (hy.ancestors a ha), h.endsAt (hy.ancestors a ha) (hold.imp_left ?_)⟩
  rintro hout rfl
  exact hout ha

theorem sameButListing (h : ScopeRemoved e d t t') (hy : y.Canonical) : SameButListing e t t' y := by
  constructor
  case domain =>
    intro name hname
    have halong := domainAlong_congr (fun a ha => (h.sameScope (hy.ancestors a ha) hname).toSameMarks) none none
    simp only [Acl.domain, halong]
  case secret =>
    intro name scheme user hname
    have hscope : ∀ a ∈ y.ancestors, SameScope t t' (scopeOf a name) := fun a ha =>
      h.sameScope (hy.ancestors a ha) hname
    rw [Acl.secret, Acl.secret, secretAlong_congr scheme user fun a ha =>
      ⟨(hscope a ha).toSameMarks, (hscope a ha).secret scheme user⟩]
  case permission => exact fun name method hname hnames => h.permission hy method hname hnames
  case listed => exact fun hold => h.listed hy hold
  case cut =>
    intro hin hnew open_
    obtain ⟨hends, hnone⟩ := h.endsAt_new hnew
    rw [domains, domainsAlong_names h.before.tree, domainsAlong_names h.after.tree]
    refine listedAlong_cut open_ hin (fun a ha hne => ?_) hnone hends []
    exact ⟨h.declared (hy.ancestors a ha), h.endsAt (hy.ancestors a ha) (Or.inl hne)⟩
  case authorized =>
    rintro hold a r now draw cache hopen hnames rfl hnone
    exact authorized_congr now draw cache hnone (h.permission hy _ hopen hnames) (h.listed hy hold _)

end ScopeRemoved

/-! ## The removal -/

/-- What is written into a scope that an entry does not declare is taken back by removing the scope: every answer
about access is as before if the entry had a configuration or if no directory stays, and for an entry that is
not sealed all but the listings that come to it are. -/
theorem removal_undoes_scope {root : Text} {t : FileTree} (hbuilt : Store.Built root t) {e : EntryPath}
    (he : Reachable e) {d : Text} (hd : IsSegment d) (hnew : d ∉ declared t e) (writes : List (EntryPath × Bytes))
    (hwrites : ∀ w ∈ writes, Reachable w.1 ∧ (scopeOf e d).Covers w.1) :
    ∃ r t', (Store.deleteAll (scopeOf e d)).run.run (Store.writeAll writes t) = (r, t') ∧
      (t.Fits (scopeOf e d).place.data → r = .ok ()) ∧
      (r = .ok () → Store.hasFolder t (configOf e) = true ∨ (∀ l, t.sight l = none → t'.sight l = none) →
        ∀ y, SameAnswers t t' y) ∧
      (r = .ok () → isSealed e = false → ∀ y, Reachable y → SameButListing e t t' y) := by
  have ht := hbuilt.sound.1
  have habsent : ∀ l, Removed (scopeOf e d) l → t.sight l = none := by
    intro l hl
    have hscope : scopeOf e d = ⟨.child d :: authHops e.hops⟩ := EntryPath.ext (scopeOf_hops e hd)
    rw [hscope] at hl
    refine absent_of_names ht.tree hd (fun name hname heq => hnew ?_) hl
    rw [declared, mem_sorted, configFolder, place, configOf_hops]
    exact List.mem_filterMap.mpr ⟨name, hname, heq⟩
  obtain ⟨r, t', hrun, ht', hroot, hfits, hrestored⟩ := run_deleteAll_restores ht (scopeOf_canonical he.canonical d)
    (scopeOf_leaf e hd) habsent writes fun w hw => ⟨(hwrites w hw).1.canonical, (hwrites w hw).2⟩
  refine ⟨r, t', hrun, hfits, fun hok hnothing y => ?_, fun hok hsealed y hy => ?_⟩
  · refine sameAnswers_of_sights ht ht' hroot (fun l hl => ?_) y
    rcases sight_restored hd (hrestored hok).2 hl with hsame | ⟨hway, hnone, hmade⟩
    · exact hsame
    · rcases hnothing with hfolder | hnothing
      · have hdir := (sight_of_isFolder hfolder).1
        rw [ht.tree.directory_above hway hdir] at hnone
        cases hnone
      · rw [hnothing l hnone, hnone]
  · obtain ⟨hsize, hrestored⟩ := hrestored hok
    have hshort : t.folderSize (configFolder e) < pathLimit := by
      rw [← scopeOf_folder e hd]
      exact Nat.lt_of_le_of_lt (t.folderSize_le _ _) hsize
    have hremoved : ScopeRemoved e d t t' :=
      ⟨ht, ht', hroot, he.canonical, hsealed, hd, hshort, hrestored⟩
    exact hremoved.sameButListing hy.canonical

/-! ## Guests of a host -/

/-- The container of a host, with its page in it. -/
def guestHost : EntryPath := ⟨[.dir, .child "host".toList]⟩

def hostPage : EntryPath := ⟨[.child "page".toList, .child "host".toList]⟩

/-- The host with a domain of its own. -/
def guardedHost : FileTree :=
  ((Store.write ((scopeOf guestHost "admin".toList).child realmKey) (Ascii.bytes "Area")).run.run
    (FileTree.empty "data/".toList)).2

theorem guardedHost_built : Store.Built "data/".toList guardedHost :=
  Store.Built.empty.write (reachable_iff_canonical.mpr (by decide)) _

def guest : Text := "guest".toList

/-- A realm and a user for guests. -/
def invitation (e : EntryPath) : List (EntryPath × Bytes) :=
  [((scopeOf e guest).child realmKey, Ascii.bytes "Area"),
    (secretOf (scopeOf e guest) "Digest".toList "bob".toList, Ascii.bytes "pass")]

/-- On the host nothing stays of its guests. On its page an empty configuration stays. -/
theorem removal_undoes_scope_guest :
    guest ∉ declared guardedHost guestHost ∧ Store.hasFolder guardedHost (configOf guestHost) = true ∧
    (∃ t', (Store.deleteAll (scopeOf guestHost guest)).run.run (Store.writeAll (invitation guestHost) guardedHost) =
        (.ok (), t') ∧ SameAnswers guardedHost t' hostPage) ∧
    guest ∉ declared guardedHost hostPage ∧ isSealed hostPage = false ∧
    ∃ t', (Store.deleteAll (scopeOf hostPage guest)).run.run (Store.writeAll (invitation hostPage) guardedHost) =
        (.ok (), t') ∧ SameButListing hostPage guardedHost t' hostPage := by
  have hcovered : ∀ e : EntryPath, (∀ w ∈ invitation e, w.1.Canonical ∧ (scopeOf e guest).Covers w.1) →
      ∀ w ∈ invitation e, Reachable w.1 ∧ (scopeOf e guest).Covers w.1 := fun e h w hw =>
    ⟨reachable_iff_canonical.mpr (h w hw).1, (h w hw).2⟩
  have hnew : guest ∉ declared guardedHost guestHost := by decide +kernel
  have hnewPage : guest ∉ declared guardedHost hostPage := by decide +kernel
  have hfolder : Store.hasFolder guardedHost (configOf guestHost) = true := by decide +kernel
  have hopen : isSealed hostPage = false := by decide
  refine ⟨hnew, hfolder, ?_, hnewPage, hopen, ?_⟩
  · obtain ⟨r, t', hrun, hfits, hsame, -⟩ := removal_undoes_scope guardedHost_built
      (reachable_iff_canonical.mpr (by decide) : Reachable guestHost) (by decide : IsSegment guest) hnew
      (invitation guestHost) (hcovered guestHost (by decide +kernel))
    obtain rfl := hfits (by decide +kernel)
    exact ⟨t', hrun, hsame rfl (Or.inl hfolder) hostPage⟩
  · obtain ⟨r, t', hrun, hfits, -, hsame⟩ := removal_undoes_scope guardedHost_built
      (reachable_iff_canonical.mpr (by decide) : Reachable hostPage) (by decide : IsSegment guest) hnewPage
      (invitation hostPage) (hcovered hostPage (by decide +kernel))
    obtain rfl := hfits (by decide +kernel)
    exact ⟨t', hrun, hsame rfl hopen hostPage (reachable_iff_canonical.mpr (by decide))⟩

/-- Nobody sees the page without credentials, until guests have come and gone. -/
theorem removal_can_open_branch :
    Store.Built "data/".toList guardedHost ∧ Reachable hostPage ∧ IsSegment guest ∧
    guest ∉ declared guardedHost hostPage ∧
    (∀ w ∈ invitation hostPage, Reachable w.1 ∧ (scopeOf hostPage guest).Covers w.1) ∧
    ∃ t', (Store.deleteAll (scopeOf hostPage guest)).run.run (Store.writeAll (invitation hostPage) guardedHost) =
        (.ok (), t') ∧
      (domains guardedHost anonymous hostPage).1 = ["admin".toList] ∧ (domains t' anonymous hostPage).1 = [] ∧
      (Auth.authenticate ⟨anonymous, 1000⟩ guardedHost ⟨root, hostPage, "GET".toList, "/host/page".toList, []⟩ 0
        (fun _ => ⟨[], []⟩) []).1.authorized = false ∧
      (Auth.authenticate ⟨anonymous, 1000⟩ t' ⟨root, hostPage, "GET".toList, "/host/page".toList, []⟩ 0
        (fun _ => ⟨[], []⟩) []).1.authorized = true := by
  have hcovered : ∀ w ∈ invitation hostPage, w.1.Canonical ∧ (scopeOf hostPage guest).Covers w.1 := by decide +kernel
  refine ⟨guardedHost_built, reachable_iff_canonical.mpr (by decide), by decide, by decide +kernel,
    fun w hw => ⟨reachable_iff_canonical.mpr (hcovered w hw).1, (hcovered w hw).2⟩, _, rfl, ?_, ?_, ?_, ?_⟩
  · decide +kernel
  · decide +kernel
  · decide +kernel
  · decide +kernel

end EntryServer.Acl
