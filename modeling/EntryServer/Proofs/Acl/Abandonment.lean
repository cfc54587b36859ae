import EntryServer.Proofs.Acl.Failures
import EntryServer.Proofs.Acl.Removal
import EntryServer.Proofs.Store.Abandonment

/-! # Access and abandoned contents

A content that is never committed has no influence on who may do what, unless directories were made for it in an
access configuration: a scope is there if its directory is, and the listing of domains goes by directories. -/
namespace EntryServer.Acl
set_option autoImplicit false
open EntryPath FileTree Store

section Questions
variable {t t' : FileTree} {p a y : EntryPath}

/-- A scope whose directory is not new is as before, secrets and rules apart. -/
theorem sameMarks_of_shadow (h : Shadow t t') (ha : a.Canonical) {name : Text}
    (hnew : ¬ Made t t' (scopeOf a name).place.children) : SameMarks t t' (scopeOf a name) := by
  have hscope := scopeOf_canonical ha name
  have hbelow := children_suffix_children (configOf_leaf a) (Or.inr (within_scopeOf a name))
  have hne : (scopeOf a name).place.children ≠ [] := fun hnil =>
    configFolder_ne_nil a (List.suffix_nil.mp (hnil ▸ hbelow))
  have hfolder := h.sight_of_old (not_staging_of_suffix_children hscope List.suffix_rfl) hnew
  exact ⟨hasFolder_eq h.before.tree h.after.tree h.root hne hfolder, h.hasData (hscope.child inherit),
    realmIn_congr (h.read_ok (hscope.child realmKey))⟩

/-- Nothing new is declared: neither the directory of a configuration is new, nor one in it that tells of a scope. -/
def NothingDeclared (t t' : FileTree) (a : EntryPath) : Prop :=
  ¬ Made t t' (configFolder a) ∧ ∀ name, childBase? name ≠ none → ¬ Made t t' (name :: configFolder a)

theorem endsAt_of_shadow (h : Shadow t t') (ha : a.Canonical) (hnew : ¬ Made t t' (configFolder a)) :
    endsAt t' (configOf a) = endsAt t (configOf a) := by
  have hconfig := configOf_canonical ha
  have hfolder := h.sight_of_old (not_staging_of_suffix_children hconfig List.suffix_rfl) hnew
  rw [endsAt, endsAt, hasFolder_eq h.before.tree h.after.tree h.root (configFolder_ne_nil a) hfolder,
    h.hasData (hconfig.child inherit)]

/-- Two stores decide alike about an entry, where no directory of a scope above it is new. -/
structure SameDecisions (t t' : FileTree) (y : EntryPath) : Prop where
  domain : ∀ name, (∀ a ∈ y.ancestors, ¬ Made t t' (scopeOf a name).place.children) →
    domain t' y name = domain t y name
  secret : ∀ name scheme user, (∀ a ∈ y.ancestors, ¬ Made t t' (scopeOf a name).place.children ∧
      Steady t t' (secretOf (scopeOf a name) scheme user).place.data) →
    secret t' y name scheme user = secret t y name scheme user
  permission : ∀ name method, (∀ a ∈ y.ancestors, ¬ Made t t' (scopeOf a name).place.children ∧
      ∀ rule ∈ rules method, Steady t t' ((scopeOf a name).child rule).place.data) →
    permission t' y name method = permission t y name method

/-- Two stores list the same domains for an entry, where nothing new is declared above it, but for the one that the
draft of a scope's metadata passes for. -/
structure SameDomains (p : EntryPath) (t t' : FileTree) (y : EntryPath) : Prop where
  failures : ∀ open_, (∀ a ∈ y.ancestors, ¬ Made t t' (configFolder a) ∧ Steady t t' (configFolder a)) →
    (domains t' open_ y).2 = (domains t open_ y).2
  others : ∀ open_, (∀ a ∈ y.ancestors, NothingDeclared t t' a) →
    (domains t' open_ y).1.filter (· ≠ (owner p).name) = (domains t open_ y).1.filter (· ≠ (owner p).name)
  elsewhere : ∀ open_, (∀ a ∈ y.ancestors, NothingDeclared t t' a) →
    (∀ a ∈ y.ancestors, ¬ (IsNamedMetadata p ∧ configFolder a = p.place.folder)) →
    (domains t' open_ y).1 = (domains t open_ y).1

theorem sameDecisions_of_shadow (h : Shadow t t') (hy : y.Canonical) : SameDecisions t t' y := by
  have hway := hy.ancestors
  constructor
  case domain =>
    intro name hnew
    have halong := domainAlong_congr (fun a ha => sameMarks_of_shadow h (hway a ha) (hnew a ha)) none none
    simp only [Acl.domain, halong]
  case secret =>
    intro name scheme user hnew
    rw [Acl.secret, Acl.secret, secretAlong_congr scheme user fun a ha => ?_]
    obtain ⟨hmade, hsteady⟩ := hnew a ha
    exact ⟨sameMarks_of_shadow h (hway a ha) hmade, fun _ =>
      h.read (((scopeOf_canonical (hway a ha) name).child _).child user) hsteady⟩
  case permission =>
    intro name method hnew
    refine permissionAlong_congr method fun a ha => ?_
    obtain ⟨hmade, hsteady⟩ := hnew a ha
    exact ⟨sameMarks_of_shadow h (hway a ha) hmade, fun rule hrule =>
      h.read ((scopeOf_canonical (hway a ha) name).child rule) (hsteady rule hrule)⟩

/-- What a configuration declares is as before, but for the scope that the draft passes for. -/
theorem declared_others (h : Abandoned p t t') (ha : a.Canonical) (hnew : NothingDeclared t t' a) (keep : Text → Bool)
    (hkeep : ∀ n, keep n = true → ¬ PassesFor p ((configOf a).literalChild n)) :
    (declared t' a).filter keep = (declared t a).filter keep :=
  h.listed_others (configOf_canonical ha) hnew.2 keep hkeep

theorem sameDomains_of_abandoned (h : Abandoned p t t') (hy : y.Canonical) : SameDomains p t t' y := by
  have hway := hy.ancestors
  have hends : (∀ a ∈ y.ancestors, ¬ Made t t' (configFolder a)) →
      ∀ a ∈ y.ancestors, endsAt t' (configOf a) = endsAt t (configOf a) :=
    fun hnew a ha => endsAt_of_shadow h.toShadow (hway a ha) (hnew a ha)
  constructor
  case failures =>
    intro open_ hnew
    rw [domains_failures, domains_failures, unlisted, unlisted, unlistedAlong_congr fun a ha => ⟨fun e => ?_, ?_⟩]
    · exact h.children_error (configOf_canonical (hway a ha)) (hnew a ha).2 e
    · exact hends (fun a ha => (hnew a ha).1) a ha
  case others =>
    intro open_ hnew
    rw [domains, domains, domainsAlong_names h.before.tree, domainsAlong_names h.after.tree]
    refine filter_listedAlong_congr open_ _ (fun a ha => ⟨?_, hends (fun a ha => (hnew a ha).1) a ha⟩) rfl
    refine declared_others h (hway a ha) (hnew a ha) _ fun n hn hpasses => ?_
    exact of_decide_eq_true hn (congrArg EntryPath.name hpasses.2)
  case elsewhere =>
    intro open_ hnew hfolder
    rw [domains, domains, domainsAlong_names h.before.tree, domainsAlong_names h.after.tree]
    refine listedAlong_congr open_ (fun a ha => ⟨?_, hends (fun a ha => (hnew a ha).1) a ha⟩) []
    have hall := declared_others h (hway a ha) (hnew a ha) (fun _ => true) fun n _ hpasses =>
      hfolder a ha ⟨hpasses.1, hpasses.folder⟩
    rwa [List.filter_true, List.filter_true] at hall

end Questions

/-! ## Giving up a content -/

/-- A new content that is given up is seen by no reader, and access is decided as before, but for the directories
that were made on the way to it: they are listed as children, they are scopes where they lie in a configuration,
and names below them that are too long are refused. The draft itself is listed nowhere, unless it is one of the metadata
of an entry with a name: then it may pass for that entry, and for no other one. -/
theorem abandoned_content_is_not_seen {root : Text} {t : FileTree} (hbuilt : Built root t) {p : EntryPath}
    (hp : Reachable p) (chunks : List Bytes) {t' : FileTree} (hrun : t' = ((Change.abandon p chunks).run.run.run t).2) :
    (∀ l, Made t t' l → l <:+ p.place.folder) ∧
    (t.sight p.place.folder = some .directory → ∀ l, ¬ Made t t' l) ∧
    SameContents t t' ∧ SameListings p t t' ∧
    ∀ y, Reachable y → SameDecisions t t' y ∧ SameDomains p t t' y := by
  have h := abandoned hbuilt.sound.1 hp.canonical chunks
  rw [← hrun] at h
  refine ⟨fun l => h.made_on_way, h.not_made_of_folder, h.sameContents, h.sameListings, fun y hy => ?_⟩
  exact ⟨sameDecisions_of_shadow h.toShadow hy.canonical, sameDomains_of_abandoned h hy.canonical⟩

/-! ## Below a page -/

/-- A page below the page, which has no directory for it yet. -/
def subPage : EntryPath := ⟨.child "sub".toList :: hostPage.hops⟩

/-- The page below the page is given up: it is not there, and the page has its domain as before, but the host now
lists the page, whose directory was made. -/
theorem abandoned_content_is_not_seen_page :
    Built "data/".toList guardedHost ∧ Reachable subPage ∧
    ∃ t', t' = ((Change.abandon subPage [[1], [2]]).run.run.run guardedHost).2 ∧
      Store.hasData t' subPage = false ∧
      Acl.domains t' anonymous hostPage = (["admin".toList], []) ∧
      ∀ found', Store.children t' guestHost = .ok found' → hostPage ∈ found' := by
  have hsub : Reachable subPage := reachable_iff_canonical.mpr (by decide)
  have hpage : Reachable hostPage := reachable_iff_canonical.mpr (by decide)
  refine ⟨guardedHost_built, hsub, _, rfl, ?_⟩
  obtain ⟨hway, -, hcontents, hlistings, hothers⟩ := abandoned_content_is_not_seen guardedHost_built hsub [[1], [2]] rfl
  have hdomains := (hothers hostPage hpage).2
  have hhost : Reachable guestHost := reachable_iff_canonical.mpr (by decide)
  have hbefore : Store.hasData guardedHost subPage = false := by decide +kernel
  have hlisted : Acl.domains guardedHost anonymous hostPage = (["admin".toList], []) := by decide +kernel
  have hconfig : ∀ a ∈ hostPage.ancestors, ¬ configFolder a <:+ subPage.place.folder := by decide +kernel
  have hfits : ∀ a ∈ hostPage.ancestors, NamesFit (configFolder a) := by decide +kernel
  refine ⟨(hcontents.hasData subPage hsub).trans hbefore, ?_, fun found' hfound' => ?_⟩
  · have hconfigs : ∀ a ∈ hostPage.ancestors, ∀ l, configFolder a <:+ l → ¬ Made guardedHost _ l :=
      fun a ha l hl hmade => hconfig a ha (hl.trans (hway l hmade))
    have hfailures := hdomains.failures anonymous fun a ha =>
      ⟨hconfigs a ha _ List.suffix_rfl, Or.inl (hfits a ha)⟩
    have hnames := hdomains.elsewhere anonymous
      (fun a ha => ⟨hconfigs a ha _ List.suffix_rfl, fun _ _ => hconfigs a ha _ (List.suffix_cons ..)⟩)
      fun _ _ hshown => absurd hshown.1 (by decide)
    exact Prod.ext (hnames.trans (congrArg Prod.fst hlisted)) (hfailures.trans (congrArg Prod.snd hlisted))
  · have hfound : Store.children guardedHost guestHost = .ok [] := by decide +kernel
    have hothers : ¬ PassesFor subPage hostPage := by decide
    refine (hlistings.gained guestHost [] found' hostPage hhost hfound hfound' hothers).mpr (Or.inr ?_)
    exact ⟨"page.dir".toList, "page".toList, ⟨by decide +kernel, by decide +kernel⟩, by decide, by decide⟩

/-- The realm of a guest, declared below the page. -/
def guestRealm : EntryPath := (scopeOf subPage guest).child realmKey

/-- The store after a content of an entry was given up. -/
def guardedHostAfter (p : EntryPath) : FileTree := ((Change.abandon p [[1]]).run.run.run guardedHost).2

/-- What is never committed can be seen by its directories: the page has a child, the child has a domain, which
hides that of the host, and a name that is too long is not missing any more. And it can be seen by its draft: that of
the metadata of the page is listed as the page, and that of the metadata of a scope as a domain. -/
theorem abandoned_content_can_be_seen :
    Built "data/".toList guardedHost ∧ Reachable guestRealm ∧
    Store.children guardedHost hostPage = .ok [] ∧
    Store.children (guardedHostAfter guestRealm) hostPage = .ok [subPage] ∧
    (domains guardedHost anonymous subPage).1 = ["admin".toList] ∧
    (domains (guardedHostAfter guestRealm) anonymous subPage).1 = [guest] ∧
    permission guardedHost ⟨.child (List.replicate 252 'l') :: hostPage.hops⟩ anonymous "GET".toList = .ok .unset ∧
    permission (guardedHostAfter guestRealm) ⟨.child (List.replicate 252 'l') :: hostPage.hops⟩ anonymous
      "GET".toList ≠ .ok .unset ∧
    Store.children guardedHost guestHost = .ok [] ∧
    Store.children (guardedHostAfter hostPage.parameters) guestHost = .ok [hostPage] ∧
    (domains (guardedHostAfter (scopeOf guestHost guest).parameters) anonymous hostPage).1 = ["admin".toList, guest] :=
  ⟨guardedHost_built, reachable_iff_canonical.mpr (by decide +kernel), by decide +kernel, by decide +kernel,
    by decide +kernel, by decide +kernel, by decide +kernel, by decide +kernel, by decide +kernel, by decide +kernel,
    by decide +kernel⟩

end EntryServer.Acl
