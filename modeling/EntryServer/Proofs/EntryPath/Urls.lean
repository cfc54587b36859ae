import EntryServer.EntryPath.Place
import EntryServer.Proofs.EntryPath.Climbing
import Mathlib.Data.List.TakeWhile

/-! # URLs below a site

The URL of an entry spells the names on the way from the site, each after a slash, and has one more slash at its end
for a container. So it leads from the site back to the entry, and it begins with the URLs of all that is between them.
An entry in the metadata has the URL of the owner. -/
namespace EntryServer.EntryPath
set_option autoImplicit false

/-! ## Names after slashes -/

/-- The names on a way, each after a slash. In the list the last name comes first. -/
def slashed (names : List Text) : Text := names.reverse.flatMap ('/' :: ·)

section Names
variable {above names : List Text} {n : Text}

theorem slashed_cons (n : Text) (names : List Text) : slashed (n :: names) = slashed names ++ ['/'] ++ n := by
  simp [slashed]

theorem intercalate_eq_flatMap (h : names ≠ []) : '/' :: List.intercalate ['/'] names = names.flatMap ('/' :: ·) := by
  induction names with
  | nil => exact absurd rfl h
  | cons n names ih =>
    cases names with
    | nil => simp
    | cons m names =>
      rw [List.intercalate_cons_cons, List.flatMap_cons, ← ih (List.cons_ne_nil m names)]
      simp

theorem staysInside_of_segment (h : IsSegment n) : StaysInside n := by
  intro front hfront
  rw [List.splitOn_eq_singleton h.2.2.2] at hfront
  have hnot : ['.', '.'] ∉ front := fun hmem => h.2.2.1 (List.mem_singleton.mp (hfront.subset hmem)).symm
  rw [List.count_eq_zero.mpr hnot]
  exact Nat.zero_le _

theorem clean_closing (a : Text) : clean (a ++ ['/']) = clean a := by
  have hnil : StaysInside [] := by decide
  have h := clean_append a hnil
  rwa [List.append_nil] at h

theorem clean_slashed (h : ∀ n ∈ names, IsSegment n) : clean (slashed names) = names := by
  induction names with
  | nil => rfl
  | cons n names ih =>
    obtain ⟨hn, hnames⟩ := List.forall_mem_cons.mp h
    rw [slashed_cons, clean_append _ (staysInside_of_segment hn), clean_of_segment hn, ih hnames]
    rfl

theorem not_endsWithSlash_slashed (hn : IsSegment n) : endsWithSlash (slashed (n :: names)) = false := by
  rw [slashed_cons, endsWithSlash_append _ hn.1, not_endsWithSlash_of_segment hn]

theorem slashed_prefix (h : above <:+ names) : slashed above ++ ['/'] <+: slashed names ++ ['/'] := by
  induction names with
  | nil => rw [List.suffix_nil.mp h]
  | cons n names ih =>
    rcases List.suffix_cons_iff.mp h with rfl | h
    · exact List.prefix_rfl
    · rw [slashed_cons, List.append_assoc]
      exact (ih h).trans (List.prefix_append _ _)

end Names

/-! ## The URL of a way -/

section Ways
variable {site p e x : EntryPath} {names : List Text} {way : List Step}

/-- The names of a way through children, in the order of the way. -/
theorem names_of_children (names : List Text) :
    (names.map Step.child).reverse.filterMap Step.name? = names.reverse := by
  rw [List.filterMap_reverse, List.filterMap_map]
  exact congrArg List.reverse List.filterMap_some

theorem takeWhile_children (names : List Text) (marker : List Step) (hmarker : .metadata ∉ marker) :
    ((names.map Step.child).reverse ++ marker).takeWhile (· ≠ .metadata) =
      (names.map Step.child).reverse ++ marker := by
  refine List.takeWhile_eq_self_iff.mpr fun s hs => ?_
  rw [decide_eq_true_iff]
  rintro rfl
  rcases List.mem_append.mp hs with hs | hs
  · simp at hs
  · exact hmarker hs

theorem urlOf_names (h : names ≠ []) : urlOf (names.map Step.child).reverse = slashed names := by
  have hway := takeWhile_children names [] (List.not_mem_nil)
  rw [List.append_nil] at hway
  have hlast : (names.map Step.child).reverse.getLast? ≠ some .dir := by
    rw [List.getLast?_reverse]
    cases names with
    | nil => simp
    | cons n names => simp
  simp only [urlOf, hway, names_of_children, hlast, false_and, if_false]
  rw [intercalate_eq_flatMap (by simpa using h), slashed]

theorem urlOf_container (names : List Text) :
    urlOf (.dir :: names.map Step.child).reverse = slashed names ++ ['/'] := by
  have hway := takeWhile_children names [.dir] (by decide)
  have hnames : ((names.map Step.child).reverse ++ [Step.dir]).filterMap Step.name? = names.reverse := by
    rw [List.filterMap_append, names_of_children]
    exact List.append_nil _
  rw [List.reverse_cons]
  simp only [urlOf, hway, hnames, List.getLast?_append, List.getLast?_singleton, Option.some_or, true_and]
  cases names with
  | nil => rfl
  | cons n names =>
    have hne : (n :: names).reverse ≠ [] := by simp
    rw [if_pos hne, intercalate_eq_flatMap hne, slashed]

/-- What follows after the first hop into metadata has no part in the URL. -/
theorem urlOf_metadata (way more : List Step) : urlOf (way ++ .metadata :: more) = urlOf way := by
  have hfront : (way ++ .metadata :: more).takeWhile (· ≠ .metadata) = way.takeWhile (· ≠ .metadata) := by
    induction way with
    | nil => rfl
    | cons s way ih => simp only [List.cons_append, List.takeWhile_cons, ih]
  simp only [urlOf, hfront]

theorem urlPathUnder_of_hops (h : p.hops = way ++ site.file.hops) : p.urlPathUnder site = some (urlOf way.reverse) := by
  have hlength : p.hops.length - site.file.hops.length = way.length := by simp [h]
  simp only [urlPathUnder, hlength]
  rw [h, if_pos (List.suffix_append ..), List.take_left]

theorem urlPathUnder_eq_none : p.urlPathUnder site = none ↔ ¬ site.file.hops <:+ p.hops := by
  simp [urlPathUnder]

theorem slash_of_url {url : Text} (h : p.urlPathUnder site = some url) : ['/'] <+: url := by
  simp only [urlPathUnder, Option.ite_none_right_eq_some, Option.some.injEq] at h
  obtain ⟨-, rfl⟩ := h
  simp only [urlOf]
  split
  · exact ⟨_, rfl⟩
  · exact ⟨_, rfl⟩

theorem url_below (h : names ≠ []) : (site.below names).urlPathUnder site = some (slashed names) := by
  have hhops : (site.below names).hops = names.map .child ++ site.file.hops := rfl
  rw [urlPathUnder_of_hops hhops, urlOf_names h]

theorem url_container (hsite : site.Canonical) (names : List Text) :
    (site.below names).dir.urlPathUnder site = some (slashed names ++ ['/']) := by
  cases h : (site.below names).isContainer with
  | true =>
    -- only the root is a container without a marker
    have hroot : (site.below names).hops = [] := (isContainer_iff.mp h).resolve_right (below_head_ne_dir hsite names)
    obtain ⟨hnames, hbase⟩ := List.append_eq_nil_iff.mp hroot
    obtain rfl := List.map_eq_nil_iff.mp hnames
    have hhops : (site.below []).hops = [] ++ site.file.hops := rfl
    rw [dir, h, if_pos rfl, urlPathUnder_of_hops hhops]
    rfl
  | false =>
    have hhops : (site.below names).dir.hops = .dir :: names.map .child ++ site.file.hops := by
      rw [dir_of_leaf h]
      rfl
    rw [urlPathUnder_of_hops hhops, urlOf_container]

/-- The URL of an entry leads from the site to the entry. -/
theorem exists_url_child (hsite : site.Canonical) (q : Text) :
    ∃ url, (site.child q).urlPathUnder site = some url ∧ site.child url = site.child q := by
  have hclean := clean_slashed (segments_clean q)
  rw [child_eq hsite q]
  by_cases hdir : LeadsToContainer q
  · have hclosed : clean (slashed (clean q) ++ ['/']) = clean q := (clean_closing _).trans hclean
    have hslash : LeadsToContainer (slashed (clean q) ++ ['/']) := Or.inl (by simp [endsWithSlash])
    rw [if_pos hdir]
    exact ⟨_, url_container hsite _, by rw [child_eq hsite, if_pos hslash, hclosed]⟩
  · have hne : clean q ≠ [] := fun hkept => hdir (Or.inr hkept)
    have hopen : ¬ LeadsToContainer (slashed (clean q)) := by
      obtain ⟨n, names, hnames⟩ := List.exists_cons_of_ne_nil hne
      have hn : IsSegment n := segments_clean q n (by simp [hnames])
      rw [LeadsToContainer, hclean, hnames, not_endsWithSlash_slashed hn]
      simp
    rw [if_neg hdir]
    exact ⟨_, url_below hne, by rw [child_eq hsite, if_neg hopen, hclean]⟩

/-- In the metadata of an entry of the site there are no other URLs than that of the entry. -/
theorem url_of_metadata (he : site.file.hops <:+ e.hops) (hx : .metadata :: e.hops <:+ x.hops) :
    x.urlPathUnder site = e.urlPathUnder site := by
  obtain ⟨way, hway⟩ := he
  obtain ⟨more, hmore⟩ := hx
  have hhops : x.hops = (more ++ .metadata :: way) ++ site.file.hops := by rw [← hmore, ← hway]; simp
  rw [urlPathUnder_of_hops hhops, urlPathUnder_of_hops hway.symm, List.reverse_append, List.reverse_cons,
    List.append_assoc, List.singleton_append, urlOf_metadata]

end Ways

/-! ## URLs on a climb -/

section Climbs
variable {site p e x s : EntryPath} {names : List Text}

theorem suffix_dir (p : EntryPath) : p.hops <:+ p.dir.hops := by
  unfold dir
  split
  · exact List.suffix_rfl
  · exact List.suffix_cons ..

/-- A climb leaves the metadata of an entry only to the entry. -/
theorem climb_metadata {hops : List Step} (hx : .metadata :: e.hops <:+ hops) (hparent : climb hops = some p) :
    p = e ∨ .metadata :: e.hops <:+ p.hops := by
  match hops, hparent with
  | .child n :: above, hparent =>
    obtain rfl : EntryPath.dir ⟨above⟩ = p := by simpa [climb] using hparent
    have habove := (List.suffix_cons_iff.mp hx).resolve_left (by simp)
    exact Or.inr (habove.trans (suffix_dir ⟨above⟩))
  | .dir :: above, hparent =>
    obtain rfl : (⟨above⟩ : EntryPath) = p := by simpa [climb] using hparent
    exact Or.inr ((List.suffix_cons_iff.mp hx).resolve_left (by simp))
  | .metadata :: above, hparent =>
    obtain rfl : (⟨above⟩ : EntryPath) = p := by simpa [climb] using hparent
    exact (List.suffix_cons_iff.mp hx).imp_left fun heq => EntryPath.ext (List.cons.inj heq).2.symm

theorem parent_metadata (hx : .metadata :: e.hops <:+ x.hops) (hparent : x.parent true = some p) :
    p = e ∨ .metadata :: e.hops <:+ p.hops := by
  unfold parent at hparent
  split at hparent
  · next above hhops =>
    rw [hhops] at hx
    exact climb_metadata ((List.suffix_cons_iff.mp hx).resolve_left (by simp)) hparent
  · exact climb_metadata hx hparent

/-- From inside of the metadata of an entry the climb goes through the metadata, and then on from the entry. -/
theorem mem_ancestors_metadata (hx : .metadata :: e.hops <:+ x.hops) (hs : s ∈ x.ancestors) :
    .metadata :: e.hops <:+ s.hops ∨ s ∈ e.ancestors := by
  induction x using ancestors.induct with
  | case1 x hnone =>
    rw [ancestors_of_no_parent hnone, List.mem_singleton] at hs
    exact Or.inl (hs ▸ hx)
  | case2 x above hparent ih =>
    rw [ancestors_of_parent hparent] at hs
    rcases List.mem_cons.mp hs with rfl | hs
    · exact Or.inl hx
    · rcases parent_metadata hx hparent with rfl | habove
      · exact Or.inr hs
      · exact ih habove hs

theorem dir_of_container (h : p.isContainer = true) : p.dir = p := by
  rw [dir, h, if_pos rfl]

/-- No names lead to the site itself. -/
theorem dir_below_nil (hsite : site.Canonical) : (site.below []).dir = site.dir := dir_file hsite

/-- From below a site the climb goes through the containers of the names, and then on from the site. -/
theorem mem_ancestors_below (hsite : site.Canonical) (hs : s ∈ (site.below names).dir.ancestors) :
    (∃ above, above <:+ names ∧ s = (site.below above).dir) ∨ s ∈ site.dir.ancestors := by
  induction names with
  | nil =>
    rw [dir_below_nil hsite] at hs
    exact Or.inr hs
  | cons n names ih =>
    have hparent : (site.below (n :: names)).dir.parent true = some (site.below names).dir := parent_dir _
    rw [ancestors_of_parent hparent] at hs
    rcases List.mem_cons.mp hs with rfl | hs
    · exact Or.inl ⟨_, List.suffix_rfl, rfl⟩
    · refine (ih hs).imp_left ?_
      rintro ⟨above, habove, rfl⟩
      exact ⟨above, habove.trans (List.suffix_cons ..), rfl⟩

/-- What is strictly above the site has no URL there. -/
theorem no_url_above (hsite : site.Canonical) (hs : s ∈ site.ancestors) (hne : s ≠ site) :
    s.urlPathUnder site = none := by
  rw [urlPathUnder_eq_none]
  intro hsuffix
  have hlevel : site.file.level ≤ s.level := hsuffix.sublist.countP_le
  rw [level_file] at hlevel
  exact absurd (level_lt_of_mem_ancestors hsite hs hne) (by omega)

theorem url_site (hsite : site.Canonical) (hcontainer : site.isContainer = true) :
    site.urlPathUnder site = some ['/'] := by
  have hurl := url_container hsite []
  rwa [dir_below_nil hsite, dir_of_container hcontainer] at hurl

/-- On the climb from a container of the site there are only URLs that its own begins with, up to where the climb
leaves the site. -/
theorem url_above_container (hsite : site.Canonical) (hcontainer : site.isContainer = true)
    (hs : s ∈ (site.below names).dir.ancestors) :
    (∃ url, s.urlPathUnder site = some url ∧ url <+: slashed names ++ ['/']) ∨ s ∈ site.ancestors ∧ s ≠ site := by
  rcases mem_ancestors_below hsite hs with ⟨above, habove, rfl⟩ | hs
  · exact Or.inl ⟨_, url_container hsite above, slashed_prefix habove⟩
  · rw [dir_of_container hcontainer] at hs
    by_cases heq : s = site
    · subst heq
      exact Or.inl ⟨_, url_site hsite hcontainer, slashed_prefix List.nil_suffix⟩
    · exact Or.inr ⟨hs, heq⟩

/-- The same holds of the climb from any entry of the site. -/
theorem url_on_climb (hsite : site.Canonical) (hcontainer : site.isContainer = true) {q own : Text}
    (hown : (site.child q).urlPathUnder site = some own) (hs : s ∈ (site.child q).ancestors) :
    (∃ url, s.urlPathUnder site = some url ∧ url <+: own) ∨ s ∈ site.ancestors ∧ s ≠ site := by
  rw [child_eq hsite] at hown hs
  split at hown
  · next hleads =>
    rw [if_pos hleads] at hs
    rw [url_container hsite] at hown
    obtain rfl := Option.some.inj hown
    exact url_above_container hsite hcontainer hs
  · next hleaf =>
    rw [if_neg hleaf] at hs
    obtain ⟨n, names, hnames⟩ := List.exists_cons_of_ne_nil fun hkept => hleaf (Or.inr hkept)
    rw [hnames] at hown hs
    have hparent : (site.below (n :: names)).parent true = some (site.below names).dir := rfl
    rw [ancestors_of_parent hparent] at hs
    rcases List.mem_cons.mp hs with rfl | hs
    · exact Or.inl ⟨own, hown, List.prefix_rfl⟩
    · rw [url_below (List.cons_ne_nil n names), slashed_cons] at hown
      obtain rfl := Option.some.inj hown
      refine (url_above_container hsite hcontainer hs).imp_left ?_
      rintro ⟨url, hurl, hprefix⟩
      exact ⟨url, hurl, hprefix.trans (List.prefix_append _ _)⟩

end Climbs

/-! ## Through metadata -/

/-- The entry that names lead to, each of them from the metadata of the entry reached so far. -/
def through (e : EntryPath) (names : List Text) : EntryPath := names.foldl (fun e name => e.parameters.child name) e

section Through
variable {site s e : EntryPath} {names : List Text}

theorem suffix_child_parameters (e : EntryPath) (name : Text) :
    e.parameters.hops <:+ (e.parameters.child name).hops := by
  have hleaf : e.parameters.file = e.parameters := file_of_head_ne_dir (by simp)
  have hbelow : e.parameters.hops <:+ (e.parameters.below (clean name)).hops := by
    rw [below, hleaf]
    exact List.suffix_append ..
  simp only [child]
  split
  · exact suffix_dir _
  · split
    · exact hbelow.trans (suffix_dir _)
    · exact hbelow

theorem through_metadata (e : EntryPath) (names : List Text) :
    e.through names = e ∨ .metadata :: e.hops <:+ (e.through names).hops := by
  induction names generalizing e with
  | nil => exact Or.inl rfl
  | cons name names ih =>
    have hfirst : .metadata :: e.hops <:+ (e.parameters.child name).hops := suffix_child_parameters e name
    have hrest : (e.through (name :: names)) = (e.parameters.child name).through names := rfl
    rw [hrest]
    rcases ih (e.parameters.child name) with heq | hmore
    · rw [heq]
      exact Or.inr hfirst
    · exact Or.inr (hfirst.trans ((List.suffix_cons ..).trans hmore))

theorem url_through (he : site.file.hops <:+ e.hops) (names : List Text) :
    (e.through names).urlPathUnder site = e.urlPathUnder site := by
  rcases through_metadata e names with heq | hx
  · rw [heq]
  · exact url_of_metadata he hx

/-- What a climb meets is in the metadata that was gone through, or it is met on the climb from the first entry. -/
theorem mem_ancestors_through (hs : s ∈ (e.through names).ancestors) :
    .metadata :: e.hops <:+ s.hops ∨ s ∈ e.ancestors := by
  rcases through_metadata e names with heq | hx
  · exact Or.inr (heq ▸ hs)
  · exact mem_ancestors_metadata hx hs

/-- The URL of an entry covers the climb from it, as far as the climb stays in the site. -/
structure Covered (site x : EntryPath) (own : Text) : Prop where
  self : x.urlPathUnder site = some own
  climb : ∀ s ∈ x.ancestors, ∀ url, s.urlPathUnder site = some url → url <+: own
  above : ∀ s ∈ x.ancestors, s.urlPathUnder site = none ↔ s ∈ site.ancestors ∧ s ≠ site

theorem suffix_of_url {url : Text} (h : e.urlPathUnder site = some url) : site.file.hops <:+ e.hops := by
  by_contra hnot
  rw [urlPathUnder_eq_none.mpr hnot] at h
  cases h

theorem covered_through (hsite : site.Canonical) (hcontainer : site.isContainer = true) {q own : Text}
    (hown : (site.child q).urlPathUnder site = some own) (names : List Text) :
    Covered site ((site.child q).through names) own := by
  have hmet : ∀ s ∈ ((site.child q).through names).ancestors,
      (∃ url, s.urlPathUnder site = some url ∧ url <+: own) ∨ s ∈ site.ancestors ∧ s ≠ site := by
    intro s hs
    rcases mem_ancestors_through hs with hx | hs
    · exact Or.inl ⟨own, (url_of_metadata (suffix_of_url hown) hx).trans hown, List.prefix_rfl⟩
    · exact url_on_climb hsite hcontainer hown hs
  refine ⟨(url_through (suffix_of_url hown) names).trans hown, fun s hs url hurl => ?_,
    fun s hs => ⟨fun hnone => ?_, ?_⟩⟩
  · rcases hmet s hs with ⟨url', hurl', hfront⟩ | ⟨habove, hne⟩
    · rw [hurl] at hurl'
      exact Option.some.inj hurl' ▸ hfront
    · rw [no_url_above hsite habove hne] at hurl
      cases hurl
  · refine (hmet s hs).resolve_left ?_
    rintro ⟨url, hurl, -⟩
    rw [hnone] at hurl
    cases hurl
  · rintro ⟨habove, hne⟩
    exact no_url_above hsite habove hne

end Through
end EntryServer.EntryPath
