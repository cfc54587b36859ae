import EntryServer.Proofs.Http.Deletion
import EntryServer.Proofs.Http.Noninterference

/-! # The seal

Access configurations are sealed against every request that deletes nothing: a sealed entry is refused, and a
request on any other entry neither changes a configuration outside the stored fields of the entry nor shows
what is in one. -/
namespace EntryServer.Http.Server
set_option autoImplicit false
open EntryPath FileTree Acl
open Entry (headersOf)

variable {s : Server} {r : Request} {now : Nat} {draw : Nat → Auth.Keys} {identifier : Bytes} {state : State}

theorem serve_sealed (hsealed : isSealed (addressed r).entry = true) :
    (s.serve r now draw identifier state).1.status =
      (if s.announcesTooMuch r then .payloadTooLarge else .forbidden) ∧
    (s.serve r now draw identifier state).2.2 = state := by
  rw [serve_status, serve_state, guarded_sealed hsealed]
  split
  · exact ⟨rfl, rfl⟩
  · exact ⟨rfl, rfl⟩

/-- What two stores agree on, of access configurations outside a branch. Whether a missing rule is an absence
or a failure depends on the names of the folders above it, unless these are short enough. -/
structure SameAccess (branch : EntryPath) (t t' : FileTree) : Prop where
  files : ∀ (p q : EntryPath) (f : Facet), q.Canonical → (configOf p).Covers q → ¬ branch.Covers q →
    t'.sight (q.place.facet f) = t.sight (q.place.facet f)
  listed : ∀ (y : EntryPath) (open_ : Text), Reachable y → ¬ branch.Covers y →
    (domains t' open_ y).1 = (domains t open_ y).1
  domain : ∀ (y : EntryPath) (name : Text), Reachable y → ¬ branch.Covers y → domain t' y name = domain t y name
  secret : ∀ (y : EntryPath) (name scheme user : Text), Reachable y → ¬ branch.Covers y →
    secret t' y name scheme user = secret t y name scheme user
  failures : ∀ (y : EntryPath) (open_ : Text), Reachable y → ¬ branch.Covers y →
    (∀ a ∈ y.ancestors, NamesFit (configFolder a)) → domains t' open_ y = domains t open_ y
  permission : ∀ (y : EntryPath) (name method : Text), Reachable y → ¬ branch.Covers y →
    (∀ a ∈ y.ancestors, NamesFit (configFolder a)) → permission t' y name method = permission t y name method

/-- A change that stays out of the configurations outside the stored fields changes no answer about them. -/
theorem sameAccess_of_frame {t t' : FileTree} (ht : Store.Sound t) (ht' : Store.Sound t')
    (hroot : t'.root = t.root) {e : EntryPath} (he : e.Canonical) (hsealed : isSealed e = false)
    (hframe : ∀ l, ¬ Entry.PutTouched e l → t'.sight l = t.sight l) : SameAccess (headersOf e) t t' := by
  have hway : ∀ {y : EntryPath}, Reachable y → ¬ (headersOf e).Covers y → SameWay t t' y := by
    intro y hy hout
    refine ⟨ht, ht', hroot, hy.canonical, fun a ha => SameConfig.sameFolder ?_⟩
    exact sameConfig_of_frame ht ht' he hsealed (hy.canonical.ancestors a ha) (fun h => hout (h.of_ancestor ha)) hframe
  constructor
  case files =>
    intro p q f hq hcovers hout
    exact hframe _ (not_touched_of_sealed he hsealed hq (covers_configOf.mp hcovers) hout f)
  case listed => exact fun y open_ hy hout => (hway hy hout).listed open_
  case domain => exact fun y name hy hout => (hway hy hout).domain name
  case secret => exact fun y name scheme user hy hout => (hway hy hout).secret name scheme user
  case failures => exact fun y open_ hy hout hnames => (hway hy hout).domains hnames open_
  case permission => exact fun y name method hy hout hnames => (hway hy hout).permission hnames name method

/-- An authorized request gets the same answer from two stores that are alike, apart from its challenges. -/
theorem guarded_alike (hmethod : r.method ≠ "DELETE".toList) (hsealed : isSealed (addressed r).entry = false)
    (ht : Store.Sound state.files) {now' : Nat} {draw' : Nat → Auth.Keys} {state' : State}
    (ht' : Store.Sound state'.files) (h : Alike state.files state'.files)
    (hauth : (s.verdict r now draw state).authorized = true)
    (hauth' : (s.verdict r now' draw' state').authorized = true) :
    ∃ a : Response,
      (s.guarded r now draw state).1 = challenged (s.verdict r now draw state).challenges a ∧
      (s.guarded r now' draw' state').1 = challenged (s.verdict r now' draw' state').challenges a := by
  have he : (addressed r).entry.Canonical := Addressed.resolve_canonical _ _
  have hanswer := answer_alike s hmethod he hsealed (Target.parse r.target) ht ht' h
  refine ⟨_, (guarded_authorized hsealed hauth).1, ?_⟩
  rw [(guarded_authorized hsealed hauth').1, hanswer]

/-- Of access configurations, a request that deletes nothing neither shows nor changes anything outside the
stored fields of the entry that it addresses. -/
theorem configuration_is_sealed {root : Text} (s : Server) (r : Request) (now : Nat) (draw : Nat → Auth.Keys)
    (identifier : Bytes) (hbuilt : Store.Built root state.files) (hmethod : r.method ≠ "DELETE".toList) :
    ((∃ p, (configOf p).Covers (addressed r).entry) →
      (s.serve r now draw identifier state).1.status =
        (if s.announcesTooMuch r then .payloadTooLarge else .forbidden) ∧
      (s.serve r now draw identifier state).2.2 = state) ∧
    ((¬ ∃ p, (configOf p).Covers (addressed r).entry) →
      SameAccess (headersOf (addressed r).entry) state.files
        (s.serve r now draw identifier state).2.2.files ∧
      ∀ (now' : Nat) (draw' : Nat → Auth.Keys) (identifier' : Bytes) (state' : State),
        Store.Built root state'.files → Alike state.files state'.files →
        (s.verdict r now draw state).authorized = true → (s.verdict r now' draw' state').authorized = true →
        (s.serve r now' draw' identifier' state').1.status = (s.serve r now draw identifier state).1.status ∧
        (s.serve r now' draw' identifier' state').1.body = (s.serve r now draw identifier state).1.body ∧
        ∃ a : Response,
          (s.guarded r now draw state).1 = challenged (s.verdict r now draw state).challenges a ∧
          (s.guarded r now' draw' state').1 = challenged (s.verdict r now' draw' state').challenges a) := by
  have ht := hbuilt.sound.1
  rw [← isSealed_iff]
  constructor
  · exact serve_sealed
  · intro hopen
    have hsealed := Bool.eq_false_iff.mpr hopen
    constructor
    · obtain ⟨ht', hroot, hframe⟩ := serve_frame s now draw identifier ht hmethod hsealed
      exact sameAccess_of_frame ht ht' hroot (Addressed.resolve_canonical _ _) hsealed hframe
    · intro now' draw' identifier' state' hbuilt' halike hauth hauth'
      obtain ⟨a, ha, ha'⟩ := guarded_alike hmethod hsealed ht hbuilt'.sound.1 halike hauth hauth'
      have hstatus : (s.guarded r now' draw' state').1.status = (s.guarded r now draw state).1.status := by
        rw [ha, ha']
        rfl
      have hbody : (s.guarded r now' draw' state').1.body = (s.guarded r now draw state).1.body := by
        rw [ha, ha']
        rfl
      refine ⟨?_, ?_, a, ha, ha'⟩
      · rw [serve_status, serve_status, hstatus]
      · rw [serve_body, serve_body, hbody]

def replacement (target : String) (headers : Headers) : Request := ⟨"PUT".toList, target.toList, headers, ⟨[], true⟩⟩

/-- The page with a rule that denies everything on it. -/
def closedPage : State :=
  ⟨((Store.write pageRule (Ascii.bytes "deny")).run.run (FileTree.empty "data/".toList)).2, []⟩

theorem closedPage_alike : Alike openPage.files closedPage.files := by
  refine Alike.of_contents (by decide +kernel) (by decide +kernel) fun l i hl => Or.inr ⟨visitedPage, ?_⟩
  have hrule : ∀ kv ∈ openPage.files.nodes, kv.2 ≠ .directory → kv.1 = pageRule.place.data := by decide +kernel
  obtain rfl := hrule _ hl (by simp)
  exact pageRule_config

/-- The rule of the page cannot be replaced by a request, and what it says has no influence on the answers
below the page. -/
theorem configuration_is_sealed_page :
    (site.serve (replacement "/page?meta=auth/anonymous/default.perm" []) 0 (fun _ => ⟨[], []⟩) [] openPage).1.status =
      .forbidden ∧
    (site.serve (replacement "/page?meta=auth/anonymous/default.perm" []) 0 (fun _ => ⟨[], []⟩) [] openPage).2.2 =
      openPage ∧
    (site.serve (replacement "/page/sub" []) 0 (fun _ => ⟨[], []⟩) [] closedPage).1.status =
      (site.serve (replacement "/page/sub" []) 0 (fun _ => ⟨[], []⟩) [] openPage).1.status := by
  have hclosed : Store.Built "data/".toList closedPage.files :=
    Store.Built.empty.write (reachable_iff_canonical.mpr (by decide)) _
  have hrule := (configuration_is_sealed site (replacement "/page?meta=auth/anonymous/default.perm" []) 0
    (fun _ => ⟨[], []⟩) [] openPage_built (by decide)).1 ⟨visitedPage, by decide +kernel⟩
  have hbelow := (configuration_is_sealed site (replacement "/page/sub" []) 0 (fun _ => ⟨[], []⟩) [] openPage_built
    (by decide)).2 fun h => absurd (isSealed_iff.mpr h) (by decide +kernel)
  have halike := hbelow.2 0 (fun _ => ⟨[], []⟩) [] closedPage hclosed closedPage_alike (by decide +kernel)
    (by decide +kernel)
  exact ⟨hrule.1, hrule.2, halike.1⟩

/-- A child of the page whose name has no room for the ending of a file. -/
def longPage : EntryPath := ⟨.child (List.replicate 252 'l') :: visitedPage.hops⟩

/-- A request with too long a content is refused as that before its entry is looked at, and creating a sibling
turns the missing rule of an entry with a long name into a failure. -/
theorem configuration_can_look_different :
    (∃ p, (configOf p).Covers
      (addressed (replacement "/page?meta=auth/realm" [("content-length".toList, Ascii.bytes "1001")])).entry) ∧
    (site.serve (replacement "/page?meta=auth/realm" [("content-length".toList, Ascii.bytes "1001")]) 0
      (fun _ => ⟨[], []⟩) [] openPage).1.status = .payloadTooLarge ∧
    isSealed (addressed (replacement "/page/sub" [])).entry = false ∧
    longPage.Canonical ∧ ¬ (headersOf (addressed (replacement "/page/sub" [])).entry).Covers longPage ∧
    permission openPage.files longPage anonymous "GET".toList = .ok .unset ∧
    permission (site.serve (replacement "/page/sub" []) 0 (fun _ => ⟨[], []⟩) [] openPage).2.2.files longPage
      anonymous "GET".toList ≠ .ok .unset :=
  ⟨⟨visitedPage, by decide +kernel⟩, by decide +kernel, by decide +kernel, by decide +kernel, by decide +kernel,
    by decide +kernel, by decide +kernel⟩

end EntryServer.Http.Server
