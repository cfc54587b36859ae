import EntryServer.Proofs.Acl.Climbs
import EntryServer.Proofs.Auth.Openness

/-! # Stores without access configurations

Where nothing is configured above an entry, no domain is listed and no rule is found, so everything is allowed to
everybody, without challenges. -/
namespace EntryServer
set_option autoImplicit false
open EntryPath FileTree

/-! ## Looking for what is missing -/

namespace FileTree
variable {t : FileTree} {c l : Location} {e : FileError}

theorem lookAlong_below_error (h : t.lookAlong c = .error e) (hl : c <:+ l) : t.lookAlong l = .error e := by
  induction l with
  | nil => rwa [List.suffix_nil.mp hl] at h
  | cons name folder ih =>
    rcases List.suffix_cons_iff.mp hl with rfl | hl
    · exact h
    · rw [lookAlong, ih hl]

/-- Below what is missing, all is missing, as long as the path can be looked up at all. -/
theorem look_below_missing (ht : t.Sound) (hclear : t.Clear c) (hnames : NamesFit c) (hnone : t.sight c = none)
    (hl : c <:+ l) (hnul : ∀ name ∈ l, '\x00' ∉ name) (hsize : t.pathSize l < pathLimit) :
    t.look l = .error .notFound := by
  have hany : ¬ l.any (·.contains '\x00') = true := by
    rw [List.any_eq_true]
    rintro ⟨name, hname, hc⟩
    exact hnul name hname (by simpa using hc)
  have hfound := lookAlong_of_names ht hclear hnames
  rw [hnone] at hfound
  rw [look, if_neg hany, if_neg (Nat.not_le.mpr hsize)]
  exact lookAlong_below_error hfound hl

end FileTree

/-! ## Nothing above an entry -/

namespace Acl
open Store

/-- No ancestor of the entry has a configuration. -/
def Unconfigured (t : FileTree) (p : EntryPath) : Prop := ∀ a ∈ p.ancestors, t.sight (configFolder a) = none

/-- The system accepts the paths of the rules of a domain for a method. -/
def RulesFit (t : FileTree) (p : EntryPath) (domain method : Text) : Prop :=
  ∀ a ∈ p.ancestors, ∀ rule ∈ rules method,
    (∀ name ∈ ((scopeOf a domain).child rule).place.data, '\x00' ∉ name) ∧
      t.pathSize ((scopeOf a domain).child rule).place.data < pathLimit

section Unconfigured
variable {t : FileTree} {p : EntryPath}

theorem listedAlong_unconfigured (ht : t.Sound) (open_ : Text) (names : List Text) {way : List EntryPath}
    (h : ∀ a ∈ way, t.sight (configFolder a) = none) : listedAlong t open_ names way = names := by
  induction way generalizing names with
  | nil => rfl
  | cons a way ih =>
    obtain ⟨ha, hway⟩ := List.forall_mem_cons.mp h
    have hfolder : hasFolder t (configOf a) = false := hasFolder_missing fun hdir => by
      rw [← configFolder, ha] at hdir
      cases hdir
    rw [listedAlong, declared_missing ht hfolder, endsAt_missing hfolder]
    exact ih names hway

theorem domains_unconfigured (ht : t.Sound) (open_ : Text) (h : Unconfigured t p) : (domains t open_ p).1 = [] := by
  rw [domains, domainsAlong_names ht]
  exact listedAlong_unconfigured ht open_ [] h

theorem endsAt_scope_unconfigured (ht : t.Sound) {a : EntryPath} (h : t.sight (configFolder a) = none) (domain : Text) :
    endsAt t (scopeOf a domain) = false := by
  have hin : configFolder a <:+ (scopeOf a domain).place.children :=
    children_suffix_children (configOf_leaf a) (Or.inr (within_scopeOf a domain))
  have hnone := ht.node_below hin (sight_eq_none.mp h)
  refine endsAt_missing (hasFolder_missing fun hdir => ?_)
  rw [sight_eq_directory.mp hdir] at hnone
  cases hnone

theorem permission_unconfigured (ht : Store.Sound t) (hp : p.Canonical) (h : Unconfigured t p)
    (hnames : ∀ a ∈ p.ancestors, NamesFit (configFolder a)) {domain method : Text}
    (hrules : RulesFit t p domain method) : permission t p domain method = .ok .unset := by
  have halong : ∀ way : List EntryPath, (∀ a ∈ way, a ∈ p.ancestors) →
      permissionAlong t domain method way = .ok .unset := by
    intro way
    induction way with
    | nil => exact fun _ => rfl
    | cons a way ih =>
      intro hway
      obtain ⟨ha, hrest⟩ := List.forall_mem_cons.mp hway
      have hread : ∀ rule ∈ rules method, ∃ path,
          Store.read t ((scopeOf a domain).child rule) = .error (.notFound path) := by
        intro rule hrule
        obtain ⟨hnul, hsize⟩ := hrules a ha rule hrule
        have hbelow : configFolder a <:+ ((scopeOf a domain).child rule).place.data :=
          (children_suffix_folder (configOf_leaf a) (within_child (within_scopeOf a domain) rule)).trans
            (List.suffix_cons ..)
        have hclear : t.Clear (configFolder a) := ht.clear_children (configOf_canonical (hp.ancestors a ha))
        have hlook := look_below_missing ht.tree hclear (hnames a ha) (h a ha) hbelow hnul hsize
        exact ⟨_, by rw [Store.read, read_eq_look, hlook]; rfl⟩
      have hnone : ∀ rules : List Text, (∀ rule ∈ rules, ∃ path,
          Store.read t ((scopeOf a domain).child rule) = .error (.notFound path)) →
          firstRule t (scopeOf a domain) rules = .ok none := by
        intro rules
        induction rules with
        | nil => exact fun _ => rfl
        | cons rule rules ih =>
          intro hall
          obtain ⟨⟨path, hpath⟩, hmore⟩ := List.forall_mem_cons.mp hall
          rw [firstRule, hpath]
          exact ih hmore
      rw [permissionAlong, hnone _ hread, endsAt_scope_unconfigured ht.tree (h a ha)]
      exact ih hrest
  exact halong _ fun a ha => ha

end Unconfigured

end Acl

namespace Auth

/-- Where no domain is listed, no keys are drawn. -/
theorem authenticateDrawn_of_no_domains (a : Authenticator) {t : FileTree} {r : Request} (now : Nat)
    (keys keys' : Nat → Option Keys) (cache : Cache) (h : (Acl.domains t a.anonymous r.entry).1 = []) :
    authenticateDrawn a t r now keys cache = authenticateDrawn a t r now keys' cache := by
  rw [authenticateDrawn_eq, authenticateDrawn_eq, h, issueDrawn, issueDrawn]

/-- Without a configuration and without nonces, every request is authorized and nothing is challenged. -/
theorem authenticate_unconfigured (a : Authenticator) {t : FileTree} (ht : Store.Sound t) {r : Request} (now : Nat)
    (keys : Nat → Option Keys) (hentry : r.entry.Canonical) (h : Acl.Unconfigured t r.entry)
    (hnames : ∀ a ∈ r.entry.ancestors, NamesFit (Acl.configFolder a))
    (hrules : Acl.RulesFit t r.entry a.anonymous r.method) :
    authenticateDrawn? a t r now keys [] = some (⟨true, []⟩, []) := by
  have hdomains := Acl.domains_unconfigured ht.tree a.anonymous h
  have hpermission := Acl.permission_unconfigured ht hentry h hnames hrules
  rw [authenticateDrawn?_of_fits rfl,
    authenticateDrawn_of_no_domains a now keys (fun _ => some ⟨[], []⟩) [] hdomains]
  have hauthorized : (authenticate a t r now (fun _ => ⟨[], []⟩) []).1.authorized = true := by
    refine (authorized_granted_iff nodup_keys_nil _).mpr (Or.inr ⟨hdomains, fun domain hasked => ?_⟩)
    rcases hasked with rfl | ⟨c, n, hproven, -⟩
    · exact hpermission
    · exact absurd hproven (not_proven_without_nonces c n)
  rw [authenticate, authenticateDrawn_eq, hdomains] at hauthorized
  rw [authenticateDrawn_eq, hdomains]
  simp only at hauthorized
  rw [hauthorized]
  rfl

end Auth

end EntryServer
