import EntryServer.Proofs.Acl.Climbs

/-! # Failures on a climb

The listing of domains skips an ancestor whose configuration cannot be listed, and the climb for a permission
ends with the first rule that cannot be read. What keeps a configuration from being listed keeps its rules from
being read as well. So a climb for a permission fails at an ancestor that the listing skips, unless it has ended
below. -/
namespace EntryServer.Acl
set_option autoImplicit false
open EntryPath FileTree Store

variable {t : FileTree}

/-! ## Skipped ancestors -/

/-- The ancestors that the listing skips, each with the failure. -/
def unlistedAlong (t : FileTree) : List EntryPath → List (EntryPath × StoreError)
  | [] => []
  | p :: above =>
    match Store.children t (configOf p) with
    | .error e => (p, e) :: unlistedAlong t above
    | .ok _ => if endsAt t (configOf p) then [] else unlistedAlong t above

def unlisted (t : FileTree) (p : EntryPath) : List (EntryPath × StoreError) := unlistedAlong t p.ancestors

theorem domainsAlong_failures (open_ : Text) (names : List Text) (errors : List StoreError) (way : List EntryPath) :
    (domainsAlong t open_ names errors way).2 = errors ++ (unlistedAlong t way).map Prod.snd := by
  induction way generalizing names errors with
  | nil => exact (List.append_nil _).symm
  | cons p above ih =>
    rw [domainsAlong, unlistedAlong]
    cases Store.children t (configOf p) with
    | error e =>
      simp only [ih, List.map_cons, List.append_assoc, List.singleton_append]
    | ok found =>
      simp only
      split
      · exact (List.append_nil _).symm
      · exact ih _ _

/-- The failures that come with the listed domains are those of the skipped ancestors. -/
theorem domains_failures (open_ : Text) (p : EntryPath) :
    (domains t open_ p).2 = (unlisted t p).map Prod.snd := domainsAlong_failures open_ [] [] p.ancestors

/-- The failures depend on which configurations cannot be listed, and on where a climb ends. -/
theorem unlistedAlong_congr {t' : FileTree} {way : List EntryPath} (hway : ∀ a ∈ way,
    (∀ e, Store.children t' (configOf a) = .error e ↔ Store.children t (configOf a) = .error e) ∧
      endsAt t' (configOf a) = endsAt t (configOf a)) : unlistedAlong t' way = unlistedAlong t way := by
  induction way with
  | nil => rfl
  | cons a way ih =>
    obtain ⟨hfails, hends⟩ := hway a (List.mem_cons_self ..)
    have hrest := ih fun b hb => hway b (List.mem_cons_of_mem _ hb)
    rw [unlistedAlong, unlistedAlong, hends, hrest]
    cases hlist : Store.children t (configOf a) with
    | error e => rw [(hfails e).mpr hlist]
    | ok found =>
      cases hlist' : Store.children t' (configOf a) with
      | error e => cases hlist.symm.trans ((hfails e).mp hlist')
      | ok found' => rfl

theorem mem_unlistedAlong {p : EntryPath} {e : StoreError} {way : List EntryPath}
    (h : (p, e) ∈ unlistedAlong t way) : p ∈ way ∧ Store.children t (configOf p) = .error e := by
  induction way with
  | nil => cases h
  | cons q above ih =>
    rw [unlistedAlong] at h
    cases hq : Store.children t (configOf q) with
    | error e' =>
      rw [hq] at h
      rcases List.mem_cons.mp h with heq | h
      · obtain ⟨rfl, rfl⟩ := Prod.mk.inj heq
        exact ⟨List.mem_cons_self .., hq⟩
      · exact ⟨List.mem_cons_of_mem _ (ih h).1, (ih h).2⟩
    | ok found =>
      simp only [hq] at h
      split at h
      · cases h
      · exact ⟨List.mem_cons_of_mem _ (ih h).1, (ih h).2⟩

/-! ## Rules of a skipped ancestor -/

/-- Where a configuration cannot be listed, no rule in it can be read. -/
theorem firstRule_unlisted {p : EntryPath} {e : StoreError} (h : Store.children t (configOf p) = .error e)
    (domain method : Text) : ∃ e', firstRule t (scopeOf p domain) (rules method) = .error e' := by
  obtain ⟨path, error, hread⟩ := Store.read_below_unlisted h (children_suffix_folder (configOf_leaf p)
    (within_child (within_scopeOf p domain) (method ++ ".perm".toList)))
  exact ⟨_, by rw [rules, firstRule, hread]⟩

/-! ## Climbs that end below -/

theorem Permission.ofRule_ne_unset (content : Bytes) : Permission.ofRule content ≠ .unset := by
  unfold ofRule
  split
  · simp
  · simp

/-- On a way, the climb for a permission ends below an entry: at a scope without a marker, and without a rule. -/
def EndsBelow (t : FileTree) (domain method : Text) (way : List EntryPath) (p : EntryPath) : Prop :=
  ∃ climbed q above, way = climbed ++ q :: above ∧ p ∈ above ∧ endsAt t (scopeOf q domain) = true ∧
    ∀ b ∈ climbed ++ [q], firstRule t (scopeOf b domain) (rules method) = .ok none

section Climb
variable {domain method : Text} {way : List EntryPath} {p : EntryPath}

theorem EndsBelow.unset (h : EndsBelow t domain method way p) :
    permissionAlong t domain method way = .ok .unset := by
  obtain ⟨climbed, q, above, rfl, -, hends, hnone⟩ := h
  induction climbed with
  | nil =>
    rw [List.nil_append, permissionAlong, hnone q (by simp)]
    simp only [hends, if_true]
  | cons b climbed ih =>
    rw [List.cons_append, permissionAlong, hnone b (by simp)]
    simp only
    split
    · rfl
    · exact ih fun c hc => hnone c (List.mem_cons_of_mem _ hc)

theorem EndsBelow.of_unset {e : StoreError} (hp : p ∈ way) (hlist : Store.children t (configOf p) = .error e)
    (hunset : permissionAlong t domain method way = .ok .unset) : EndsBelow t domain method way p := by
  induction way with
  | nil => cases hp
  | cons b above ih =>
    rw [permissionAlong] at hunset
    cases hrule : firstRule t (scopeOf b domain) (rules method) with
    | error e' =>
      rw [hrule] at hunset
      cases hunset
    | ok found =>
      cases found with
      | some content =>
        simp only [hrule, Except.ok.injEq] at hunset
        exact absurd hunset (Permission.ofRule_ne_unset content)
      | none =>
        have habove : p ∈ above := by
          rcases List.mem_cons.mp hp with rfl | habove
          · obtain ⟨e', he'⟩ := firstRule_unlisted hlist domain method
            rw [he'] at hrule
            cases hrule
          · exact habove
        simp only [hrule] at hunset
        split at hunset
        · next hends =>
          exact ⟨[], b, above, rfl, habove, hends, fun c hc => List.mem_singleton.mp hc ▸ hrule⟩
        · obtain ⟨climbed, q, rest, rfl, hq, hends, hnone⟩ := ih habove hunset
          refine ⟨b :: climbed, q, rest, rfl, hq, hends, fun c hc => ?_⟩
          rcases List.mem_cons.mp hc with rfl | hc
          · exact hrule
          · exact hnone c hc

end Climb

/-- A permission is found to be unset above or below a skipped ancestor only if its climb ends below. -/
theorem permission_unset_iff {y p : EntryPath} {e : StoreError} (hp : (p, e) ∈ unlisted t y) {domain method : Text} :
    permission t y domain method = .ok .unset ↔ EndsBelow t domain method y.ancestors p := by
  obtain ⟨hway, hlist⟩ := mem_unlistedAlong hp
  exact ⟨EndsBelow.of_unset hway hlist, EndsBelow.unset⟩

end EntryServer.Acl
