import EntryServer.Acl.Basic

/-! # Listed domains -/
namespace EntryServer.Acl
set_option autoImplicit false

variable {t : FileTree} {open_ : Text}

theorem mem_addDomain {names : List Text} {name x : Text} :
    x ∈ addDomain open_ names name ↔ x ∈ names ∨ x = name ∧ x ≠ open_ ∧ x ≠ inherit := by
  rw [addDomain]
  split
  · next hold =>
    refine (or_iff_left_of_imp ?_).symm
    rintro ⟨rfl, hopen, hinherit⟩
    rcases hold with h | h | h
    · exact absurd h hopen
    · exact absurd h hinherit
    · exact List.contains_iff_mem.mp h
  · next hnew =>
    simp only [not_or] at hnew
    rw [List.mem_append, List.mem_singleton]
    refine or_congr_right ⟨?_, And.left⟩
    rintro rfl
    exact ⟨rfl, hnew.1, hnew.2.1⟩

theorem mem_addDomains {names found : List Text} {x : Text} :
    x ∈ found.foldl (addDomain open_) names ↔ x ∈ names ∨ x ∈ found ∧ x ≠ open_ ∧ x ≠ inherit := by
  induction found generalizing names with
  | nil => simp
  | cons name found ih =>
    rw [List.foldl_cons, ih, mem_addDomain, List.mem_cons, or_and_right, or_assoc]

theorem domainsAlong_ne (names : List Text) (errors : List StoreError) (way : List EntryPath)
    (hnames : ∀ x ∈ names, x ≠ open_ ∧ x ≠ inherit) :
    ∀ x ∈ (domainsAlong t open_ names errors way).1, x ≠ open_ ∧ x ≠ inherit := by
  induction way generalizing names errors with
  | nil => exact hnames
  | cons p above ih =>
    rw [domainsAlong]
    split
    · exact ih _ _ hnames
    · next found _ =>
      have hmore : ∀ x ∈ (found.map (·.name)).foldl (addDomain open_) names, x ≠ open_ ∧ x ≠ inherit := by
        intro x hx
        rcases mem_addDomains.mp hx with hold | hnew
        · exact hnames x hold
        · exact hnew.2
      simp only
      split
      · exact hmore
      · exact ih _ _ hmore

/-- Neither the domain that is open to everybody nor the marker is ever listed. -/
theorem domains_ne {p : EntryPath} {x : Text} (h : x ∈ (domains t open_ p).1) : x ≠ open_ ∧ x ≠ inherit :=
  domainsAlong_ne [] [] p.ancestors (fun _ hx => nomatch hx) x h

end EntryServer.Acl
