import EntryServer.Text.Base64

/-! # The alphabet of Base64 -/
namespace EntryServer.Base64
set_option autoImplicit false

theorem encode_ne_nil {bs : Bytes} (h : bs ≠ []) : encode bs ≠ [] := by
  intro hnil
  unfold encode at hnil
  split at hnil
  · exact h rfl
  · cases hnil
  · cases hnil
  · cases hnil

/-- The letters of the alphabet in their order, and the padding. -/
def signs : Text := (List.range 64).map letter ++ ['=']

theorem letter_mem_signs (n : Nat) : letter n ∈ signs := by
  by_cases h : n < 64
  · exact List.mem_append_left _ (List.mem_map_of_mem (List.mem_range.mpr h))
  · have hslash : letter n = letter 63 := by
      rw [letter, if_neg (by omega), if_neg (by omega), if_neg (by omega), if_neg (by omega)]
      rfl
    rw [hslash]
    exact List.mem_append_left _ (List.mem_map_of_mem (List.mem_range.mpr (by decide)))

/-- Bytes are shown in the signs of Base64. -/
theorem mem_signs_of_mem {bs : Bytes} {c : Char} (h : c ∈ encode bs) : c ∈ signs := by
  have hpadding : '=' ∈ signs := List.mem_append_right _ (List.mem_singleton.mpr rfl)
  fun_induction encode bs with
  | case1 => cases h
  | case2 a n =>
    simp only [List.mem_cons, List.not_mem_nil, or_false] at h
    rcases h with rfl | rfl | rfl | rfl
    · exact letter_mem_signs _
    · exact letter_mem_signs _
    · exact hpadding
    · exact hpadding
  | case3 a b n =>
    simp only [List.mem_cons, List.not_mem_nil, or_false] at h
    rcases h with rfl | rfl | rfl | rfl
    · exact letter_mem_signs _
    · exact letter_mem_signs _
    · exact letter_mem_signs _
    · exact hpadding
  | case4 a b d r n ih =>
    simp only [List.mem_cons] at h
    rcases h with rfl | rfl | rfl | rfl | h
    · exact letter_mem_signs _
    · exact letter_mem_signs _
    · exact letter_mem_signs _
    · exact letter_mem_signs _
    · exact ih h

/-- From plus to the lowercase letters, the backslash left out. -/
def InRange (c : Char) : Prop := 43 ≤ c.toNat ∧ c.toNat ≤ 122 ∧ c.toNat ≠ 92

instance (c : Char) : Decidable (InRange c) := inferInstanceAs (Decidable (_ ∧ _))

theorem letter_inRange (n : Nat) : InRange (letter n) := by
  by_cases h : n < 62
  · revert n
    decide
  · rw [letter, if_neg (by omega), if_neg (by omega), if_neg h]
    split
    · decide
    · decide

theorem inRange_of_sign {c : Char} (h : c ∈ signs) : InRange c := by
  rcases List.mem_append.mp h with hletter | hpadding
  · obtain ⟨n, -, rfl⟩ := List.mem_map.mp hletter
    exact letter_inRange n
  · rw [List.mem_singleton.mp hpadding]
    decide

theorem inRange_of_mem {bs : Bytes} {c : Char} (h : c ∈ encode bs) : InRange c := inRange_of_sign (mem_signs_of_mem h)

end EntryServer.Base64
