import EntryServer.Auth.Authenticator
import EntryServer.Proofs.Credentials.Accepted
import EntryServer.Proofs.Credentials.Printer

/-! # Header lines

The lines of a request carry credentials, one line after the other, and the candidates are taken from these. Lines
that are accepted can be joined with separators into fewer ones, which carry the same, and a line that is refused
takes nothing with it but what it carries itself. -/
namespace EntryServer.Auth
set_option autoImplicit false
open Credentials (IsGap parse parse_joined)

/-! ## What lines carry -/

/-- A line that is read as text and accepted. -/
def Accepted (line : Bytes) (cs : List Credentials) : Prop := line.all Ascii.isVisible = true ∧ parse line = .ok cs

/-- The credentials that lines carry, in their order. A line that is not accepted carries none. -/
inductive Carries : List Bytes → List Credentials → Prop
  | nil : Carries [] []
  | accepted {line : Bytes} {lines : List Bytes} {cs ds : List Credentials} (hline : Accepted line cs)
    (hrest : Carries lines ds) : Carries (line :: lines) (cs ++ ds)
  | refused {line : Bytes} {lines : List Bytes} {ds : List Credentials} (hline : ∀ cs, ¬ Accepted line cs)
    (hrest : Carries lines ds) : Carries (line :: lines) ds

/-- Fewer lines in the place of lines: neighbours that are accepted may be joined, with any separator that has a comma
and as often as there are any. -/
inductive Joined : List Bytes → List Bytes → Prop
  | nil : Joined [] []
  | keep {lines fewer : List Bytes} (line : Bytes) (hrest : Joined lines fewer) :
    Joined (line :: lines) (line :: fewer)
  | join {lines fewer : List Bytes} {line next : Bytes} {sep : Text} {cs ds : List Credentials}
    (hline : Accepted line cs) (hnext : Accepted next ds) (hsep : IsGap sep) (hcomma : ',' ∈ sep)
    (hrest : Joined lines (next :: fewer)) : Joined (line :: lines) ((line ++ Utf8.encode sep ++ next) :: fewer)

/-! ## Single lines -/

section Lines
variable {line next : Bytes} {sep : Text} {cs ds : List Credentials} {lines fewer : List Bytes}

theorem Accepted.groupsOf (h : Accepted line cs) : Auth.groupsOf line = cs := by rw [Auth.groupsOf, if_pos h.1, h.2]

/-- Printed credentials with visible values are a line. -/
theorem accepted_text {c : Credentials} (hc : c.WellFormed) (h : ∀ kv ∈ c.params, Credentials.Visible kv.2) :
    Accepted (Utf8.encode c.text) [c] :=
  ⟨Credentials.visible_text hc h, Credentials.parse_text hc⟩

theorem groupsOf_refused (h : ∀ cs, ¬ Accepted line cs) : groupsOf line = [] := by
  rw [groupsOf]
  split
  · next hvisible =>
    split
    · next cs hparse => exact absurd ⟨hvisible, hparse⟩ (h cs)
    · rfl
  · rfl

/-- A line that carries credentials is accepted. -/
theorem accepted_of_mem {c : Credentials} (h : c ∈ Auth.groupsOf line) : Accepted line (Auth.groupsOf line) := by
  by_cases haccepted : ∃ cs, Accepted line cs
  · obtain ⟨cs, hcs⟩ := haccepted
    rwa [hcs.groupsOf]
  · rw [groupsOf_refused fun cs hcs => haccepted ⟨cs, hcs⟩] at h
    cases h

/-- Visible bytes are a text. -/
theorem exists_text (h : line.all Ascii.isVisible = true) : ∃ t, line = Utf8.encode t := by
  have hall : ∀ n < 256, Ascii.isVisible n.toUInt8 = true → n.toUInt8.toNat < 0x80 := by decide +kernel
  have hascii : ∀ b, Ascii.isVisible b = true → b.toNat < 0x80 := Credentials.forall_byte hall
  exact Utf8.exists_text_of_ascii fun b hb => hascii b (List.all_eq_true.mp h b hb)

theorem Accepted.join (hline : Accepted line cs) (hnext : Accepted next ds) (hsep : IsGap sep) (hcomma : ',' ∈ sep) :
    Accepted (line ++ Utf8.encode sep ++ next) (cs ++ ds) := by
  have hgap : (Utf8.encode sep).all Ascii.isVisible = true := by
    refine List.all_eq_true.mpr fun b hb => ?_
    obtain rfl | rfl | rfl := Credentials.eq_of_isSeparator (hsep.all b hb)
    · rfl
    · rfl
    · rfl
  refine ⟨by rw [List.all_append, List.all_append, hline.1, hgap, hnext.1]; rfl, ?_⟩
  obtain ⟨x, rfl⟩ := exists_text hline.1
  obtain ⟨y, rfl⟩ := exists_text hnext.1
  rw [← Utf8.encode_append, ← Utf8.encode_append]
  exact parse_joined hline.2 hnext.2 hsep hcomma

/-! ## All lines -/

theorem carries_groupsOf (lines : List Bytes) : Carries lines (lines.flatMap groupsOf) := by
  induction lines with
  | nil => exact .nil
  | cons line lines ih =>
    rw [List.flatMap_cons]
    by_cases haccepted : ∃ cs, Accepted line cs
    · obtain ⟨cs, h⟩ := haccepted
      rw [h.groupsOf]
      exact .accepted h ih
    · have h : ∀ cs, ¬ Accepted line cs := fun cs h => haccepted ⟨cs, h⟩
      rw [groupsOf_refused h]
      exact .refused h ih

theorem carries_iff : Carries lines cs ↔ cs = lines.flatMap groupsOf := by
  constructor
  · intro h
    induction h with
    | nil => rfl
    | accepted hline _ ih => rw [List.flatMap_cons, hline.groupsOf, ih]
    | refused hline _ ih => rw [List.flatMap_cons, groupsOf_refused hline, ih, List.nil_append]
  · rintro rfl
    exact carries_groupsOf lines

/-- Joined lines carry what the lines carry. -/
theorem groupsOf_joined (h : Joined lines fewer) : fewer.flatMap groupsOf = lines.flatMap groupsOf := by
  induction h with
  | nil => rfl
  | keep line _ ih => rw [List.flatMap_cons, List.flatMap_cons, ih]
  | join hline hnext hsep hcomma _ ih =>
    rw [List.flatMap_cons, hnext.groupsOf] at ih
    rw [List.flatMap_cons, List.flatMap_cons, (hline.join hnext hsep hcomma).groupsOf, hline.groupsOf,
      List.append_assoc, ih]

/-- Accepted header values are joined as lists are. The lines of a request carry one list of credentials, where a
refused line lacks its own and no others, and the candidates are those of this list. However accepted lines are
joined, they carry the same. -/
theorem header_lines_concatenate :
    (∀ x y sep cs ds, parse (Utf8.encode x) = .ok cs → parse (Utf8.encode y) = .ok ds → IsGap sep → ',' ∈ sep →
      parse (Utf8.encode (x ++ sep ++ y)) = .ok (cs ++ ds)) ∧
    (∀ lines, ∃ cs, (∀ ds, Carries lines ds ↔ ds = cs) ∧ candidates lines = cs.filter isCandidate) ∧
    ∀ lines fewer cs, Joined lines fewer → Carries lines cs → Carries fewer cs := by
  refine ⟨fun x y sep cs ds => parse_joined, fun lines => ⟨_, fun ds => carries_iff, rfl⟩,
    fun lines fewer cs hjoined h => ?_⟩
  rw [carries_iff] at h ⊢
  rw [h, groupsOf_joined hjoined]

/-- An answer, a line that begins with no scheme, and two lines that may as well be one. -/
theorem header_lines_concatenate_mixed :
    let digest : Credentials := ⟨scheme, [("algorithm".toList, "MD5".toList), ("qop".toList, "auth".toList)]⟩
    let line := Utf8.encode digest.text
    let broken := Utf8.encode "@".toList
    Joined [line, broken, line, line] [line, broken, line ++ Utf8.encode " ,\t".toList ++ line] ∧
      Carries [line, broken, line, line] [digest, digest, digest] ∧
      Carries [line, broken, line ++ Utf8.encode " ,\t".toList ++ line] [digest, digest, digest] := by
  intro digest line broken
  have hdigest : Accepted line [digest] :=
    ⟨by decide +kernel, Credentials.parse_text ⟨by decide, by decide, by decide, by decide⟩⟩
  have hbroken : ∀ cs, ¬ Accepted broken cs := by
    rintro cs ⟨-, h⟩
    have herror : parse broken = .error ⟨.expectedScheme, broken⟩ := by
      rw [parse, Credentials.groups]
      rfl
    rw [herror] at h
    cases h
  have hjoined : Joined [line, broken, line, line] [line, broken, line ++ Utf8.encode " ,\t".toList ++ line] :=
    .keep _ (.keep _ (.join hdigest hdigest (by decide) (by decide) (.keep _ .nil)))
  have hcarries : Carries [line, broken, line, line] [digest, digest, digest] :=
    .accepted hdigest (.refused hbroken (.accepted hdigest (.accepted hdigest .nil)))
  exact ⟨hjoined, hcarries, header_lines_concatenate.2.2 _ _ _ hjoined hcarries⟩

end Lines
end EntryServer.Auth
