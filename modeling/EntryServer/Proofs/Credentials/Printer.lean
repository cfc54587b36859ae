import EntryServer.Proofs.Credentials.Written

/-! # Printing credentials

Credentials are printed with every value in quotes, and escaped there. Challenges are printed in the same way,
and one reader takes both apart: what it reads is what was printed, whatever the values are. -/
namespace EntryServer.Credentials
set_option autoImplicit false

def paramText (kv : Text × Text) : Text := kv.1 ++ "=\"".toList ++ Auth.escape kv.2 ++ ['"']

def text (c : Credentials) : Text := c.scheme ++ [' '] ++ List.intercalate ", ".toList (c.params.map paramText)

/-- Credentials that can be printed: with parameters, under different keys in lowercase. -/
structure WellFormed (c : Credentials) : Prop where
  scheme : IsToken c.scheme
  params : c.params ≠ []
  keys : ∀ key ∈ c.params.map Prod.fst, IsToken key ∧ Ascii.lower key = key
  distinct : (c.params.map Prod.fst).Nodup

/-! ## Printing is a way of writing -/

theorem WellFormed.presentable {c : Credentials} (hc : WellFormed c) : Presentable c :=
  ⟨hc.scheme, fun _ hkv => hc.keys _ (List.mem_map_of_mem hkv), hc.distinct⟩

theorem written_paramText (kv : Text × Text) : WrittenParam kv (paramText kv) := by
  have htext : paramText kv = kv.1 ++ '=' :: ('"' :: Auth.escape kv.2 ++ ['"']) := by simp [paramText]
  rw [htext]
  exact .intro (.quoted kv.2)

theorem written_params (kv : Text × Text) (params : List (Text × Text)) :
    WrittenParams (kv :: params) (List.intercalate ", ".toList ((kv :: params).map paramText)) := by
  induction params generalizing kv with
  | nil =>
    rw [List.map_singleton, List.intercalate_singleton]
    exact .one (written_paramText kv)
  | cons next params ih =>
    rw [List.map_cons, List.map_cons, List.intercalate_cons_cons]
    exact .more (written_paramText kv) (by decide) (by decide) (ih next)

theorem written_text {scheme : Text} {params : List (Text × Text)} (h : params ≠ []) :
    WrittenGroup ⟨scheme, params⟩ (text ⟨scheme, params⟩) := by
  obtain ⟨kv, params, rfl⟩ := List.exists_cons_of_ne_nil h
  exact .params (by decide) (by decide) (written_params kv params)

/-- What is read from a printed group is the group. -/
theorem parse_text {c : Credentials} (hc : WellFormed c) : parse (Utf8.encode c.text) = .ok [c] := by
  have hgroups : WrittenGroups [c] (c.text ++ []) := .last (written_text hc.params) (by decide)
  refine parse_written ⟨[], _, by decide, hgroups, by simp⟩ fun x hx => ?_
  rw [List.mem_singleton.mp hx]
  exact hc.presentable

/-! ## Every way of writing is read back -/

theorem exists_writtenGroup : ∀ c, ∃ shown, WrittenGroup c shown
  | ⟨scheme, []⟩ => ⟨_, .bare scheme⟩
  | ⟨_, kv :: params⟩ => ⟨_, written_text (List.cons_ne_nil kv params)⟩

theorem exists_writtenGroups (c : Credentials) (cs : List Credentials) : ∃ shown, WrittenGroups (c :: cs) shown := by
  induction cs generalizing c with
  | nil =>
    obtain ⟨_, hgroup⟩ := exists_writtenGroup c
    exact ⟨_, .last hgroup (by decide : IsGap [])⟩
  | cons next cs ih =>
    obtain ⟨_, hgroup⟩ := exists_writtenGroup c
    obtain ⟨_, hrest⟩ := ih next
    exact ⟨_, .more hgroup (by decide : IsGap [',']) (by decide) hrest⟩

theorem exists_written {cs : List Credentials} (hne : cs ≠ []) : ∃ t, Written cs t := by
  obtain ⟨c, cs, rfl⟩ := List.exists_cons_of_ne_nil hne
  obtain ⟨_, hgroups⟩ := exists_writtenGroups c cs
  exact ⟨_, [], _, by decide, hgroups, rfl⟩

/-- Credentials with no parameters, with a single value or with a map of any values can be written, and what is read
from any text that shows a list of them is the list. -/
theorem every_writing_is_read_back {cs : List Credentials} (hne : cs ≠ []) (hcs : ∀ c ∈ cs, Presentable c) :
    (∃ t, Written cs t) ∧ ∀ t, Written cs t → parse (Utf8.encode t) = .ok cs :=
  ⟨exists_written hne, fun _ h => parse_written h hcs⟩

/-- Three groups, with empty elements before and between them. The key of the last one follows a padded value. -/
theorem every_writing_is_read_back_mixed :
    parse (Utf8.encode ", Negotiate ,Basic \taB+/== \t,, ,Digest realm=\"\\\"Ä\\\\\",\tqop=auth ".toList) = .ok
      [⟨"Negotiate".toList, []⟩, ⟨"Basic".toList, [(wholeKey, "aB+/==".toList)]⟩,
        ⟨"Digest".toList, [("realm".toList, "\"Ä\\".toList), ("qop".toList, "auth".toList)]⟩] := by
  have hnegotiate : WrittenGroup ⟨"Negotiate".toList, []⟩ "Negotiate".toList := .bare _
  have hvalue : IsWhole "aB+/==".toList := ⟨"aB+/".toList, 2, by decide, List.all_eq_true.mp (by decide), by decide⟩
  have hbasic : WrittenGroup ⟨"Basic".toList, _⟩ _ := .whole (by decide : IsBlank " \t".toList) (by decide) hvalue
  have hrealm : WrittenParam ("realm".toList, "\"Ä\\".toList) _ := .intro (.quoted _)
  have hqop : WrittenParam ("qop".toList, "auth".toList) _ := .intro (.bare (by decide))
  have hdigest : WrittenGroup ⟨"Digest".toList, _⟩ _ := .params (by decide : IsBlank " ".toList) (by decide)
    (.more hrealm (by decide : IsGap ",\t".toList) (by decide) (.one hqop))
  have hgroups := WrittenGroups.more hnegotiate (by decide : IsGap " ,".toList) (by decide)
    (.more hbasic (by decide : IsGap " \t,, ,".toList) (by decide)
      (.last hdigest (by decide : IsGap " ".toList)))
  refine (every_writing_is_read_back (List.cons_ne_nil _ _) fun c hc => ?_).2 _
    ⟨", ".toList, _, by decide, hgroups, by decide⟩
  simp only [List.mem_cons, List.not_mem_nil, or_false] at hc
  rcases hc with rfl | rfl | rfl
  · exact ⟨by decide, by decide, by decide⟩
  · exact ⟨by decide, by decide, by decide⟩
  · exact ⟨by decide, by decide, by decide⟩

/-! ## Visible text -/

/-- A text that a header value may hold as it stands. -/
def Visible (t : Text) : Prop := (Utf8.encode t).all Ascii.isVisible = true

instance (t : Text) : Decidable (Visible t) := inferInstanceAs (Decidable (_ = _))

theorem visible_append {s t : Text} : Visible (s ++ t) ↔ Visible s ∧ Visible t := by
  rw [Visible, Utf8.encode_append, List.all_append, Bool.and_eq_true]
  rfl

theorem isVisible_of_token {b : UInt8} (h : Ascii.isTokenByte b = true) : Ascii.isVisible b = true := by
  have hall : ∀ n < 256, Ascii.isTokenByte n.toUInt8 = true → Ascii.isVisible n.toUInt8 = true := by decide +kernel
  exact forall_byte (P := fun b => Ascii.isTokenByte b = true → Ascii.isVisible b = true) hall b h

theorem IsToken.visible {t : Text} (ht : IsToken t) : Visible t :=
  List.all_eq_true.mpr fun b hb => isVisible_of_token (ht.all b hb)

theorem visible_escape {t : Text} (h : Visible t) : Visible (Auth.escape t) := by
  induction t with
  | nil => exact h
  | cons c t ih =>
    have hcons : Auth.escape (c :: t) = (if c = '\\' ∨ c = '"' then ['\\', c] else [c]) ++ Auth.escape t :=
      List.flatMap_cons
    obtain ⟨hc, ht⟩ := visible_append (s := [c]).mp h
    rw [hcons, visible_append]
    refine ⟨?_, ih ht⟩
    split
    · exact visible_append (s := ['\\']).mpr ⟨by decide, hc⟩
    · exact hc

theorem visible_paramText {kv : Text × Text} (hk : IsToken kv.1) (hv : Visible kv.2) : Visible (paramText kv) := by
  simp only [paramText, visible_append]
  exact ⟨⟨⟨hk.visible, by decide⟩, visible_escape hv⟩, by decide⟩

theorem visible_intercalate {ts : List Text} (h : ∀ t ∈ ts, Visible t) : Visible (List.intercalate ", ".toList ts) := by
  induction ts with
  | nil => rfl
  | cons t ts ih =>
    have ht := h t (List.mem_cons_self ..)
    have hts := ih fun x hx => h x (List.mem_cons_of_mem _ hx)
    cases ts with
    | nil => rwa [List.intercalate_singleton]
    | cons next ts =>
      rw [List.intercalate_cons_cons, visible_append, visible_append]
      exact ⟨⟨ht, by decide⟩, hts⟩

/-- Credentials with visible values are printed visibly. -/
theorem visible_text {c : Credentials} (hc : WellFormed c) (h : ∀ kv ∈ c.params, Visible kv.2) : Visible c.text := by
  rw [text, visible_append, visible_append]
  refine ⟨⟨hc.scheme.visible, by decide⟩, visible_intercalate fun t ht => ?_⟩
  obtain ⟨kv, hkv, rfl⟩ := List.mem_map.mp ht
  exact visible_paramText (hc.keys _ (List.mem_map_of_mem hkv)).1 (h kv hkv)

end EntryServer.Credentials
