import EntryServer.Proofs.Auth.Lines
import EntryServer.Proofs.Auth.Verdict

/-! # Who is authorized

A request is authorized by a candidate that proves a secret with a live nonce and is allowed, by the rule for
everybody, or where no rule is found and no domain is listed, and by nothing else. The candidates are those that the
grammar shows in the header values. The call has an answer as long as the clock can represent when the nonces in the
cache expire. -/
namespace EntryServer.Auth
set_option autoImplicit false
open Credentials (Listed)

/-! ## What header values show -/

/-- A header value is visible ASCII, and the text of a list of credentials. -/
structure Shows (value : Bytes) (groups : List Credentials) : Prop where
  visible : value.all Ascii.isVisible = true
  text : ∃ t, value = Utf8.encode t ∧ Listed true groups t

/-- The credentials that header values show, in their order. A value that is not of this form shows none. -/
inductive Presents : List Bytes → List Credentials → Prop
  | nil : Presents [] []
  | shown {value : Bytes} {values : List Bytes} {groups more : List Credentials} (hvalue : Shows value groups)
    (hrest : Presents values more) : Presents (value :: values) (groups ++ more)
  | refused {value : Bytes} {values : List Bytes} {more : List Credentials} (hvalue : ∀ groups, ¬ Shows value groups)
    (hrest : Presents values more) : Presents (value :: values) more

/-- Credentials of the kind that this server verifies. -/
def Verifiable (c : Credentials) : Prop :=
  c.isScheme "Digest".toList = true ∧ c.param? "algorithm".toList = some "MD5".toList ∧
    c.param? "qop".toList = some "auth".toList

instance (c : Credentials) : Decidable (Verifiable c) := inferInstanceAs (Decidable (_ ∧ _))

section Shown
variable {value : Bytes} {values : List Bytes} {groups : List Credentials}

theorem accepted_iff_shows : Accepted value groups ↔ Shows value groups := by
  constructor
  · rintro ⟨hvisible, hparse⟩
    obtain ⟨t, rfl⟩ := exists_text hvisible
    exact ⟨hvisible, t, rfl, Credentials.listed_of_parse hparse⟩
  · rintro ⟨hvisible, t, rfl, hlisted⟩
    exact ⟨hvisible, Credentials.parse_listed hlisted⟩

theorem presents_iff : Presents values groups ↔ groups = values.flatMap groupsOf := by
  rw [← carries_iff]
  constructor
  · intro h
    induction h with
    | nil => exact .nil
    | shown hvalue _ ih => exact .accepted (accepted_iff_shows.mpr hvalue) ih
    | refused hvalue _ ih => exact .refused (fun groups h => hvalue groups (accepted_iff_shows.mp h)) ih
  · intro h
    induction h with
    | nil => exact .nil
    | accepted hline _ ih => exact .shown (accepted_iff_shows.mp hline) ih
    | refused hline _ ih => exact .refused (fun groups h => hline groups (accepted_iff_shows.mpr h)) ih

theorem candidates_eq : candidates values = (values.flatMap groupsOf).filter Verifiable := by
  refine List.filter_congr fun c _ => ?_
  rw [Bool.eq_iff_iff, isCandidate, Bool.and_eq_true, Bool.and_eq_true, beq_iff_eq, beq_iff_eq, and_assoc,
    decide_eq_true_iff]
  rfl

end Shown

/-! ## Answers -/

section Answers
variable {a : Authenticator} {t : FileTree} {r : Request} {now : Nat} {draw : Nat → Keys} {cache : Cache}

theorem isSome_authenticate : (authenticate? a t r now draw cache).isSome = true ↔
    ∀ kn ∈ cache, kn.2.created + kn.2.validity < Cache.clockLimit := by
  rw [authenticate?, Option.isSome_ite, Cache.fitsClock, List.all_eq_true]
  exact forall₂_congr fun kn _ => decide_eq_true_iff

theorem authenticate_of_some {answer : Verdict × Cache} (h : authenticate? a t r now draw cache = some answer) :
    authenticate a t r now draw cache = answer := by
  rw [authenticate?] at h
  split at h
  · exact Option.some.inj h
  · cases h

end Answers

end EntryServer.Auth
