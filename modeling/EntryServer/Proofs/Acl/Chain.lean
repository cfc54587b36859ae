import EntryServer.Proofs.Acl.Sealed
import EntryServer.Proofs.Files.Tree

/-! # The chain of a climb

A domain has one chain of ancestors, whatever is asked: it ends with the first ancestor whose scope is there
without a marker. The climbs for a rule, for a secret and for the realm test for their end at different moments,
and yet each of them comes to the members of this chain and to no other ancestor. So the same scopes decide who
is challenged, who is known and who is let in. -/
namespace EntryServer.Acl
set_option autoImplicit false
open EntryPath FileTree

/-! ## Files of a configuration -/

/-- The entry with exactly these names below the configuration of `a`. -/
def configured (a : EntryPath) (names : List Text) : EntryPath :=
  ⟨(names.map Step.child).reverse ++ authHops a.hops⟩

def rulesFile (word : Text) : Text := word ++ ".perm".toList

def usersFolder (scheme : Text) : Text := scheme ++ ".users".toList

theorem configured_hops_append (a : EntryPath) (names : List Text) (n : Text) :
    (configured a (names ++ [n])).hops = .child n :: (configured a names).hops := by
  simp [configured]

theorem configured_file (a : EntryPath) (names : List Text) : (configured a names).file = configured a names := by
  rcases List.eq_nil_or_concat names with rfl | ⟨names, n, rfl⟩
  · rfl
  · exact file_of_head_ne_dir (by simp)

theorem configured_child (a : EntryPath) (names : List Text) {n : Text} (hn : IsSegment n) :
    (configured a names).child n = configured a (names ++ [n]) := by
  refine EntryPath.ext ?_
  rw [configured_hops_append, child_of_segment _ hn, literalChild, configured_file]

theorem configured_nil (a : EntryPath) : configured a [] = configOf a := EntryPath.ext (configOf_hops a).symm

section Names
variable {d : Text}

theorem scopeOf_eq (a : EntryPath) (hd : IsSegment d) : scopeOf a d = configured a [d] := by
  rw [scopeOf, ← configured_nil, configured_child a [] hd, List.nil_append]

theorem child_scope (a : EntryPath) (hd : IsSegment d) {n : Text} (hn : IsSegment n) :
    (scopeOf a d).child n = configured a [d, n] := by
  rw [scopeOf_eq a hd, configured_child a [d] hn]
  rfl

theorem isSegment_append {word tail : Text} (hword : '/' ∉ word) (htail : '/' ∉ tail) (hlong : 2 < tail.length) :
    IsSegment (word ++ tail) := by
  have hlength : 2 < (word ++ tail).length := by rw [List.length_append]; omega
  refine ⟨?_, ?_, ?_, by simp [hword, htail]⟩
  · rintro heq
    rw [heq] at hlength
    simp at hlength
  · rintro heq
    rw [heq] at hlength
    simp at hlength
  · rintro heq
    rw [heq] at hlength
    simp at hlength

theorem isSegment_rulesFile {method : Text} (h : '/' ∉ method) : IsSegment (rulesFile method) :=
  isSegment_append h (by decide) (by decide)

theorem isSegment_usersFolder {scheme : Text} (h : '/' ∉ scheme) : IsSegment (usersFolder scheme) :=
  isSegment_append h (by decide) (by decide)

theorem isUser_iff {user : Text} : isUser user = true ↔ IsSegment user := by
  simp [isUser, IsSegment, and_assoc]

theorem secretOf_eq (a : EntryPath) (hd : IsSegment d) {scheme user : Text} (hscheme : '/' ∉ scheme)
    (huser : IsSegment user) : secretOf (scopeOf a d) scheme user = configured a [d, usersFolder scheme, user] := by
  rw [secretOf, ← usersFolder, child_scope a hd (isSegment_usersFolder hscheme), configured_child a _ huser]
  rfl

end Names

/-! ## What is stored there -/

/-- The content of an entry, if one can be read. -/
def stored (t : FileTree) (p : EntryPath) : Option Bytes := (Store.read t p).toOption

/-- An entry that can be read or is absent: no other failure comes of reading it. -/
def Readable (t : FileTree) (p : EntryPath) : Prop := ∀ e, Store.read t p = .error e → e.isNotFound = true

/-- The line ending at the end of a content. -/
def lineEnding (content : Bytes) : Bytes :=
  if [13, 10] <:+ content then [13, 10] else if [10] <:+ content then [10] else []

theorem withoutLineEnding_append (content : Bytes) : withoutLineEnding content ++ lineEnding content = content := by
  obtain ⟨back, rfl⟩ : ∃ back, content = back.reverse := ⟨content.reverse, by rw [List.reverse_reverse]⟩
  have hboth : [13, 10] <:+ back.reverse ↔ [10, 13] <+: back := @List.reverse_suffix _ [10, 13] back
  have hone : [10] <:+ back.reverse ↔ [10] <+: back := @List.reverse_suffix _ [10] back
  simp only [withoutLineEnding, lineEnding, hboth, hone, List.reverse_reverse]
  split
  · simp
  · next rest hrest =>
    have hfalse : ¬ [13] <+: rest := fun ⟨more, hmore⟩ => hrest more hmore.symm
    simp [hfalse]
  · next hrest hother =>
    have hfalse : ¬ [10] <+: back := fun ⟨more, hmore⟩ => hother more hmore.symm
    have hfalse' : ¬ [10, 13] <+: back := fun h => hfalse ((List.prefix_append [10] [13]).trans h)
    simp [hfalse, hfalse']

/-- A content less one line ending. -/
def unended (content : Bytes) : Bytes := content.take (content.length - (lineEnding content).length)

theorem withoutLineEnding_eq (content : Bytes) : withoutLineEnding content = unended content := by
  have hlength : content.length - (lineEnding content).length = (withoutLineEnding content).length := by
    have h := congrArg List.length (withoutLineEnding_append content)
    rw [List.length_append] at h
    omega
  calc withoutLineEnding content
      = (withoutLineEnding content ++ lineEnding content).take (withoutLineEnding content).length :=
        List.take_left.symm
    _ = unended content := by rw [withoutLineEnding_append, unended, hlength]

section Folders
variable {t : FileTree}

theorem data_configured (a : EntryPath) (names : List Text) (n : Text) :
    (configured a (names ++ [n])).place.data =
      (n ++ ['.'] ++ "data".toList) :: (configured a names).place.children := by
  rw [place, configured_hops_append]
  rfl

theorem children_configured (a : EntryPath) (names : List Text) (n : Text) :
    (configured a (names ++ [n])).place.children =
      (n ++ ['.'] ++ "dir".toList) :: (configured a names).place.children := by
  rw [place, configured_hops_append]
  exact if_neg (by simp [placeOf])

/-- A file is in a folder that is there. -/
theorem hasFolder_of_stored {a : EntryPath} (names : List Text) {n : Text} {content : Bytes}
    (h : stored t (configured a (names ++ [n])) = some content) : Store.hasFolder t (configured a names) = true := by
  rw [stored, Store.read, data_configured, FileTree.read] at h
  split at h
  · next hread =>
    split at hread <;> try contradiction
    next hslot => exact isFolder_above hslot
  · cases h

theorem hasFolder_above {a : EntryPath} (names : List Text) {n : Text}
    (h : Store.hasFolder t (configured a (names ++ [n])) = true) : Store.hasFolder t (configured a names) = true := by
  rw [Store.hasFolder, children_configured, isFolder] at h
  split at h
  · next hslot => exact isFolder_above (folderSlot_eq_ok_iff.mp hslot).1
  · cases h

end Folders

/-! ## The chain -/

/-- A list as far as the first element that ends it, this one included. -/
def upTo {α : Type} (ends : α → Bool) : List α → List α
  | [] => []
  | x :: rest => x :: if ends x then [] else upTo ends rest

def hasScope (t : FileTree) (d : Text) (a : EntryPath) : Bool := Store.hasFolder t (configured a [d])

def hasMarker (t : FileTree) (d : Text) (a : EntryPath) : Bool := Store.hasData t (configured a [d, inherit])

/-- Does a climb end with this ancestor? -/
def isLast (t : FileTree) (d : Text) (a : EntryPath) : Bool := hasScope t d a && !hasMarker t d a

/-- The ancestors of an entry as far as the first one whose scope is there without a marker. -/
def chain (t : FileTree) (d : Text) (p : EntryPath) : List EntryPath := upTo (isLast t d) p.ancestors

/-- The rule that an ancestor has for a method, the rule for this method before the one for all of them. -/
def ruleAt (t : FileTree) (d method : Text) (a : EntryPath) : Option Permission :=
  ((stored t (configured a [d, rulesFile method])).or (stored t (configured a [d, rulesFile "default".toList]))).map
    fun content => if Blank.trim (Utf8.decodeLossy content) = "allow".toList then .allow else .deny

def secretAt (t : FileTree) (d scheme user : Text) (a : EntryPath) : Option Bytes :=
  (stored t (configured a [d, usersFolder scheme, user])).map unended

/-- The realm that an ancestor names, if it is not empty. -/
def realmAt (t : FileTree) (d : Text) (a : EntryPath) : Option Text :=
  (((stored t (configured a [d, realmKey])).map unended).filter (· ≠ [])).map Utf8.decodeLossy

theorem upTo_more {α : Type} {ends : α → Bool} {x : α} (rest : List α) (h : ends x = false) :
    upTo ends (x :: rest) = x :: upTo ends rest := by
  rw [upTo, h, if_neg (by decide)]

theorem forall_upTo_cons {α : Type} {ends : α → Bool} {x : α} {rest : List α} {P : α → Prop}
    (h : ∀ y ∈ upTo ends (x :: rest), P y) : P x ∧ (ends x = false → ∀ y ∈ upTo ends rest, P y) := by
  refine ⟨h x (List.mem_cons_self ..), fun hmore y hy => h y ?_⟩
  rw [upTo_more rest hmore]
  exact List.mem_cons_of_mem _ hy

section Climbs
variable {t : FileTree} {d : Text}

theorem isLast_of_no_scope {a : EntryPath} (h : hasScope t d a = false) : isLast t d a = false := by
  rw [isLast, h, Bool.false_and]

theorem isLast_of_scope {a : EntryPath} (h : hasScope t d a = true) : isLast t d a = !hasMarker t d a := by
  rw [isLast, h, Bool.true_and]

theorem endsAt_scope (a : EntryPath) (hd : IsSegment d) : endsAt t (scopeOf a d) = isLast t d a := by
  rw [endsAt, child_scope a hd (by decide), scopeOf_eq a hd]
  rfl

/-! ## Rules -/

theorem Readable.cases {p : EntryPath} (h : Readable t p) :
    (∃ content, Store.read t p = .ok content ∧ stored t p = some content) ∨
      ∃ path, Store.read t p = .error (.notFound path) ∧ stored t p = none := by
  rw [stored]
  cases hread : Store.read t p with
  | ok content => exact Or.inl ⟨content, rfl, rfl⟩
  | error e =>
    cases e with
    | notFound path => exact Or.inr ⟨path, rfl, rfl⟩
    | failed path error => cases h _ hread

theorem firstRule_eq (a : EntryPath) (hd : IsSegment d) {method : Text} (hmethod : '/' ∉ method)
    (h : ∀ word ∈ [method, "default".toList], Readable t (configured a [d, rulesFile word])) :
    firstRule t (scopeOf a d) (rules method) =
      .ok ((stored t (configured a [d, rulesFile method])).or
        (stored t (configured a [d, rulesFile "default".toList]))) := by
  have hrules : rules method = [rulesFile method, rulesFile "default".toList] := rfl
  rw [hrules, firstRule, firstRule, firstRule, child_scope a hd (isSegment_rulesFile hmethod),
    child_scope a hd (isSegment_rulesFile (by decide))]
  rcases (h method (by simp)).cases with ⟨content, hread, hstored⟩ | ⟨path, hread, hstored⟩
  · rw [hread, hstored]
    rfl
  · rw [hread, hstored]
    rcases (h "default".toList (by simp)).cases with ⟨content, hread, hstored⟩ | ⟨path, hread, hstored⟩
    · rw [hread, hstored]
      rfl
    · rw [hread, hstored]
      rfl

theorem permissionAlong_eq (hd : IsSegment d) {method : Text} (hmethod : '/' ∉ method) {way : List EntryPath}
    (h : ∀ a ∈ upTo (isLast t d) way, ∀ word ∈ [method, "default".toList],
      Readable t (configured a [d, rulesFile word])) :
    permissionAlong t d method way = .ok (((upTo (isLast t d) way).findSome? (ruleAt t d method)).getD .unset) := by
  induction way with
  | nil => rfl
  | cons a above ih =>
    obtain ⟨ha, habove⟩ := forall_upTo_cons h
    rw [permissionAlong, firstRule_eq a hd hmethod ha, endsAt_scope a hd, upTo, List.findSome?_cons, ruleAt]
    cases (stored t (configured a [d, rulesFile method])).or
      (stored t (configured a [d, rulesFile "default".toList])) with
    | some content => rfl
    | none =>
      cases hends : isLast t d a with
      | true => rfl
      | false => exact ih (habove hends)

/-! ## Secrets -/

theorem secretAt_of_no_scope {a : EntryPath} (scheme user : Text) (h : hasScope t d a = false) :
    secretAt t d scheme user a = none := by
  cases hstored : stored t (configured a [d, usersFolder scheme, user]) with
  | none => rw [secretAt, hstored]; rfl
  | some content =>
    have husers := hasFolder_of_stored [d, usersFolder scheme] hstored
    rw [hasScope, hasFolder_above [d] husers] at h
    cases h

theorem secretAlong_eq (hd : IsSegment d) {scheme user : Text} (hscheme : '/' ∉ scheme) (huser : IsSegment user)
    {way : List EntryPath}
    (h : ∀ a ∈ upTo (isLast t d) way, Readable t (configured a [d, usersFolder scheme, user])) :
    secretAlong t d scheme user way = .ok ((upTo (isLast t d) way).findSome? (secretAt t d scheme user)) := by
  induction way with
  | nil => rfl
  | cons a above ih =>
    obtain ⟨ha, habove⟩ := forall_upTo_cons h
    rw [secretAlong, secretOf_eq a hd hscheme huser, child_scope a hd (by decide), scopeOf_eq a hd, ← hasScope,
      ← hasMarker, upTo, List.findSome?_cons]
    cases hscope : hasScope t d a with
    | false =>
      have hmore := isLast_of_no_scope hscope
      rw [secretAt_of_no_scope scheme user hscope, hmore]
      exact ih (habove hmore)
    | true =>
      have hends := isLast_of_scope hscope
      rw [secretAt, hends]
      rcases ha.cases with ⟨content, hread, hstored⟩ | ⟨path, hread, hstored⟩
      · simp only [hread, hstored, withoutLineEnding_eq]
        rfl
      · simp only [hread, hstored]
        cases hmarker : hasMarker t d a with
        | true => exact ih (habove (by rw [hends, hmarker]; rfl))
        | false => rfl

/-! ## Realms -/

theorem realmIn_eq (a : EntryPath) (hd : IsSegment d) : realmIn t (scopeOf a d) = realmAt t d a := by
  rw [realmIn, child_scope a hd (by decide), realmAt, stored]
  cases Store.read t (configured a [d, realmKey]) with
  | error e => rfl
  | ok content =>
    simp only [Except.toOption, Option.map_some, withoutLineEnding_eq]
    cases unended content with
    | nil => rfl
    | cons b realm => rfl

theorem realmAt_of_no_scope {a : EntryPath} (h : hasScope t d a = false) : realmAt t d a = none := by
  cases hstored : stored t (configured a [d, realmKey]) with
  | none => rw [realmAt, hstored]; rfl
  | some content =>
    rw [hasScope, hasFolder_of_stored [d] hstored] at h
    cases h

/-- The climb keeps the first realm and the last scope. -/
theorem domainAlong_eq (hd : IsSegment d) (realm : Option Text) (scope : Option EntryPath) (way : List EntryPath) :
    domainAlong t d realm scope way =
      (realm.or ((upTo (isLast t d) way).findSome? (realmAt t d)),
        (((upTo (isLast t d) way).filter (hasScope t d)).getLast?).or scope) := by
  induction way generalizing realm scope with
  | nil => simp [domainAlong, upTo]
  | cons a above ih =>
    rw [domainAlong, realmIn_eq a hd, child_scope a hd (by decide), scopeOf_eq a hd, ← hasScope, ← hasMarker, upTo,
      ← List.singleton_append, List.findSome?_append, List.filter_append, List.getLast?_append,
      List.findSome?_singleton]
    cases hscope : hasScope t d a with
    | false =>
      rw [realmAt_of_no_scope hscope, isLast_of_no_scope hscope, List.filter_cons_of_neg (by rw [hscope]; decide)]
      simp only [Bool.false_eq_true, if_false, ih, Option.none_or, List.filter_nil, List.getLast?_nil, Option.or_none]
    | true =>
      rw [isLast_of_scope hscope, List.filter_cons_of_pos hscope]
      cases hmarker : hasMarker t d a with
      | true =>
        simp only [if_true, Bool.not_true, Bool.false_eq_true, if_false, ih, List.filter_nil, List.getLast?_singleton,
          Option.or_assoc, Option.some_or]
      | false =>
        simp only [if_true, Bool.not_false, Bool.false_eq_true, if_false, List.findSome?_nil, List.filter_nil,
          List.getLast?_nil, List.getLast?_singleton, Option.or_none, Option.none_or, Option.some_or]

end Climbs

/-! ## One chain for all climbs -/

/-- Whatever is asked about a domain, the first member of its chain that has an answer gives it. A name that could
not be that of a file is nobody, and the secret of any other user is kept in the file of exactly this name. -/
theorem climbs_follow_chain (t : FileTree) (p : EntryPath) {d method scheme : Text} (hd : IsSegment d)
    (hmethod : '/' ∉ method) (hscheme : '/' ∉ scheme) :
    ((∀ a ∈ chain t d p, ∀ word ∈ [method, "default".toList], Readable t (configured a [d, rulesFile word])) →
      permission t p d method = .ok (((chain t d p).findSome? (ruleAt t d method)).getD .unset)) ∧
    (∀ user, IsSegment user → (∀ a ∈ chain t d p, Readable t (configured a [d, usersFolder scheme, user])) →
      secret t p d scheme user = .ok ((chain t d p).findSome? (secretAt t d scheme user))) ∧
    (∀ user, ¬ IsSegment user → secret t p d scheme user = .ok none) ∧
    (∀ a user, (configured a [d, usersFolder scheme, user]).place.data =
      (user ++ ".data".toList) :: (configured a [d, usersFolder scheme]).place.children) ∧
    domain t p d = ⟨d, ((chain t d p).findSome? (realmAt t d)).getD d,
      ((chain t d p).filter (hasScope t d)).getLast?⟩ := by
  refine ⟨fun hrules => permissionAlong_eq hd hmethod hrules, fun user huser hread => ?_, fun user huser => ?_,
    fun a user => ?_, ?_⟩
  · rw [secret, if_pos (isUser_iff.mpr huser)]
    exact secretAlong_eq hd hscheme huser hread
  · rw [secret, if_neg (mt isUser_iff.mp huser)]
  · refine (data_configured a [d, usersFolder scheme] user).trans ?_
    rw [List.append_assoc]
    rfl
  · rw [domain, domainAlong_eq hd, Option.none_or, Option.or_none]
    rfl

/-! ## A mark in a book -/

def shelf : EntryPath := ⟨[.dir, .child "shelf".toList]⟩

def book : EntryPath := ⟨[.child "book".toList, .child "shelf".toList]⟩

def mark : EntryPath := ⟨[.child "mark".toList, .metadata, .child "book".toList, .child "shelf".toList]⟩

def admin : Text := "admin".toList

/-- The book knows a user and hands on to its shelf, where the chain ends. What the root says is not heard. -/
def lending : FileTree :=
  [(book, [admin, inherit], ""), (book, [admin, usersFolder "Digest".toList, "alice".toList], "pass\r\n"),
    (shelf, [admin, realmKey], "Reading room\n"), (shelf, [admin, rulesFile "default".toList], " allow\n"),
    (root, [admin, rulesFile "GET".toList], "deny"), (root, [admin, realmKey], "House")].foldl
    (fun t file => ((Store.write (configured file.1 file.2.1) (Ascii.bytes file.2.2)).run.run t).2)
    (FileTree.empty "data/".toList)

instance (t : FileTree) (p : EntryPath) : Decidable (Readable t p) :=
  match h : Store.read t p with
  | .ok _ => isTrue fun e he => by rw [h] at he; cases he
  | .error e => decidable_of_iff (e.isNotFound = true)
      ⟨fun hnone e' he' => by rw [h] at he'; exact Except.error.inj he' ▸ hnone, fun hread => hread e h⟩

theorem climbs_follow_chain_mark :
    (∀ a ∈ chain lending admin mark, ∀ word ∈ ["GET".toList, "default".toList],
      Readable lending (configured a [admin, rulesFile word])) ∧
    permission lending mark admin "GET".toList = .ok .allow ∧
    secret lending mark admin "Digest".toList "alice".toList = .ok (some (Ascii.bytes "pass")) ∧
    secret lending mark admin "Digest".toList "../alice".toList = .ok none ∧
    domain lending mark admin = ⟨admin, "Reading room".toList, some shelf⟩ := by
  obtain ⟨hpermission, hsecret, hnobody, -, hdomain⟩ := climbs_follow_chain lending mark (by decide : IsSegment admin)
    (by decide : '/' ∉ "GET".toList) (by decide : '/' ∉ "Digest".toList)
  have hreadable : ∀ a ∈ chain lending admin mark, ∀ word ∈ ["GET".toList, "default".toList],
      Readable lending (configured a [admin, rulesFile word]) := by decide +kernel
  have hrules := hpermission hreadable
  have halice := hsecret "alice".toList (by decide) (by decide +kernel)
  refine ⟨hreadable, ?_, ?_, hnobody _ (by decide), ?_⟩
  · rw [hrules]
    exact congrArg Except.ok (by decide +kernel)
  · rw [halice]
    exact congrArg Except.ok (by decide +kernel)
  · rw [hdomain]
    decide +kernel

end EntryServer.Acl
