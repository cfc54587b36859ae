import EntryServer.Text.Ascii

/-! # Socket addresses

An address is four decimal numbers with dots between them, or groups of hexadecimal digits in brackets
with an optional scope, and then a colon and a port. Names are not addresses. -/
namespace EntryServer.Net
set_option autoImplicit false

/-- Gives what it has read with what is left, or nothing. -/
abbrev AddressReader (α : Type) := Text → Option (α × Text)

namespace SocketAddress

def digit? (base : Nat) (c : Char) : Option Nat :=
  let n :=
    if '0' ≤ c ∧ c ≤ '9' then c.toNat - 48
    else if 'a' ≤ c ∧ c ≤ 'z' then c.toNat - 87
    else if 'A' ≤ c ∧ c ≤ 'Z' then c.toNat - 55
    else base
  if n < base then some n else none

/-- All digits at the front, with their number. -/
def digits (base : Nat) : Text → List Nat × Text
  | [] => ([], [])
  | c :: r =>
    match digit? base c with
    | some d =>
      let (ds, rest) := digits base r
      (d :: ds, rest)
    | none => ([], c :: r)

/-- A number below a bound, of at least one digit. -/
def number (base bound : Nat) (s : Text) : Option (List Nat × Nat × Text) :=
  let (ds, r) := digits base s
  let n := ds.foldl (fun n d => base * n + d) 0
  if ds = [] ∨ bound ≤ n then none else some (ds, n, r)

/-! ## Four numbers -/

/-- A number up to 255 of up to three digits without a leading zero. -/
def octet (s : Text) : Option Text :=
  match number 10 256 s with
  | some (ds, _, r) => if 3 < ds.length ∨ (ds.head? = some 0 ∧ 1 < ds.length) then none else some r
  | none => none

def dotted : Nat → Text → Option Text
  | 0, s => some s
  | n + 1, s =>
    match s with
    | '.' :: r => (octet r).bind (dotted n)
    | _ => none

def four (s : Text) : Option Text := (octet s).bind (dotted 3)

/-! ## Groups -/

/-- A group of up to four hexadecimal digits. -/
def group (s : Text) : Option Text :=
  match number 16 65536 s with
  | some (ds, _, r) => if 4 < ds.length then none else some r
  | none => none

/-- What follows the colon that stands before every group but the first. -/
def separated (first : Bool) (s : Text) : Option Text :=
  if first then some s
  else match s with
    | ':' :: r => some r
    | _ => none

/-- Up to `room` groups, and whether the last two of them are written as four numbers. -/
def groups (first : Bool) : Nat → Text → Nat × Bool × Text
  | 0, s => (0, false, s)
  | room + 1, s =>
    let numbers := if 0 < room then (separated first s).bind four else none
    match numbers with
    | some r => (2, true, r)
    | none =>
      match (separated first s).bind group with
      | some r =>
        let (count, four, rest) := groups false room r
        (count + 1, four, rest)
      | none => (0, false, s)

/-- Eight groups, or fewer with `::` standing for at least one more. -/
def eight (s : Text) : Option Text :=
  let (head, numbers, r) := groups true 8 s
  if head = 8 then some r
  else if numbers then none
  else match r with
    | ':' :: ':' :: r => some (groups true (8 - (head + 1)) r).2.2
    | _ => none

/-- An optional scope, which is a number of 32 bits. -/
def scope (s : Text) : Text :=
  match s with
  | '%' :: r =>
    match number 10 (Nat.pow 2 32) r with
    | some (_, _, r) => r
    | none => s
  | _ => s

def port (s : Text) : Option Text :=
  match s with
  | ':' :: r => (number 10 65536 r).map (·.2.2)
  | _ => none

def bracketed (s : Text) : Option Text :=
  match s with
  | '[' :: r =>
    match (eight r).map scope with
    | some (']' :: r) => some r
    | _ => none
  | _ => none

end SocketAddress

def isSocketAddress (s : Text) : Bool :=
  ((SocketAddress.four s).bind SocketAddress.port == some []) ||
    ((SocketAddress.bracketed s).bind SocketAddress.port == some [])

end EntryServer.Net
