import EntryServer.Text.Ascii

/-! # Base64

The standard alphabet with padding. Keys are shown in it, and certificate files carry their binary
sections in it. -/
namespace EntryServer.Base64
set_option autoImplicit false

def letter (n : Nat) : Char :=
  if n < 26 then Char.ofNat (65 + n)
  else if n < 52 then Char.ofNat (71 + n)
  else if n < 62 then Char.ofNat (n - 4)
  else if n = 62 then '+'
  else '/'

def encode : Bytes → Text
  | [] => []
  | [a] =>
    let n := a.toNat * 16
    [letter (n / 64), letter (n % 64), '=', '=']
  | [a, b] =>
    let n := (a.toNat * 256 + b.toNat) * 4
    [letter (n / 4096), letter (n / 64 % 64), letter (n % 64), '=']
  | a :: b :: c :: r =>
    let n := a.toNat * 65536 + b.toNat * 256 + c.toNat
    letter (n / 262144) :: letter (n / 4096 % 64) :: letter (n / 64 % 64) :: letter (n % 64) :: encode r

def value? (b : UInt8) : Option Nat :=
  if Ascii.isUpper b then some (b.toNat - 65)
  else if Ascii.isLower b then some (b.toNat - 71)
  else if Ascii.isDigit b then some (b.toNat + 4)
  else if b = 43 then some 62
  else if b = 47 then some 63
  else none

inductive Fault
  | invalidByte (b : UInt8)
  /-- Padding that bytes of the alphabet come after. -/
  | earlyPadding
  /-- The last group is not complete. -/
  | badPadding
  deriving DecidableEq, Repr

def Fault.message : Fault → String
  | invalidByte b => "InvalidCharacter(" ++ toString b.toNat ++ ")"
  | earlyPadding => "PrematurePadding"
  | badPadding => "InvalidTrailingPadding"

def group (x y z w : Nat) : Bytes :=
  [(x * 4 + y / 16).toUInt8, (y % 16 * 16 + z / 4).toUInt8, (z % 4 * 64 + w).toUInt8]

/-- The last group: two or three values and their padding, or four values. -/
def decodeLast : List (Option Nat) → Except Fault Bytes
  | [] => .ok []
  | [some x, some y, none, none] => .ok ((group x y 0 0).take 1)
  | [some x, some y, some z, none] => .ok ((group x y z 0).take 2)
  | [some x, some y, some z, some w] => .ok (group x y z w)
  | _ => .error .badPadding

/-- Decodes values in groups of four. Padding has no value. -/
def decodeGroups : List (Option Nat) → Except Fault Bytes
  | a :: b :: c :: d :: e :: rest =>
    match a, b, c, d with
    | some x, some y, some z, some w => (decodeGroups (e :: rest)).map (group x y z w ++ ·)
    | _, _, _, _ => .error .earlyPadding
  | last => decodeLast last

def isPadding (b : UInt8) : Bool := b = 61

def decode (bs : Bytes) : Except Fault Bytes :=
  match bs.find? fun b => (value? b).isNone && !isPadding b with
  | some b => .error (.invalidByte b)
  | none => decodeGroups (bs.map value?)

end EntryServer.Base64
