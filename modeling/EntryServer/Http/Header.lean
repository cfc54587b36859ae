import EntryServer.Text.Utf8

/-! # Header fields

Names are tokens, equal up to case, and kept in lowercase. Values are bytes without control characters
other than tab. -/
namespace EntryServer.Http
set_option autoImplicit false

/-- The fields of a request or an answer in their order. The names are in lowercase. -/
abbrev Headers := List (Text × Bytes)

namespace Headers

def first? (hs : Headers) (name : String) : Option Bytes := hs.lookup name.toList

def all (hs : Headers) (name : String) : List Bytes :=
  (hs.filter fun h => h.1 = name.toList).map (·.2)

def has (hs : Headers) (name : String) : Bool := hs.any fun h => h.1 = name.toList

def addIfMissing (hs : Headers) (name : String) (value : Bytes) : Headers :=
  if hs.has name then hs else hs ++ [(name.toList, value)]

end Headers

namespace Header

def nameLimit : Nat := 65535

/-- The name that a text stands for, if it is a token. -/
def name? (t : Text) : Option Text :=
  let bs := Utf8.encode t
  if bs ≠ [] ∧ bs.length ≤ nameLimit ∧ bs.all Ascii.isTokenByte then some (Ascii.lower t) else none

/-- May the bytes be the value of a field? -/
def isValue (bs : Bytes) : Bool := bs.all fun b => (32 ≤ b && b ≠ 127) || b = 9

/-- A value as it is received: spaces and tabs around it are not part of it. -/
def received (bs : Bytes) : Bytes :=
  let isSpace (b : UInt8) : Bool := b = 32 || b = 9
  ((bs.dropWhile isSpace).reverse.dropWhile isSpace).reverse

def ofNat (n : Nat) : Bytes := Ascii.bytes (toString n)

/-- The number that a value stands for, if it is one of 64 bits. -/
def number? (bs : Bytes) : Option Nat :=
  let ds := if bs.head? = some 43 then bs.tail else bs
  let n := ds.foldl (fun n b => 10 * n + (b.toNat - 48)) 0
  if ds ≠ [] ∧ ds.all Ascii.isDigit ∧ n < Nat.pow 2 64 then some n else none

end Header
end EntryServer.Http
