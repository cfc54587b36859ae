/-! # Text, bytes and the ASCII alphabet

Text is a list of characters and content is a list of bytes, so that every function on them is plain
recursion on a list. This module fixes both types and the ASCII classes that the formats are made of:
all of them look at bytes and characters below 128 only, and leave every other one alone. -/
namespace EntryServer
set_option autoImplicit false

/-- The content of a file, of a header value, of a connection. -/
abbrev Bytes := List UInt8

/-- A name, a path, a value: a sequence of Unicode scalar values. -/
abbrev Text := List Char

namespace Ascii

/-! ## Bytes -/

/-- The bytes of a text that is known to be ASCII. -/
def bytes (s : String) : Bytes :=
  s.toList.map fun c => c.toNat.toUInt8

def isDigit (b : UInt8) : Bool := 48 ≤ b && b ≤ 57

def isUpper (b : UInt8) : Bool := 65 ≤ b && b ≤ 90

def isLower (b : UInt8) : Bool := 97 ≤ b && b ≤ 122

def isAlphanumeric (b : UInt8) : Bool := isDigit b || isUpper b || isLower b

/-- The bytes of tokens: of the names of fields and schemes, and of keys and values without quotes. -/
def isTokenByte (b : UInt8) : Bool := isAlphanumeric b || b ∈ bytes "!#$%&'*+-.^_\x60|~"

/-- Space, tab, line feed, carriage return and form feed. -/
def isBlank (b : UInt8) : Bool := b == 32 || b == 9 || b == 10 || b == 13 || b == 12

/-- A content without the ASCII blanks at its two ends. -/
def trim (bs : Bytes) : Bytes :=
  ((bs.dropWhile isBlank).reverse.dropWhile isBlank).reverse

/-- Space to tilde, and tab: the bytes a header value that is read as text may hold. -/
def isVisible (b : UInt8) : Bool := (32 ≤ b && b < 127) || b == 9

/-! ## Characters -/

def lowerChar (c : Char) : Char :=
  if 'A' ≤ c ∧ c ≤ 'Z' then Char.ofNat (c.toNat + 32) else c

def lower (t : Text) : Text := t.map lowerChar

def sameIgnoringCase (s t : Text) : Bool := lower s == lower t

end Ascii

/-! ## Hexadecimal -/

namespace Hex

def digit (n : Nat) : Char :=
  if n < 10 then Char.ofNat (48 + n) else Char.ofNat (87 + n)

def encode (bs : Bytes) : Text :=
  bs.flatMap fun b => [digit (b.toNat / 16), digit (b.toNat % 16)]

def value? (b : UInt8) : Option Nat :=
  if Ascii.isDigit b then some (b.toNat - 48)
  else if 65 ≤ b && b ≤ 70 then some (b.toNat - 55)
  else if 97 ≤ b && b ≤ 102 then some (b.toNat - 87)
  else none

end Hex
end EntryServer
