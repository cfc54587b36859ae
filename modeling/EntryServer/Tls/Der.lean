import EntryServer.Text.Ascii

/-! # Tagged binary values

Certificates and keys are trees of elements, each with a tag, a length and a content. Every element has one
encoding: a length is written in the fewest bytes that hold it. -/
namespace EntryServer.Der
set_option autoImplicit false

structure Element where
  tag : UInt8
  content : Bytes
  deriving DecidableEq, Repr

namespace Tag

def boolean : UInt8 := 0x01
def integer : UInt8 := 0x02
def bitString : UInt8 := 0x03
def octetString : UInt8 := 0x04
def null : UInt8 := 0x05
def identifier : UInt8 := 0x06
def sequence : UInt8 := 0x30

/-- The tag of the field with a number, where the field may be absent. -/
def field (n : UInt8) : UInt8 := 0xA0 + n

end Tag

/-- The number that bytes write in base 256, the highest byte first. -/
def natOfBytes (bs : Bytes) : Nat := bs.foldl (fun n b => n * 256 + b.toNat) 0

def bytesOfNat (size n : Nat) : Bytes :=
  (List.range size).reverse.map fun i => (n / Nat.pow 256 i % 256).toUInt8

/-! ## Reading -/

/-- The length at the front, which has at most two bytes. -/
def length? : Bytes → Option (Nat × Bytes)
  | 0x81 :: a :: rest => if a < 0x80 then none else some (a.toNat, rest)
  | 0x82 :: a :: b :: rest => if a = 0 then none else some (a.toNat * 256 + b.toNat, rest)
  | a :: rest => if a < 0x80 then some (a.toNat, rest) else none
  | [] => none

def element? : Bytes → Option (Element × Bytes)
  | tag :: rest =>
    match length? rest with
    | some (n, rest) => if rest.length < n then none else some (⟨tag, rest.take n⟩, rest.drop n)
    | none => none
  | [] => none

/-- The elements one after the other, at most `n` of them. -/
def elementsWithin : Nat → Bytes → Option (List Element)
  | _, [] => some []
  | 0, _ => none
  | n + 1, bs =>
    match element? bs with
    | some (e, rest) => (elementsWithin n rest).map (e :: ·)
    | none => none

/-- The elements that a content consists of. Each has a byte at least. -/
def elements? (bs : Bytes) : Option (List Element) := elementsWithin bs.length bs

/-- The elements inside an element with this tag. -/
def Element.inside? (e : Element) (tag : UInt8) : Option (List Element) :=
  if e.tag = tag then elements? e.content else none

def single? (bs : Bytes) : Option Element :=
  match elements? bs with
  | some [e] => some e
  | _ => none

/-- A number that is not negative. -/
def Element.natural? (e : Element) : Option Nat :=
  match e.tag == Tag.integer, e.content with
  | true, [a] => if a < 0x80 then some a.toNat else none
  | true, a :: b :: rest =>
    if a < 0x80 ∧ (a ≠ 0 ∨ 0x80 ≤ b) then some (natOfBytes (a :: b :: rest)) else none
  | _, _ => none

/-! ## Writing -/

def encodeLength (n : Nat) : Bytes :=
  if n < 0x80 then [n.toUInt8]
  else if n < 0x100 then [0x81, n.toUInt8]
  else 0x82 :: bytesOfNat 2 n

def Element.encode (e : Element) : Bytes := e.tag :: encodeLength e.content.length ++ e.content

def group (tag : UInt8) (inside : List Element) : Element := ⟨tag, inside.flatMap Element.encode⟩

def byteSize (n : Nat) : Nat := n.log2 / 8 + 1

/-- A number that is not negative, with a zero in front if it would be taken for a negative one. -/
def natural (n : Nat) : Element :=
  let bs := bytesOfNat (byteSize n) n
  ⟨Tag.integer, if (bs.headD 0) < 0x80 then bs else 0 :: bs⟩

end EntryServer.Der
