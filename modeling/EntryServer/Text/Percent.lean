import EntryServer.Text.Utf8

/-! # Percent encoding and query strings

A request names bytes by `%` and two hexadecimal digits; a `%` that is not followed by two stands for
itself. A query is a list of pairs joined by `&`, where `+` also stands for a space. What the bytes spell
is read as UTF-8 with replacement characters, so decoding never fails. -/
namespace EntryServer.Percent
set_option autoImplicit false

def decodeBytes : Bytes → Bytes
  | 37 :: h :: l :: r =>
    match Hex.value? h, Hex.value? l with
    | some x, some y => (x * 16 + y).toUInt8 :: decodeBytes r
    | _, _ => 37 :: decodeBytes (h :: l :: r)
  | b :: r => b :: decodeBytes r
  | [] => []

def decode (bs : Bytes) : Text := Utf8.decodeLossy (decodeBytes bs)

/-! ## Queries -/

/-- A key or a value of a query. -/
def formText (bs : Bytes) : Text :=
  decode (bs.map fun b => if b = 43 then 32 else b)

/-- What stands before and after the first `=`. Without one, all of it is the key. -/
def formPair (piece : Bytes) : Text × Text :=
  (formText (piece.takeWhile (· ≠ 61)), formText ((piece.dropWhile (· ≠ 61)).drop 1))

/-- The pairs of a query in order. Empty pieces are left out. -/
def queryPairs (query : Bytes) : List (Text × Text) :=
  ((query.splitOn 38).filter fun piece => !piece.isEmpty).map formPair

end EntryServer.Percent
