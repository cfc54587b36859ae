import EntryServer.Text.Ascii

/-! # UTF-8

A byte sequence falls into pieces: well-formed characters, maximal malformed parts, and at its very end
possibly the beginning of a character that is cut off. Reading strictly, reading with replacement
characters and reading the head of a longer text are three views of the same pieces. -/
namespace EntryServer.Utf8
set_option autoImplicit false

/-! ## Writing -/

def encodeChar (c : Char) : Bytes :=
  let n := c.toNat
  if n < 0x80 then [n.toUInt8]
  else if n < 0x800 then [(0xC0 + n / 64).toUInt8, (0x80 + n % 64).toUInt8]
  else if n < 0x10000 then
    [(0xE0 + n / 4096).toUInt8, (0x80 + n / 64 % 64).toUInt8, (0x80 + n % 64).toUInt8]
  else
    [(0xF0 + n / 262144).toUInt8, (0x80 + n / 4096 % 64).toUInt8, (0x80 + n / 64 % 64).toUInt8,
      (0x80 + n % 64).toUInt8]

def encode (t : Text) : Bytes := t.flatMap encodeChar

/-- How many bytes a text takes. -/
def size (t : Text) : Nat := t.foldr (fun c n => c.utf8Size + n) 0

theorem size_append (a b : Text) : size (a ++ b) = size a + size b := by
  induction a with
  | nil => exact (Nat.zero_add _).symm
  | cons c a ih =>
    have hcons : ∀ rest : Text, size (c :: rest) = c.utf8Size + size rest := fun _ => rfl
    rw [List.cons_append, hcons, hcons, ih, Nat.add_assoc]

/-! ## Reading -/

inductive Piece
  | char (c : Char)
  /-- A maximal part that begins no character. -/
  | malformed
  /-- The input ends inside a character that is well formed so far. -/
  | cut
  deriving DecidableEq, Repr

def isContinuation (b : UInt8) : Bool := 0x80 ≤ b && b ≤ 0xBF

/-- The number of bytes a character takes that begins with this byte, or 0 if none does. -/
def width (b : UInt8) : Nat :=
  if b < 0x80 then 1
  else if 0xC2 ≤ b && b ≤ 0xDF then 2
  else if 0xE0 ≤ b && b ≤ 0xEF then 3
  else if 0xF0 ≤ b && b ≤ 0xF4 then 4
  else 0

/-- May `second` follow `first`? This rules out overlong forms, surrogates and values above U+10FFFF. -/
def maySecond (first second : UInt8) : Bool :=
  if first == 0xE0 then 0xA0 ≤ second && second ≤ 0xBF
  else if first == 0xED then 0x80 ≤ second && second ≤ 0x9F
  else if first == 0xF0 then 0x90 ≤ second && second ≤ 0xBF
  else if first == 0xF4 then 0x80 ≤ second && second ≤ 0x8F
  else isContinuation second

def low (b : UInt8) : Nat := b.toNat % 64

def pieces : Bytes → List Piece
  | [] => []
  | a :: r =>
    if width a = 1 then .char (Char.ofNat a.toNat) :: pieces r
    else if width a = 0 then .malformed :: pieces r
    else match r with
      | [] => [.cut]
      | b :: r₁ =>
        if !maySecond a b then .malformed :: pieces (b :: r₁)
        else if width a = 2 then .char (Char.ofNat (a.toNat % 32 * 64 + low b)) :: pieces r₁
        else match r₁ with
          | [] => [.cut]
          | c :: r₂ =>
            if !isContinuation c then .malformed :: pieces (c :: r₂)
            else if width a = 3 then
              .char (Char.ofNat (a.toNat % 16 * 4096 + low b * 64 + low c)) :: pieces r₂
            else match r₂ with
              | [] => [.cut]
              | d :: r₃ =>
                if !isContinuation d then .malformed :: pieces (d :: r₃)
                else
                  .char (Char.ofNat (a.toNat % 8 * 262144 + low b * 4096 + low c * 64 + low d)) ::
                    pieces r₃

def whole? : List Piece → Option Text
  | [] => some []
  | .char c :: ps => (whole? ps).map (c :: ·)
  | _ :: _ => none

/-- The text of a head of a longer text: the last character may be cut off, and is then left out. -/
def head? : List Piece → Option Text
  | [] => some []
  | [.cut] => some []
  | .char c :: ps => (head? ps).map (c :: ·)
  | _ :: _ => none

def decode? (bs : Bytes) : Option Text := whole? (pieces bs)

def decodeHead? (bs : Bytes) : Option Text := head? (pieces bs)

def Piece.shown : Piece → Char
  | .char c => c
  | _ => '\uFFFD'

/-- Every malformed part, and a cut-off character at the end, becomes one U+FFFD. -/
def decodeLossy (bs : Bytes) : Text := (pieces bs).map Piece.shown

end EntryServer.Utf8
