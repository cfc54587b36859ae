import EntryServer.Text.Ascii

/-! # Blank and control characters

The two Unicode properties that trimming and content sniffing ask for. -/
namespace EntryServer.Blank
set_option autoImplicit false

/-- The characters with the property White_Space. -/
def isBlank (c : Char) : Bool :=
  let n := c.toNat
  (9 ≤ n && n ≤ 13) || n == 0x20 || n == 0x85 || n == 0xA0 || n == 0x1680 ||
    (0x2000 ≤ n && n ≤ 0x200A) || n == 0x2028 || n == 0x2029 || n == 0x202F || n == 0x205F || n == 0x3000

/-- The characters of category Control. -/
def isControl (c : Char) : Bool :=
  let n := c.toNat
  n < 0x20 || (0x7F ≤ n && n ≤ 0x9F)

def trimStart (t : Text) : Text := t.dropWhile isBlank

def trim (t : Text) : Text := ((trimStart t).reverse.dropWhile isBlank).reverse

end EntryServer.Blank
