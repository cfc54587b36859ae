import EntryServer.Text.Printable

/-! # Quoted text

A value is quoted in a message so that it can be told where it begins and ends: quotes and backslashes are
escaped, and so are characters that cannot be seen. -/
namespace EntryServer.Quoted
set_option autoImplicit false

/-- The number of a character in lowercase hexadecimal, in braces. -/
def byNumber (c : Char) : Text :=
  "\\u\x7b".toList ++ Nat.toDigits 16 c.toNat ++ ['\x7d']

def escape (c : Char) : Text :=
  if c = '"' ∨ c = '\\' then ['\\', c]
  else if c = '\n' then ['\\', 'n']
  else if c = '\r' then ['\\', 'r']
  else if c = '\t' then ['\\', 't']
  else if c = '\x00' then ['\\', '0']
  else if Printable.isPrintable c then [c]
  else byNumber c

def quote (t : Text) : Text := '"' :: t.flatMap escape ++ ['"']

end EntryServer.Quoted
