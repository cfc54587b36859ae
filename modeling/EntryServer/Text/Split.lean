import EntryServer.Text.Ascii

/-! # Cutting a text at a character -/
namespace EntryServer.Text
set_option autoImplicit false

/-- What stands before and after the last occurrence of a character. -/
def splitLast? (c : Char) (t : Text) : Option (Text × Text) :=
  match t.reverse.dropWhile (· ≠ c) with
  | [] => none
  | _ :: front => some (front.reverse, (t.reverse.takeWhile (· ≠ c)).reverse)

end EntryServer.Text
