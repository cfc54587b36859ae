import EntryServer.Text.Ascii

/-! # Telling plain requests from encrypted ones

Both arrive at one address. A request line is printable ASCII, and an encrypted record begins with a byte
that is not, so the first bytes of a connection tell them apart. -/
namespace EntryServer.Net
set_option autoImplicit false

inductive Protocol
  | http
  | tls
  deriving DecidableEq, Repr

/-- How many leading bytes of a connection are looked at, at most. -/
def sniffLength : Nat := 256

/-- The bytes of plain requests: printable ASCII, tab, carriage return and line feed. -/
def isPlain (b : UInt8) : Bool := b = 9 || b = 13 || b = 10 || (0x20 ≤ b && b ≤ 0x7E)

def classify (head : Bytes) : Protocol := if head.all isPlain then .http else .tls

end EntryServer.Net
