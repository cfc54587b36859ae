import EntryServer.Text.Utf8

/-! # Credentials

What a client presents in an `Authorization` header: groups of a scheme name and either a single value
or a map of parameters. This module holds the type, the look-up of parameters, the faults of a header
value and the classes of bytes that it is made of. -/
namespace EntryServer
set_option autoImplicit false

/-- One scheme with its parameters. The keys are distinct and in lowercase. -/
structure Credentials where
  scheme : Text
  params : List (Text × Text)
  deriving DecidableEq, Repr

namespace Credentials

/-- The key that a single value is stored under. -/
def wholeKey : Text := "base64".toList

/-- Stores a value. The value of an equal key is replaced. -/
def insert (params : List (Text × Text)) (key value : Text) : List (Text × Text) :=
  params.filter (fun kv => kv.1 ≠ key) ++ [(key, value)]

def param? (c : Credentials) (key : Text) : Option Text :=
  (c.params.find? fun kv => kv.1 = Ascii.lower key).map (·.2)

def isScheme (c : Credentials) (scheme : Text) : Bool := Ascii.sameIgnoringCase c.scheme scheme

/-! ## Faults -/

inductive Reason
  | noCredentials
  | expectedScheme
  | expectedSpace
  | expectedName
  | expectedEquals
  | expectedValue
  | unterminatedQuote
  | danglingEscape
  | quotedNotText
  deriving DecidableEq, Repr

def Reason.text : Reason → String
  | noCredentials => "no credentials"
  | expectedScheme => "expected auth scheme"
  | expectedSpace => "expected space after auth scheme"
  | expectedName => "expected parameter name"
  | expectedEquals => "expected '='"
  | expectedValue => "expected parameter value"
  | unterminatedQuote => "unterminated quoted string"
  | danglingEscape => "dangling escape"
  | quotedNotText => "quoted string is not UTF-8"

/-- A reason, and what was left of the value where it arose. -/
structure Fault where
  reason : Reason
  rest : Bytes
  deriving DecidableEq, Repr

/-- The number of bytes that were read before the fault. -/
def Fault.offset (f : Fault) (value : Bytes) : Nat := value.length - f.rest.length

def Fault.message (f : Fault) (value : Bytes) : String :=
  "malformed credentials at byte " ++ toString (f.offset value) ++ ": " ++ f.reason.text

/-! ## Bytes -/

/-- The bytes of a single value, padding apart. -/
def isWholeByte (b : UInt8) : Bool :=
  Ascii.isAlphanumeric b || b ∈ Ascii.bytes "-._~+/"

def isSpace (b : UInt8) : Bool := b = 32 || b = 9

/-- Spaces and commas stand between the elements of a list. -/
def isSeparator (b : UInt8) : Bool := isSpace b || b = 44

def skipSpaces (s : Bytes) : Bytes := s.dropWhile isSpace

def skipSeparators (s : Bytes) : Bytes := s.dropWhile isSeparator

end Credentials
end EntryServer
