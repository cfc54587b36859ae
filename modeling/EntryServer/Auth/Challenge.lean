import EntryServer.Text.Base64
import EntryServer.Text.Utf8

/-! # Challenges

What a client is told when it should authenticate: the realm, the path the credentials are good for, a
nonce to use once, and a value to send back unchanged. Both keys are freshly drawn for each challenge. -/
namespace EntryServer.Auth
set_option autoImplicit false

structure Keys where
  nonce : Text
  /-- The value that the client sends back unchanged. -/
  echo : Text
  deriving DecidableEq, Repr

/-- Keys are shown in Base64. -/
def Keys.ofBytes (nonce echo : Bytes) : Keys := ⟨Base64.encode nonce, Base64.encode echo⟩

structure Challenge where
  realm : Text
  path : Text
  keys : Keys
  /-- Was a nonce presented that is not live? -/
  stale : Bool
  deriving DecidableEq, Repr

/-- Inside quotes a backslash stands before each quote and each backslash. -/
def escape (t : Text) : Text :=
  t.flatMap fun c => if c = '\\' ∨ c = '"' then ['\\', c] else [c]

def quotedParam (key : String) (value : Text) : Text :=
  key.toList ++ "=\"".toList ++ value ++ ['"']

def Challenge.params (c : Challenge) : List Text :=
  [quotedParam "realm" (escape c.realm), quotedParam "domain" (escape c.path),
    quotedParam "nonce" c.keys.nonce, quotedParam "opaque" c.keys.echo] ++
  (if c.stale then [quotedParam "stale" "true".toList] else []) ++
  [quotedParam "algorithm" "MD5".toList, quotedParam "qop" "auth".toList]

def Challenge.text (c : Challenge) : Text :=
  "Digest ".toList ++ List.intercalate ", ".toList c.params

end EntryServer.Auth
