import EntryServer.Text.Ascii

/-! # Request targets

A target names what a request is about: a path with an optional query, a whole URL with the authority of
the host, or `*`. A fragment is cut off. -/
namespace EntryServer.Http
set_option autoImplicit false

structure Target where
  /-- The text between the scheme and the path of a whole URL, user information included. -/
  authority : Option Text
  /-- The path as it is written, and a slash if a whole URL has none. -/
  path : Text
  query : Option Text
  /-- The path with its query, as the client has to repeat it. -/
  pathAndQuery : Text
  deriving DecidableEq, Repr

namespace Target

def isSchemeChar (c : Char) : Bool :=
  c.isAlphanum || c = '+' || c = '-' || c = '.'

/-- What follows the scheme and its `://` in a whole URL. -/
def afterScheme? (t : Text) : Option Text :=
  match t.takeWhile isSchemeChar, t.dropWhile isSchemeChar with
  | _ :: _, ':' :: '/' :: '/' :: rest => some rest
  | _, _ => none

/-- The target of a path with an optional query. -/
def ofPathAndQuery (authority : Option Text) (t : Text) : Target where
  authority := authority
  path := match t.takeWhile (· ≠ '?') with
    | [] => ['/']
    | path => path
  query := match t.dropWhile (· ≠ '?') with
    | [] => none
    | _ :: query => some query
  pathAndQuery := if t = [] then ['/'] else t

def endsAuthority (c : Char) : Bool := c = '/' || c = '?'

def parse (t : Text) : Target :=
  let t := t.takeWhile (· ≠ '#')
  match t with
  | '/' :: _ | ['*'] => ofPathAndQuery none t
  | _ =>
    match afterScheme? t with
    | some rest =>
      ofPathAndQuery (some (rest.takeWhile fun c => !endsAuthority c))
        (rest.dropWhile fun c => !endsAuthority c)
    | none => ⟨some t, [], none, ['/']⟩

end Target
end EntryServer.Http
