import EntryServer.Acl.Sealed
import EntryServer.Store.Basic
import EntryServer.Text.Blank

/-! # Access control

Who may do what is configured in the metadata of entries, below `auth`:

* `auth/inherit` lets the listing of domains go on above the entry,
* `auth/<domain>/realm` is the realm that clients are shown,
* `auth/<domain>/inherit` lets the climb for this domain go on above the entry,
* `auth/<domain>/<METHOD>.perm` grants the method if it says `allow` and denies it otherwise,
* `auth/<domain>/default.perm` does the same for methods without a rule,
* `auth/<domain>/<Scheme>.users/<user>` is the secret of a user.

Every question climbs from the entry through its ancestors, and ends at the first scope without an inherit
marker. -/
namespace EntryServer.Acl
set_option autoImplicit false

/-! ## Names -/

/-- The marker that keeps a climb going. -/
def inherit : Text := "inherit".toList

def realmKey : Text := "realm".toList

/-- The domain that applies to everybody, unless configured otherwise. -/
def anonymous : Text := "anonymous".toList

def configOf (p : EntryPath) : EntryPath := p.parameters.child auth

def scopeOf (p : EntryPath) (domain : Text) : EntryPath := (configOf p).child domain

/-- Does a climb end at this configuration? It has to be there, without an inherit marker. -/
def endsAt (t : FileTree) (config : EntryPath) : Bool :=
  Store.hasFolder t config && !Store.hasData t (config.child inherit)

def withoutLineEnding (content : Bytes) : Bytes :=
  match content.reverse with
  | 10 :: 13 :: rest => rest.reverse
  | 10 :: rest => rest.reverse
  | _ => content

/-! ## Domains -/

/-- Adds a name to the listed domains, unless it is there, is the marker or is open to everybody. -/
def addDomain (open_ : Text) (names : List Text) (name : Text) : List Text :=
  if name = open_ ∨ name = inherit ∨ names.contains name then names else names ++ [name]

def domainsAlong (t : FileTree) (open_ : Text) (names : List Text) (errors : List StoreError) :
    List EntryPath → List Text × List StoreError
  | [] => (names, errors)
  | p :: above =>
    match Store.children t (configOf p) with
    | .error e => domainsAlong t open_ names (errors ++ [e]) above
    | .ok found =>
      let names := (found.map (·.name)).foldl (addDomain open_) names
      if endsAt t (configOf p) then (names, errors) else domainsAlong t open_ names errors above

/-- The domains that clients are asked to present credentials for, nearest first, and the failures to list
some of them. -/
def domains (t : FileTree) (open_ : Text) (p : EntryPath) : List Text × List StoreError :=
  domainsAlong t open_ [] [] p.ancestors

structure Domain where
  name : Text
  realm : Text
  /-- The ancestor at which the climb ended, if any declares the domain. -/
  scope : Option EntryPath
  deriving DecidableEq, Repr

def realmIn (t : FileTree) (scope : EntryPath) : Option Text :=
  match Store.read t (scope.child realmKey) with
  | .error _ => none
  | .ok content =>
    let realm := withoutLineEnding content
    if realm = [] then none else some (Utf8.decodeLossy realm)

def domainAlong (t : FileTree) (name : Text) (realm : Option Text) (scope : Option EntryPath) :
    List EntryPath → Option Text × Option EntryPath
  | [] => (realm, scope)
  | p :: above =>
    if Store.hasFolder t (scopeOf p name) then
      let realm := realm.or (realmIn t (scopeOf p name))
      if Store.hasData t ((scopeOf p name).child inherit) then domainAlong t name realm (some p) above
      else (realm, some p)
    else domainAlong t name realm scope above

/-- The realm of a domain is the first one on the climb, and its own name if there is none. -/
def domain (t : FileTree) (p : EntryPath) (name : Text) : Domain :=
  let (realm, scope) := domainAlong t name none none p.ancestors
  ⟨name, realm.getD name, scope⟩

/-! ## Secrets -/

/-- Names that could not be those of a file. -/
def isUser (user : Text) : Bool :=
  user ≠ [] && user ≠ ['.'] && user ≠ ['.', '.'] && !user.contains '/'

def secretOf (scope : EntryPath) (scheme user : Text) : EntryPath :=
  (scope.child (scheme ++ ".users".toList)).child user

def secretAlong (t : FileTree) (domain scheme user : Text) :
    List EntryPath → Except StoreError (Option Bytes)
  | [] => .ok none
  | p :: above =>
    if Store.hasFolder t (scopeOf p domain) then
      match Store.read t (secretOf (scopeOf p domain) scheme user) with
      | .ok content => .ok (some (withoutLineEnding content))
      | .error (.notFound _) =>
        if Store.hasData t ((scopeOf p domain).child inherit) then secretAlong t domain scheme user above
        else .ok none
      | .error e => .error e
    else secretAlong t domain scheme user above

def secret (t : FileTree) (p : EntryPath) (domain scheme user : Text) : Except StoreError (Option Bytes) :=
  if isUser user then secretAlong t domain scheme user p.ancestors else .ok none

/-! ## Permissions -/

inductive Permission
  | allow
  | deny
  /-- No rule was found. -/
  | unset
  deriving DecidableEq, Repr

namespace Permission

/-- A rule grants exactly if it says `allow`, blanks aside. -/
def ofRule (content : Bytes) : Permission :=
  if Blank.trim (Utf8.decodeLossy content) = "allow".toList then allow else deny

def isAllowed (p : Permission) : Bool := p = allow

def isSet (p : Permission) : Bool := p ≠ unset

end Permission

def rules (method : Text) : List Text := [method ++ ".perm".toList, "default.perm".toList]

def firstRule (t : FileTree) (scope : EntryPath) : List Text → Except StoreError (Option Bytes)
  | [] => .ok none
  | rule :: rest =>
    match Store.read t (scope.child rule) with
    | .ok content => .ok (some content)
    | .error (.notFound _) => firstRule t scope rest
    | .error e => .error e

def permissionAlong (t : FileTree) (domain method : Text) : List EntryPath → Except StoreError Permission
  | [] => .ok .unset
  | p :: above =>
    match firstRule t (scopeOf p domain) (rules method) with
    | .error e => .error e
    | .ok (some content) => .ok (.ofRule content)
    | .ok none =>
      if endsAt t (scopeOf p domain) then .ok .unset else permissionAlong t domain method above

/-- The nearest ancestor with a rule decides. -/
def permission (t : FileTree) (p : EntryPath) (domain method : Text) : Except StoreError Permission :=
  permissionAlong t domain method p.ancestors

end EntryServer.Acl
