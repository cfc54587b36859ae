import EntryServer.Acl.Basic
import EntryServer.Auth.Cache
import EntryServer.Credentials.Reader
import EntryServer.Md5

/-! # Deciding requests

A request is decided by the first candidate that proves its secret and is allowed, then by the rule of the
domain that is open to everybody, and by the absence of any rule and any domain at last. Whatever is
decided, every domain of the entry is challenged anew.

The clock and the drawn keys are arguments, and the nonce cache goes in and comes out. Two things can fail there: a
draw, which leaves a domain unchallenged, and the clock, which ends the call. -/
namespace EntryServer.Auth
set_option autoImplicit false

structure Request where
  site : EntryPath
  entry : EntryPath
  method : Text
  /-- The path and query as the client wrote them. -/
  target : Text
  authorization : List Bytes
  deriving DecidableEq, Repr

structure Verdict where
  authorized : Bool
  challenges : List Challenge
  deriving DecidableEq, Repr

structure Authenticator where
  anonymous : Text
  /-- How long a nonce is good, in milliseconds. -/
  validity : Nat
  deriving DecidableEq, Repr

/-! ## Candidates -/

def scheme : Text := "Digest".toList

/-- The groups of a header value. A value that is not visible ASCII, or malformed, has none. -/
def groupsOf (value : Bytes) : List Credentials :=
  if value.all Ascii.isVisible then
    match Credentials.parse value with
    | .ok groups => groups
    | .error _ => []
  else []

/-- Can this server verify these credentials? -/
def isCandidate (c : Credentials) : Bool :=
  c.isScheme scheme && c.param? "algorithm".toList == some "MD5".toList &&
    c.param? "qop".toList == some "auth".toList

def candidates (values : List Bytes) : List Credentials :=
  (values.flatMap groupsOf).filter isCandidate

def paramOf (c : Credentials) (key : String) : Text := (c.param? key.toList).getD []

def expectedResponse (realm : Text) (secret : Bytes) (method : Text) (c : Credentials) : Text :=
  let bytesOf key := Utf8.encode (paramOf c key)
  let user := Md5.hexOfParts [bytesOf "username", Utf8.encode realm, secret]
  let request := Md5.hexOfParts [Utf8.encode method, bytesOf "uri"]
  Md5.hexOfParts [Utf8.encode user, bytesOf "nonce", bytesOf "nc", bytesOf "cnonce", bytesOf "qop",
    Utf8.encode request]

/-- Does the candidate prove, with this nonce, the secret of the user that it names? -/
def proves (t : FileTree) (r : Request) (n : Nonce) (c : Credentials) : Bool :=
  n.echo == paramOf c "opaque" && paramOf c "uri" == r.target &&
    match Acl.secret t r.entry n.domain scheme (paramOf c "username") with
    | .ok (some secret) => expectedResponse n.realm secret r.method c == paramOf c "response"
    | _ => false

inductive Finding
  /-- It names no live nonce. -/
  | stale
  | unproven
  /-- It proves its secret; what it is permitted then. -/
  | proven (permission : Except StoreError Acl.Permission)

/-- Looks at a candidate. The nonce that it names is used up. -/
def examine (t : FileTree) (r : Request) (now : Nat) (cache : Cache) (c : Credentials) : Finding × Cache :=
  let key := paramOf c "nonce"
  match cache.lookup key with
  | none => (.stale, cache)
  | some n =>
    let finding :=
      if n.isExpired now then .stale
      else if proves t r n c then .proven (Acl.permission t r.entry n.domain r.method)
      else .unproven
    (finding, cache.erase key)

structure Check where
  authorized : Bool
  /-- Did any rule apply, or fail to be read? -/
  foundRule : Bool
  stale : Bool
  deriving DecidableEq, Repr

/-- Looks at the candidates in turn, up to the first one that is allowed. -/
def checkCandidates (t : FileTree) (r : Request) (now : Nat) :
    Check → Cache → List Credentials → Check × Cache
  | check, cache, [] => (check, cache)
  | check, cache, c :: rest =>
    match examine t r now cache c with
    | (.stale, cache) => checkCandidates t r now { check with stale := true } cache rest
    | (.unproven, cache) => checkCandidates t r now check cache rest
    | (.proven (.ok .allow), cache) => ({ check with authorized := true, foundRule := true }, cache)
    | (.proven (.ok .unset), cache) => checkCandidates t r now check cache rest
    | (.proven _, cache) => checkCandidates t r now { check with foundRule := true } cache rest

/-- Lets the domain that is open to everybody decide where no candidate is allowed. -/
def checkAnonymous (t : FileTree) (open_ : Text) (r : Request) (check : Check) : Check :=
  if check.authorized then check
  else match Acl.permission t r.entry open_ r.method with
    | .ok permission =>
      { check with authorized := permission.isAllowed, foundRule := check.foundRule || permission.isSet }
    | .error _ => { check with foundRule := true }

/-! ## Challenges -/

def challengeFor (a : Authenticator) (t : FileTree) (r : Request) (now : Nat) (stale : Bool) (keys : Keys)
    (name : Text) : Challenge × Nonce :=
  let domain := Acl.domain t r.entry name
  let path := (domain.scope.bind (·.urlPathUnder r.site)).getD ['/']
  (⟨domain.realm, path, keys, stale⟩, ⟨now, a.validity, keys.echo, domain.name, domain.realm⟩)

/-- Challenges the domains in turn, but for those that no keys can be drawn for; `drawn` counts the draws. -/
def issueDrawn (a : Authenticator) (t : FileTree) (r : Request) (now : Nat) (stale : Bool) (keys : Nat → Option Keys)
    (drawn : Nat) (cache : Cache) : List Text → List Challenge × Cache
  | [] => ([], cache)
  | name :: rest =>
    match keys drawn with
    | none => issueDrawn a t r now stale keys (drawn + 1) cache rest
    | some pair =>
      let (challenge, nonce) := challengeFor a t r now stale pair name
      let (challenges, cache) :=
        issueDrawn a t r now stale keys (drawn + 1) (cache.insert pair.nonce nonce) rest
      (challenge :: challenges, cache)

/-- The same where no draw fails. -/
def issue (a : Authenticator) (t : FileTree) (r : Request) (now : Nat) (stale : Bool) (draw : Nat → Keys)
    (drawn : Nat) (cache : Cache) (names : List Text) : List Challenge × Cache :=
  issueDrawn a t r now stale (fun i => some (draw i)) drawn cache names

theorem issue_cons (a : Authenticator) (t : FileTree) (r : Request) (now : Nat) (stale : Bool) (draw : Nat → Keys)
    (drawn : Nat) (cache : Cache) (name : Text) (rest : List Text) :
    issue a t r now stale draw drawn cache (name :: rest) =
      let later := issue a t r now stale draw (drawn + 1)
        (cache.insert (draw drawn).nonce (challengeFor a t r now stale (draw drawn) name).2) rest
      ((challengeFor a t r now stale (draw drawn) name).1 :: later.1, later.2) := rfl

/-! ## The verdict -/

/-- Decides a request at a time. `keys` gives the keys of the challenges, where they can be drawn. -/
def authenticateDrawn (a : Authenticator) (t : FileTree) (r : Request) (now : Nat) (keys : Nat → Option Keys)
    (cache : Cache) : Verdict × Cache :=
  let (check, cache) := checkCandidates t r now ⟨false, false, false⟩ (cache.withoutExpired now)
    (candidates r.authorization)
  let check := checkAnonymous t a.anonymous r check
  let domains := (Acl.domains t a.anonymous r.entry).1
  let (challenges, cache) := issueDrawn a t r now check.stale keys 0 cache domains
  (⟨if check.foundRule then check.authorized else domains.isEmpty, challenges⟩, cache)

/-- The same, with the failure of the clock: an expiry that it cannot represent ends the call. -/
def authenticateDrawn? (a : Authenticator) (t : FileTree) (r : Request) (now : Nat) (keys : Nat → Option Keys)
    (cache : Cache) : Option (Verdict × Cache) :=
  if cache.fitsClock then some (authenticateDrawn a t r now keys cache) else none

/-- Decides a request where no draw fails: `draw` gives the keys of the challenges. -/
def authenticate (a : Authenticator) (t : FileTree) (r : Request) (now : Nat) (draw : Nat → Keys)
    (cache : Cache) : Verdict × Cache :=
  authenticateDrawn a t r now (fun i => some (draw i)) cache

/-- The same, with the failure of the clock. -/
def authenticate? (a : Authenticator) (t : FileTree) (r : Request) (now : Nat) (draw : Nat → Keys)
    (cache : Cache) : Option (Verdict × Cache) :=
  if cache.fitsClock then some (authenticate a t r now draw cache) else none

end EntryServer.Auth
