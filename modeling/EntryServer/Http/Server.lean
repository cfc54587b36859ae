import EntryServer.Auth.Authenticator
import EntryServer.Config.Basic
import EntryServer.Http.Entry
import EntryServer.Http.Site

/-! # The server

A request passes, in this order, the limit on its size, the seal of the access configuration and the
authenticator, and is then answered on the entry that it addresses. Challenges go with every answer that
passes the seal, authorized or not.

The work is taken to be done in time and not to fail for its surroundings; the timeout and these failures stand in
`EntryServer.Http.Service`. The limit on the size and the identifiers are layers of a library, which are written here
as its documentation and source have them: a content that is announced as too long is refused at once, and of any
other no more is read than is allowed and announced. -/
namespace EntryServer.Http
set_option autoImplicit false

structure Server where
  authenticator : Auth.Authenticator
  /-- The size of the largest request body, in bytes. -/
  maxBody : Nat
  deriving DecidableEq, Repr

structure Server.State where
  files : FileTree
  cache : Auth.Cache
  deriving DecidableEq, Repr

namespace Server

def ofConfig (c : Config) : Server :=
  ⟨⟨c.auth.anonymousDomain, c.auth.nonceValiditySecs * 1000⟩, c.security.maxBodySize⟩

/-- The number of bytes that a request announces for its content. -/
def announced? (r : Request) : Option Nat := (r.headers.first? "content-length").bind Header.number?

/-- Does the request announce more content than is allowed? Then the limit refuses it before anything else. -/
def announcesTooMuch (s : Server) (r : Request) : Bool :=
  match announced? r with
  | some n => s.maxBody < n
  | none => false

/-- The number of bytes that the limit lets through: not more than is allowed, and not more than is announced. -/
def bodyLimit (s : Server) (r : Request) : Nat :=
  match announced? r with
  | some n => min s.maxBody n
  | none => s.maxBody

/-- The content of a request as it is read. -/
def received (s : Server) (r : Request) : Body := r.body.limited (s.bodyLimit r)

def sendable (challenges : List Auth.Challenge) : List Bytes :=
  (challenges.map fun c => Utf8.encode c.text).filter Header.isValue

def challenged (challenges : List Auth.Challenge) (r : Response) : Response :=
  { r with headers := r.headers ++ (sendable challenges).map fun v => ("www-authenticate".toList, v) }

/-- The answer to an authorized request, and the files after it. Only paths are served. -/
def answer (s : Server) (entry : EntryPath) (target : Target) (r : Request) (files : FileTree) :
    Response × FileTree :=
  if target.path.head? = some '/' then
    let action := Entry.handle entry r.method (r.headers.first? "content-type") (s.received r)
    match action.run.run files with
    | (.ok response, files) => (response, files)
    | (.error failure, files) => (failure.response, files)
  else (Response.empty .notFound, files)

def authRequest (found : Addressed) (target : Target) (r : Request) : Auth.Request :=
  ⟨found.site, found.entry, r.method, target.pathAndQuery, r.headers.all "authorization"⟩

/-- Answers a request as it was decided, with the challenges that were issued. -/
def decided (s : Server) (found : Addressed) (target : Target) (r : Request) (state : State)
    (decision : Auth.Verdict × Auth.Cache) : Response × List Auth.Challenge × State :=
  let (verdict, cache) := decision
  let (response, files) :=
    if verdict.authorized then answer s found.entry target r state.files
    else (Response.empty .unauthorized, state.files)
  (challenged verdict.challenges response, verdict.challenges, ⟨files, cache⟩)

/-- The answer to a request whose size is allowed, with the challenges that were issued. -/
def guarded (s : Server) (r : Request) (now : Nat) (draw : Nat → Auth.Keys) (state : State) :
    Response × List Auth.Challenge × State :=
  let target := Target.parse r.target
  let found := Addressed.resolve (r.headers.first? "host") target
  if Acl.isSealed found.entry then (Response.empty .forbidden, [], state)
  else
    s.decided found target r state (Auth.authenticate s.authenticator state.files (authRequest found target r) now
      draw state.cache)

def tooLarge : Response := Response.text .payloadTooLarge "length limit exceeded"

/-- An answer as it is sent. `identifier` goes with it if the request brings none. -/
def finished (r : Request) (identifier : Bytes) (response : Response) : Response :=
  let response := response.completed (r.method = "HEAD".toList)
  let headers := response.headers.addIfMissing "x-request-id"
    ((r.headers.first? "x-request-id").getD identifier)
  { response with headers := headers }

/-- Answers a request at a time, in a run of the server without failures of its surroundings. `draw` gives the keys
of the challenges. The issued challenges are given beside the answer. -/
def serve (s : Server) (r : Request) (now : Nat) (draw : Nat → Auth.Keys) (identifier : Bytes)
    (state : State) : Response × List Auth.Challenge × State :=
  let (response, challenges, state) :=
    if s.announcesTooMuch r then (tooLarge, [], state) else s.guarded r now draw state
  (finished r identifier response, challenges, state)

end Server
end EntryServer.Http
