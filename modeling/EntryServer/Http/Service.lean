import EntryServer.Http.Server

/-! # The service

What stands around the server while it answers: the clock and the random numbers of the authenticator may fail, and
the work on a request is cut off when it takes too long. The limit on the size of a request stands outside of this
timeout, and the seal, the authenticator and the handlers inside. So an answer to a request that is cut off carries no
challenge, though some may have been issued, and the handler has stopped wherever it was waiting. How long the work
takes, and what it has done when it is cut off, is not computed here, but taken from the surroundings. -/
namespace EntryServer.Http
set_option autoImplicit false

/-- What the answer to a request depends on, beside the request and the state. -/
structure Occasion where
  now : Nat
  /-- The keys of the challenges, where they can be drawn. -/
  keys : Nat → Option Auth.Keys
  identifier : Bytes
  /-- How long the work on the request takes, in milliseconds, as the timer counts them. -/
  takes : Nat
  /-- What the work has made of the state when it is cut off. -/
  left : Server.State

structure Service where
  server : Server
  /-- How long the work on a request may take, in milliseconds. -/
  timeout : Nat
  deriving DecidableEq, Repr

namespace Service

def ofConfig (c : Config) : Service := ⟨Server.ofConfig c, c.timeouts.requestSecs * 1000⟩

/-- The work on a request whose size is allowed. Without an answer the clock has failed the authenticator. -/
def work (v : Service) (r : Request) (o : Occasion) (state : Server.State) :
    Option (Response × List Auth.Challenge × Server.State) :=
  let target := Target.parse r.target
  let found := Addressed.resolve (r.headers.first? "host") target
  if Acl.isSealed found.entry then some (Response.empty .forbidden, [], state)
  else
    (Auth.authenticateDrawn? v.server.authenticator state.files (Server.authRequest found target r) o.now o.keys
      state.cache).map (v.server.decided found target r state)

def withinTime (v : Service) (r : Request) (o : Occasion) (state : Server.State) :
    Option (Response × List Auth.Challenge × Server.State) :=
  if v.timeout < o.takes then some (Response.empty .requestTimeout, [], o.left) else v.work r o state

/-- Answers a request. The issued challenges are given beside the answer. -/
def handle (v : Service) (r : Request) (o : Occasion) (state : Server.State) :
    Option (Response × List Auth.Challenge × Server.State) :=
  let answered :=
    if v.server.announcesTooMuch r then some (Server.tooLarge, [], state) else v.withinTime r o state
  answered.map fun x => (Server.finished r o.identifier x.1, x.2)

end Service
end EntryServer.Http
