import EntryServer.Net.Listener
import EntryServer.Tls.Acceptor

/-! # Starting the service

What the service needs is prepared in a fixed order: the root directory of the store, encryption, the
address for metrics, and the listener at last. The first failure ends it. Directories that were made stay. -/
namespace EntryServer.Startup
set_option autoImplicit false

inductive Error
  | storage (path : Text) (error : FileError)
  | tls (error : Tls.SetupError)
  | metricsAddress (value : Text)
  | listener (error : Net.Listener.BindError)
  deriving DecidableEq, Repr

def Error.message : Error → Text
  | storage path e =>
    "Failed to create store root ".toList ++ path ++ ": ".toList ++ e.toSystem.text.toList
  | tls e => "TLS setup failed: ".toList ++ e.message
  | metricsAddress value => "Invalid metrics address: ".toList ++ value
  | listener e => e.message.toList

structure Prepared where
  acceptor : Option Tls.Acceptor
  listener : Net.Listener
  deriving DecidableEq, Repr

/-- Checks the address for metrics, if there are to be any. -/
def checkMetrics (c : Config.Observability) : Except Error Unit :=
  if c.metricsEnabled && !Net.isSocketAddress c.metricsAddress then .error (.metricsAddress c.metricsAddress)
  else .ok ()

/-- What follows the root directory of the store. -/
def prepareIn (t : FileTree) (c : Config) : Except Error Prepared := do
  let acceptor ← (Tls.resolveAcceptor t c).mapError .tls
  checkMetrics c.observability
  let listener ← (Net.Listener.bind c.listener.bindAddress c.listener.maxConnections).mapError .listener
  return ⟨acceptor, listener⟩

def prepare (c : Config) (t : FileTree) : Except Error Prepared × FileTree :=
  match t.makePath c.storage.root with
  | (.error e, t) => (.error (.storage c.storage.root e), t)
  | (.ok (), t) => (prepareIn t c, t)

end EntryServer.Startup
