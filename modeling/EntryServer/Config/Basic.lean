import EntryServer.Acl.Basic

/-! # Configuration

The settings of the server with their defaults, in six sections. -/
namespace EntryServer
set_option autoImplicit false

namespace Config

structure TlsFiles where
  certPath : Text
  keyPath : Text
  deriving DecidableEq, Repr

structure Listener where
  bindAddress : Text := "0.0.0.0:8000".toList
  tls : Option TlsFiles := none
  maxConnections : Nat := 10000
  deriving DecidableEq, Repr

structure Storage where
  root : Text := "./web".toList
  deriving DecidableEq, Repr

structure Auth where
  /-- How long a nonce is good. -/
  nonceValiditySecs : Nat := 300
  anonymousDomain : Text := Acl.anonymous
  deriving DecidableEq, Repr

structure Timeouts where
  requestSecs : Nat := 30
  /-- How long open connections may take to finish at the end. -/
  shutdownSecs : Nat := 10
  deriving DecidableEq, Repr

structure Security where
  /-- The size of the largest request body, in bytes. -/
  maxBodySize : Nat := 64 * 1024 * 1024
  deriving DecidableEq, Repr

structure Observability where
  logLevel : Text := "info".toList
  metricsEnabled : Bool := false
  metricsAddress : Text := "127.0.0.1:9090".toList
  deriving DecidableEq, Repr

end Config

structure Config where
  listener : Config.Listener := {}
  storage : Config.Storage := {}
  auth : Config.Auth := {}
  timeouts : Config.Timeouts := {}
  security : Config.Security := {}
  observability : Config.Observability := {}
  deriving DecidableEq, Repr

/-- The settings that the command line may give in place of the file's. -/
structure Config.Overrides where
  listen : Option Text := none
  root : Option Text := none
  deriving DecidableEq, Repr

def Config.overriddenBy (c : Config) (o : Config.Overrides) : Config :=
  { c with
    listener := { c.listener with bindAddress := o.listen.getD c.listener.bindAddress }
    storage := { c.storage with root := o.root.getD c.storage.root } }

end EntryServer
