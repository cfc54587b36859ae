import EntryServer.Config.Basic
import EntryServer.Toml.Document

/-! # Reading a configuration

Every section and every setting may be left out, except that the two files of an encrypted listener come
together. A section is a table, or a list of its settings in their order; a date in place of a section
leaves all of it out. Unknown names are skipped. -/
namespace EntryServer.Config
set_option autoImplicit false

open Toml (Value)

/-- Looks up a setting by its name, or by its place in a list. -/
abbrev Settings := Text → Nat → Option Value

def settings? : Value → Option Settings
  | .table _ es => some fun name _ => es.lookup name
  | .array items | .tables items => some fun _ i => items[i]?
  | .datetime => some fun _ _ => none
  | _ => none

def text? : Value → Option Text
  | .string t => some t
  | _ => none

def number? : Value → Option Nat
  | .integer n => if 0 ≤ n then some n.toNat else none
  | _ => none

def flag? : Value → Option Bool
  | .boolean b => some b
  | _ => none

def Settings.get {α : Type} (s : Settings) (name : String) (place : Nat) (read : Value → Option α)
    (default : α) : Option α :=
  match s name.toList place with
  | none => some default
  | some v => read v

def tlsFiles? (v : Value) : Option TlsFiles := do
  let s ← settings? v
  let cert ← s "cert_path".toList 0
  let key ← s "key_path".toList 1
  return ⟨← text? cert, ← text? key⟩

def listener? (v : Value) : Option Listener := do
  let s ← settings? v
  let d : Listener := {}
  return ⟨← s.get "bind_address" 0 text? d.bindAddress,
    ← s.get "tls" 1 (fun v => (tlsFiles? v).map some) d.tls,
    ← s.get "max_connections" 2 number? d.maxConnections⟩

def storage? (v : Value) : Option Storage := do
  let s ← settings? v
  let d : Storage := {}
  return ⟨← s.get "root" 0 text? d.root⟩

def auth? (v : Value) : Option Auth := do
  let s ← settings? v
  let d : Auth := {}
  return ⟨← s.get "nonce_validity_secs" 0 number? d.nonceValiditySecs,
    ← s.get "anonymous_domain" 1 text? d.anonymousDomain⟩

def timeouts? (v : Value) : Option Timeouts := do
  let s ← settings? v
  let d : Timeouts := {}
  return ⟨← s.get "request_secs" 0 number? d.requestSecs, ← s.get "shutdown_secs" 1 number? d.shutdownSecs⟩

def security? (v : Value) : Option Security := do
  let s ← settings? v
  let d : Security := {}
  return ⟨← s.get "max_body_size" 0 number? d.maxBodySize⟩

def observability? (v : Value) : Option Observability := do
  let s ← settings? v
  let d : Observability := {}
  return ⟨← s.get "log_level" 0 text? d.logLevel, ← s.get "metrics_enabled" 1 flag? d.metricsEnabled,
    ← s.get "metrics_address" 2 text? d.metricsAddress⟩

def ofEntries? (es : Toml.Entries) : Option Config := do
  let s : Settings := fun name _ => es.lookup name
  return ⟨← s.get "listener" 0 listener? {}, ← s.get "storage" 1 storage? {}, ← s.get "auth" 2 auth? {},
    ← s.get "timeouts" 3 timeouts? {}, ← s.get "security" 4 security? {},
    ← s.get "observability" 5 observability? {}⟩

def parse? (file : Text) : Option Config := (Toml.parse file).bind ofEntries?

end EntryServer.Config
