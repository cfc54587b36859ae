import EntryServer.Config.Reader
import EntryServer.Logging
import EntryServer.Net.SocketAddress
import EntryServer.Text.Quoted

/-! # Checking a configuration

A configuration that has been read may still not make sense. All its faults are reported, in the order of
the settings. -/
namespace EntryServer.Config
set_option autoImplicit false

/-- What is wrong with a setting, which is named with its section. -/
inductive Fault
  | invalidAddress (setting : String) (value : Text)
  | zero (setting : String)
  | empty (setting : String)
  | invalidDomain (setting : String) (value : Text)
  | unknownLevel (value : Text)
  deriving DecidableEq, Repr

def Fault.message : Fault → Text
  | invalidAddress setting value => setting.toList ++ ": invalid socket address ".toList ++ Quoted.quote value
  | zero setting => setting.toList ++ " must be greater than zero".toList
  | empty setting => setting.toList ++ " must not be empty".toList
  | invalidDomain setting value =>
    setting.toList ++ ": ".toList ++ Quoted.quote value ++ " is not a valid domain name".toList
  | unknownLevel value => "observability.log_level: unknown level ".toList ++ Quoted.quote value

def unless_ (holds : Bool) (fault : Fault) : List Fault := if holds then [] else [fault]

/-- Can a domain have this name? It has to be a single name, and not that of the marker. -/
def isDomainName (name : Text) : Bool :=
  Acl.isUser name && name ≠ Acl.inherit

def faults (c : Config) : List Fault :=
  unless_ (Net.isSocketAddress c.listener.bindAddress)
      (.invalidAddress "listener.bind_address" c.listener.bindAddress) ++
  unless_ (0 < c.listener.maxConnections) (.zero "listener.max_connections") ++
  (match c.listener.tls with
  | none => []
  | some tls =>
    unless_ (tls.certPath ≠ []) (.empty "listener.tls.cert_path") ++
    unless_ (tls.keyPath ≠ []) (.empty "listener.tls.key_path")) ++
  unless_ (c.storage.root ≠ []) (.empty "storage.root") ++
  unless_ (0 < c.auth.nonceValiditySecs) (.zero "auth.nonce_validity_secs") ++
  unless_ (isDomainName c.auth.anonymousDomain)
      (.invalidDomain "auth.anonymous_domain" c.auth.anonymousDomain) ++
  unless_ (0 < c.timeouts.requestSecs) (.zero "timeouts.request_secs") ++
  unless_ (0 < c.security.maxBodySize) (.zero "security.max_body_size") ++
  unless_ (Logging.levels.contains (Ascii.lower c.observability.logLevel)) (.unknownLevel c.observability.logLevel) ++
  unless_ (!c.observability.metricsEnabled || Net.isSocketAddress c.observability.metricsAddress)
      (.invalidAddress "observability.metrics_address" c.observability.metricsAddress)

/-! ## Loading -/

inductive LoadError
  | system (error : SystemError)
  /-- The file is malformed, or a setting has the wrong kind. -/
  | malformed
  | invalid (faults : List Fault)
  deriving DecidableEq, Repr

/-- The text of an error. What exactly is malformed is left open. -/
def LoadError.message : LoadError → Text
  | system e => "IO error: ".toList ++ e.text.toList
  | malformed => "Parse error:".toList
  | invalid faults => "Validation failed: ".toList ++ List.intercalate ", ".toList (faults.map Fault.message)

def notText : SystemError := ⟨.invalidData, "stream did not contain valid UTF-8"⟩

/-- Reads the content of a configuration file without checking it, so that settings can still be
overridden. -/
def read (file : Except SystemError Bytes) : Except LoadError Config :=
  match file with
  | .error e => .error (.system e)
  | .ok content =>
    match Utf8.decode? content with
    | none => .error (.system notText)
    | some text =>
      match parse? text with
      | none => .error .malformed
      | some c => .ok c

def load (file : Except SystemError Bytes) : Except LoadError Config :=
  match read file with
  | .error e => .error e
  | .ok c => if faults c = [] then .ok c else .error (.invalid (faults c))

end EntryServer.Config
