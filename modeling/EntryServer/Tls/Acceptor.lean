import EntryServer.Config.Basic
import EntryServer.Files.Path
import EntryServer.Tls.Certificate
import EntryServer.Tls.PublicKey

/-! # Setting up encryption

Encrypted connections need a certificate and its private key. Both files are taken from the configuration,
or found in the root directory of the store if none are configured. Without them connections are plain. -/
namespace EntryServer.Tls
set_option autoImplicit false

inductive SetupError
  | unreadable (path : Text) (error : SystemError)
  | noCertificate (path : Text)
  | noPrivateKey (path : Text)
  /-- The key is not one that can be used, or it is not the key of the certificate. -/
  | rejected
  deriving DecidableEq, Repr

def SetupError.message : SetupError → Text
  | unreadable path e => "Failed to read ".toList ++ path ++ ": ".toList ++ e.text.toList
  | noCertificate path => "No certificate in ".toList ++ path
  | noPrivateKey path => "No private key in ".toList ++ path
  | rejected => "Invalid TLS configuration".toList

structure Acceptor where
  /-- The certificate of the server, and those of the authorities behind it. -/
  chain : List Bytes
  form : Pem.KeyForm
  key : Bytes
  deriving DecidableEq, Repr

def readFile (t : FileTree) (path : Text) : Except SetupError Bytes :=
  match t.readPath path with
  | .ok content => .ok content
  | .error e => .error (.unreadable path e.toSystem)

def faulty (path : Text) (fault : Pem.Fault) : SetupError :=
  .unreadable path ⟨.invalidData, String.ofList fault.message⟩

def readChain (t : FileTree) (path : Text) : Except SetupError (List Bytes) := do
  match Pem.certificates (← readFile t path) with
  | .error fault => .error (faulty path fault)
  | .ok [] => .error (.noCertificate path)
  | .ok chain => .ok chain

def readKey (t : FileTree) (path : Text) : Except SetupError (Pem.KeyForm × Bytes) := do
  match Pem.privateKey (← readFile t path) with
  | .error fault => .error (faulty path fault)
  | .ok none => .error (.noPrivateKey path)
  | .ok (some key) => .ok key

/-- Does a private key belong to the first certificate of a chain? -/
def Acceptor.fits (a : Acceptor) : Bool :=
  match publicKey? a.form a.key, a.chain.head?.bind certifiedKey? with
  | some key, some certified => key.info == certified
  | _, _ => false

/-- Reads the certificate file, then the key file, and compares them. -/
def readAcceptor (t : FileTree) (files : Config.TlsFiles) : Except SetupError Acceptor := do
  let chain ← readChain t files.certPath
  let (form, key) ← readKey t files.keyPath
  let acceptor : Acceptor := ⟨chain, form, key⟩
  if acceptor.fits then .ok acceptor else .error .rejected

/-- The files in the root directory of the store that stand in for configured ones. -/
def defaultFiles (storeRoot : Text) : Config.TlsFiles :=
  ⟨FileTree.joinPath storeRoot "cert.pem".toList, FileTree.joinPath storeRoot "key.pem".toList⟩

/-- The acceptor of a server, if it has one. -/
def resolveAcceptor (t : FileTree) (c : Config) : Except SetupError (Option Acceptor) :=
  match c.listener.tls with
  | some files => (readAcceptor t files).map some
  | none =>
    let files := defaultFiles c.storage.root
    if t.isFilePath files.certPath && t.isFilePath files.keyPath then (readAcceptor t files).map some
    else .ok none

end EntryServer.Tls
