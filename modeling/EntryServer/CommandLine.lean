import EntryServer.Config.Validation

/-! # The command line

Three options, each with a value: the configuration file, the address to listen at, and the root directory
of the store. A value stands in an argument of its own or in that of its option, after an equals sign that a
short option may leave out. An argument that begins with a dash, other than a dash alone, is no value of its
own. -/
namespace EntryServer.CommandLine
set_option autoImplicit false

inductive Setting
  | config
  | listen
  | root
  deriving DecidableEq, Repr

namespace Setting

def all : List Setting := [config, listen, root]

def longName : Setting → Text
  | config => "config".toList
  | listen => "listen".toList
  | root => "root".toList

def shortName (s : Setting) : Option Char := s.longName.head?

end Setting

structure Options where
  config : Option Text := none
  overrides : Config.Overrides := {}
  deriving DecidableEq, Repr

inductive Request
  | help
  | serve (options : Options)
  deriving DecidableEq, Repr

inductive UsageError
  | unexpected (argument : Text)
  | noValue (setting : Setting)
  | repeated (setting : Setting)
  | emptyPath
  deriving DecidableEq, Repr

def UsageError.message : UsageError → Text
  | unexpected argument => "unexpected argument ".toList ++ argument
  | noValue s => "a value is required for --".toList ++ s.longName
  | repeated s => "--".toList ++ s.longName ++ " cannot be used multiple times".toList
  | emptyPath => "the path of the configuration file is empty".toList

/-! ## One argument -/

inductive Argument
  | help
  /-- No options come after it. -/
  | terminator
  /-- An option, with its value if that is in the same argument. -/
  | setting (s : Setting) (value : Option Text)
  | unknown
  deriving DecidableEq, Repr

def longArgument (t : Text) : Argument :=
  let name := t.takeWhile (· ≠ '=')
  let value := match t.dropWhile (· ≠ '=') with
    | [] => none
    | _ :: value => some value
  if t = "help".toList then .help
  else match Setting.all.find? fun s => s.longName = name with
    | some s => .setting s value
    | none => .unknown

def shortArgument (name : Char) (following : Text) : Argument :=
  let value := match following with
    | [] => none
    | '=' :: value => some value
    | value => some value
  if name = 'h' then .help
  else match Setting.all.find? fun s => s.shortName = some name with
    | some s => .setting s value
    | none => .unknown

def Argument.ofText : Text → Argument
  | ['-', '-'] => .terminator
  | '-' :: '-' :: long => longArgument long
  | '-' :: name :: following => shortArgument name following
  | _ => .unknown

/-- Can an argument be the value of the option before it? -/
def isValue : Text → Bool
  | ['-'] => true
  | '-' :: _ => false
  | _ => true

/-! ## All arguments -/

/-- Gives a setting its value, once. -/
def Options.set (o : Options) (s : Setting) (value : Text) : Except UsageError Options :=
  match s with
  | .config =>
    if o.config.isSome then .error (.repeated s)
    else if value = [] then .error .emptyPath
    else .ok { o with config := some value }
  | .listen =>
    if o.overrides.listen.isSome then .error (.repeated s)
    else .ok { o with overrides := { o.overrides with listen := some value } }
  | .root =>
    if o.overrides.root.isSome then .error (.repeated s)
    else .ok { o with overrides := { o.overrides with root := some value } }

/-- Reads arguments one after the other. The first one that asks for help or is not understood decides. -/
def parseFrom (o : Options) : List Text → Except UsageError Request
  | [] => .ok (.serve o)
  | argument :: rest =>
    match Argument.ofText argument, rest with
    | .help, _ => .ok .help
    | .unknown, _ => .error (.unexpected argument)
    | .terminator, [] => .ok (.serve o)
    | .terminator, next :: _ => .error (.unexpected next)
    | .setting s (some value), rest =>
      match o.set s value with
      | .error e => .error e
      | .ok o => parseFrom o rest
    | .setting s none, [] => .error (.noValue s)
    | .setting s none, value :: rest =>
      if !isValue value then .error (.noValue s)
      else match o.set s value with
        | .error e => .error e
        | .ok o => parseFrom o rest

def parse (arguments : List Text) : Except UsageError Request := parseFrom {} arguments

end EntryServer.CommandLine
