import EntryServer.CommandLine
import EntryServer.Startup

/-! # The program

From the command line to a service that is ready, or to the code with which the program ends. Faults of the
configuration are reported; once the configuration stands, failures go to the log. -/
namespace EntryServer.Program
set_option autoImplicit false

structure Ending where
  code : Nat
  report : Text
  deriving DecidableEq, Repr

namespace Ending

def success : Ending := ⟨0, []⟩

def usage (e : CommandLine.UsageError) : Ending := ⟨2, e.message ++ ['\n']⟩

def unreadable (e : Config.LoadError) : Ending := ⟨1, e.message ++ ['\n']⟩

/-- The configuration has faults. Each has a line of its own. -/
def invalid (faults : List Config.Fault) : Ending :=
  ⟨1, faults.flatMap fun f => "invalid configuration: ".toList ++ f.message ++ ['\n']⟩

/-- The service cannot be started. More connections than can be counted end the program at once. -/
def ofStartup : Startup.Error → Ending
  | .listener .tooManySlots => ⟨101, []⟩
  | _ => ⟨1, []⟩

end Ending

/-- The configuration of the program: the file that is named, if any, with the settings of the command
line. -/
def configure (file : Option (Except SystemError Bytes)) (overrides : Config.Overrides) :
    Except Ending Config := do
  let c ← match file with
    | none => .ok {}
    | some file => (Config.read file).mapError Ending.unreadable
  let c := c.overriddenBy overrides
  if Config.faults c = [] then .ok c else .error (.invalid (Config.faults c))

def configFile (t : FileTree) (path : Text) : Except SystemError Bytes :=
  (t.readPath path).mapError FileError.toSystem

/-- Runs the program in a tree of files, until the service is ready. -/
def start (arguments : List Text) (t : FileTree) : Except Ending Startup.Prepared := do
  match ← (CommandLine.parse arguments).mapError Ending.usage with
  | .help => .error .success
  | .serve options =>
    let c ← configure (options.config.map (configFile t)) options.overrides
    (Startup.prepare c t).1.mapError Ending.ofStartup

end EntryServer.Program
