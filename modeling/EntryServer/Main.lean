import EntryServer.Program

/-! # The executable

Reads the files that the configuration names and prepares the service. All decisions are those of the
library; this module only moves bytes. -/
namespace EntryServer.Main
set_option autoImplicit false

def usageText : String :=
  "Usage: entry-server [-c|--config FILE] [-l|--listen ADDRESS] [-r|--root DIRECTORY] [-h|--help]\n"

def readSystemFile (path : Text) : IO (Except SystemError Bytes) := do
  try
    return .ok (← IO.FS.readBinFile (String.ofList path)).toList
  catch
    | .noFileOrDirectory .. => return .error FileError.notFound.toSystem
    | e => return .error ⟨.other, toString e⟩

/-- A tree that holds the files with these paths, as far as they can be read. -/
def gatherFiles (paths : List Text) : IO FileTree := do
  let mut tree := FileTree.empty ['/']
  for path in paths do
    if let .ok content ← readSystemFile path then
      let at_ := EntryPath.clean path
      let folders := (tree.makeDirectories at_.tail).2
      if let .ok (handle, made) := folders.create at_ then tree := (made.write handle content).2
  return tree

def finish (e : Program.Ending) : IO UInt32 := do
  IO.eprint (String.ofList e.report)
  return e.code.toUInt32

def prepare (options : CommandLine.Options) : IO UInt32 := do
  let file ← match options.config with
    | some path => some <$> readSystemFile path
    | none => pure none
  match Program.configure file options.overrides with
  | .error e => finish e
  | .ok c =>
    let root := c.storage.root
    try
      IO.FS.createDirAll (String.ofList root)
    catch _ => return 1
    let files := c.listener.tls.getD (Tls.defaultFiles root)
    let tree ← gatherFiles [files.certPath, files.keyPath]
    match (Startup.prepare c tree).1 with
    | .error e => finish (.ofStartup e)
    | .ok _ =>
      IO.println ("ready to serve " ++ String.ofList root ++ " at " ++ String.ofList c.listener.bindAddress)
      return 0

end EntryServer.Main

open EntryServer in
def main (arguments : List String) : IO UInt32 := do
  match CommandLine.parse (arguments.map String.toList) with
  | .error e => Main.finish (.usage e)
  | .ok .help =>
    IO.print Main.usageText
    return 0
  | .ok (.serve options) => Main.prepare options
