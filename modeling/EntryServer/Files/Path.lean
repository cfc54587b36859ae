import EntryServer.EntryPath.Place
import EntryServer.Files.Tree
import EntryServer.Text.Split

/-! # Paths of files

A configured file is given by a path as people write it. Such a path is followed name by name through the
tree that holds the files, and every name but the last has to be that of a directory. A path leads from the
root of the tree, whether it says so or not. -/
namespace EntryServer.FileTree
set_option autoImplicit false

/-- The part of a path below the root of the tree. -/
def belowRoot (t : FileTree) (path : Text) : Text :=
  match (t.root.dropLast).isPrefixOf? path with
  | some ('/' :: rest) => rest
  | some [] => ['/']
  | _ => path

/-- Follows names from a location. -/
def follow (t : FileTree) (at_ : Location) : List Text → Except FileError Location
  | [] => .ok at_
  | name :: rest =>
    match t.slot at_ with
    | .error e => .error e
    | .ok none => .error .notFound
    | .ok (some (.file _)) => .error .notADirectory
    | .ok (some .directory) =>
      if name = [] ∨ name = ['.'] then t.follow at_ rest
      else if name = ['.', '.'] then t.follow at_.tail rest
      else t.follow (name :: at_) rest

/-- The location that a path leads to. -/
def locate (t : FileTree) (path : Text) : Except FileError Location :=
  if path = [] then .error .notFound else t.follow [] ((t.belowRoot path).splitOn '/')

def readPath (t : FileTree) (path : Text) : Except FileError Bytes :=
  match t.locate path with
  | .error e => .error e
  | .ok at_ => t.read at_

def isFilePath (t : FileTree) (path : Text) : Bool :=
  match t.locate path with
  | .error _ => false
  | .ok at_ => t.isFile at_

/-- Makes the directory that a path names, with those that are missing on the way to it. The empty path
needs none. -/
def makePath (t : FileTree) (path : Text) : Except FileError Unit × FileTree :=
  if path = [] then (.ok (), t) else t.makeDirectories (EntryPath.clean (t.belowRoot path))

/-- The path of a file in a directory. -/
def joinPath (folder name : Text) : Text :=
  if folder = [] ∨ folder.getLast? = some '/' then folder ++ name else folder ++ ['/'] ++ name

end EntryServer.FileTree
