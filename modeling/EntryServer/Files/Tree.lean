import EntryServer.EntryPath.Place
import EntryServer.Files.Error
import EntryServer.Text.Utf8

/-! # A tree of files

The directory that a store lives in, with everything below it. A name leads to a directory or to a file,
and a file is a number under which its content is kept, so an open file stays the same file when its name
changes or disappears. Names are texts. A directory may hold other names as well, which no path that is made of
texts goes through. They go and stay with their directory.

Of what a system can refuse, only what follows from names and places is modelled: not that access is denied or a
device fails. There are no links.

Every operation first walks to the slot that a location names. The first fault on the way decides, which
fixes the error of each operation. -/
namespace EntryServer
set_option autoImplicit false

/-- What a name leads to. -/
inductive Node
  /-- A file, by the number of its content. -/
  | file (blob : Nat)
  | directory
  deriving DecidableEq, Repr

/-- A name in a directory that is no text, with all that it leads to. -/
structure Stray where
  folder : Location
  name : Bytes
  noText : Utf8.decode? name = none
  deriving DecidableEq, Repr

structure FileTree where
  /-- The text of the directory that the tree hangs below, with a slash at its end. -/
  root : Text
  /-- Every file and directory below the root, once. -/
  nodes : List (Location × Node)
  /-- The contents of all files there have been. -/
  blobs : Array Bytes
  strays : List Stray := []
  deriving DecidableEq, Repr

namespace FileTree

/-- The empty directory with this text. -/
def empty (root : Text) : FileTree := { root := root, nodes := [], blobs := #[] }

/-! ## Looking things up -/

/-- The longest name, in bytes. -/
def nameLimit : Nat := 255

/-- The length that a whole path stays below, in bytes. -/
def pathLimit : Nat := 4096

/-- The length of the names, each with the slash before or after it. -/
def namesSize (at_ : Location) : Nat := at_.foldr (fun name n => Utf8.size name + 1 + n) 0

def pathSize (t : FileTree) (at_ : Location) : Nat := Utf8.size t.root + namesSize at_ - 1

/-- The length of the path of a directory, with a slash at its end. -/
def folderSize (t : FileTree) (at_ : Location) : Nat := Utf8.size t.root + namesSize at_

def node? (t : FileTree) (at_ : Location) : Option Node :=
  if at_ = [] then some .directory else t.nodes.lookup at_

def blob (t : FileTree) (i : Nat) : Bytes := t.blobs.getD i []

/-- What stands at a location, with the first fault on the way there. -/
def walk (t : FileTree) : Location → Except FileError (Option Node)
  | [] => .ok (some .directory)
  | name :: folder =>
    match t.walk folder with
    | .error e => .error e
    | .ok none => .error .notFound
    | .ok (some (.file _)) => .error .notADirectory
    | .ok (some .directory) =>
      if nameLimit < Utf8.size name then .error .nameTooLong else .ok (t.node? (name :: folder))

/-- What stands at a location that the system accepts as a path. -/
def slot (t : FileTree) (at_ : Location) : Except FileError (Option Node) :=
  if at_.any (·.contains '\x00') then .error .nulInName
  else if pathLimit ≤ t.pathSize at_ then .error .nameTooLong
  else t.walk at_

/-- What stands at a location whose path has a slash at its end. The slash counts for the length, and after it only
a directory will do. -/
def folderSlot (t : FileTree) (at_ : Location) : Except FileError (Option Node) :=
  if !at_.any (·.contains '\x00') ∧ pathLimit ≤ t.folderSize at_ then .error .nameTooLong
  else
    match t.slot at_ with
    | .ok (some (.file _)) => .error .notADirectory
    | there => there

def isFile (t : FileTree) (at_ : Location) : Bool :=
  match t.slot at_ with
  | .ok (some (.file _)) => true
  | _ => false

def isDirectory (t : FileTree) (at_ : Location) : Bool :=
  match t.slot at_ with
  | .ok (some .directory) => true
  | _ => false

/-- Is there a directory at a path with a slash at its end? -/
def isFolder (t : FileTree) (at_ : Location) : Bool :=
  match t.folderSlot at_ with
  | .ok (some _) => true
  | _ => false

def read (t : FileTree) (at_ : Location) : Except FileError Bytes :=
  match t.slot at_ with
  | .error e => .error e
  | .ok none => .error .notFound
  | .ok (some .directory) => .error .isADirectory
  | .ok (some (.file i)) => .ok (t.blob i)

def namesIn (t : FileTree) (folder : Location) : List Text :=
  t.nodes.filterMap fun (at_, _) =>
    match at_ with
    | name :: up => if up = folder then some name else none
    | [] => none

def list (t : FileTree) (folder : Location) : Except FileError (List Text) :=
  match t.folderSlot folder with
  | .error e => .error e
  | .ok none => .error .notFound
  | .ok (some _) => .ok (t.namesIn folder)

/-! ## Changing names -/

def put (t : FileTree) (at_ : Location) (node : Node) : FileTree :=
  { t with nodes := t.nodes.filter (fun kv => kv.1 ≠ at_) ++ [(at_, node)] }

def erase (t : FileTree) (at_ : Location) : FileTree :=
  { t with nodes := t.nodes.filter fun kv => kv.1 ≠ at_ }

/-- Removes a directory with everything below it. -/
def eraseBranch (t : FileTree) (at_ : Location) : FileTree :=
  { t with
    nodes := t.nodes.filter fun kv => !at_.isSuffixOf kv.1
    strays := t.strays.filter fun s => !at_.isSuffixOf s.folder }

/-- Where something is found when another place is given to a location and to everything below it. -/
def movedTo (source target at_ : Location) : Location :=
  if source.isSuffixOf at_ then at_.take (at_.length - source.length) ++ target else at_

/-- Gives everything at and below a location a place at and below another one. -/
def moveBranch (t : FileTree) (source target : Location) : FileTree :=
  { t with
    nodes := t.nodes.map fun (at_, node) => (movedTo source target at_, node)
    strays := t.strays.map fun s => { s with folder := movedTo source target s.folder } }

def straysIn (t : FileTree) (folder : Location) : List Stray := t.strays.filter (·.folder = folder)

def eraseStray (t : FileTree) (s : Stray) : FileTree := { t with strays := t.strays.filter (· ≠ s) }

/-- The length of the path to a stray name, in bytes. -/
def straySize (t : FileTree) (s : Stray) : Nat := Utf8.size t.root + namesSize s.folder + s.name.length

def makeDirectory (t : FileTree) (at_ : Location) : Except FileError FileTree :=
  match t.slot at_ with
  | .error e => .error e
  | .ok (some _) => .error .alreadyExists
  | .ok none => .ok (t.put at_ .directory)

/-- What an attempt to make a directory comes to, where an existing one is as good. -/
def madeOrThere (t : FileTree) (at_ : Location) : Except FileError Unit × FileTree :=
  match t.makeDirectory at_ with
  | .ok t => (.ok (), t)
  | .error e => (if t.isDirectory at_ then .ok () else .error e, t)

/-- Makes a directory and those that are missing on the way to it. Those that were made stay if a later
one cannot be made. -/
def makeDirectories (t : FileTree) : Location → Except FileError Unit × FileTree
  | [] => t.madeOrThere []
  | name :: folder =>
    match t.makeDirectory (name :: folder) with
    | .error .notFound =>
      match t.makeDirectories folder with
      | (.error e, t) => (.error e, t)
      | (.ok (), t) => t.madeOrThere (name :: folder)
    | _ => t.madeOrThere (name :: folder)

def unlink (t : FileTree) (at_ : Location) : Except FileError FileTree :=
  match t.slot at_ with
  | .error e => .error e
  | .ok none => .error .notFound
  | .ok (some .directory) => .error .isADirectory
  | .ok (some (.file _)) => .ok (t.erase at_)

/-- Removes a file, or a directory with everything below it. -/
def remove (t : FileTree) (at_ : Location) : Except FileError FileTree :=
  match t.slot at_ with
  | .error e => .error e
  | .ok none => .error .notFound
  | .ok (some .directory) => .ok (t.eraseBranch at_)
  | .ok (some (.file _)) => .ok (t.erase at_)

/-- Removes a directory with everything below it, by a path with a slash at its end. -/
def removeFolder (t : FileTree) (folder : Location) : Except FileError FileTree :=
  match t.folderSlot folder with
  | .error e => .error e
  | .ok none => .error .notFound
  | .ok (some _) => .ok (t.eraseBranch folder)

/-- Gives a file or directory another name. A file replaces a file, and a directory an empty one. -/
def rename (t : FileTree) (source target : Location) : Except FileError FileTree :=
  match t.slot source, t.slot target with
  | .error e, _ => .error e
  | _, .error e => .error e
  | .ok none, .ok _ => .error .notFound
  | .ok (some (.file _)), .ok (some .directory) => .error .isADirectory
  | .ok (some (.file i)), .ok _ => .ok ((t.erase source).put target (.file i))
  | .ok (some .directory), .ok (some (.file _)) => .error .notADirectory
  | .ok (some .directory), .ok there =>
    if there.isSome ∧ (t.namesIn target ≠ [] ∨ t.straysIn target ≠ []) then .error .directoryNotEmpty
    else .ok ((t.erase target).moveBranch source target)

/-! ## Open files -/

/-- A file that is open for writing, and how far it has been written. -/
structure Handle where
  blob : Nat
  offset : Nat
  deriving DecidableEq, Repr

/-- Opens a file for writing from its start. A file that is there loses its content and stays the same
file. -/
def create (t : FileTree) (at_ : Location) : Except FileError (Handle × FileTree) :=
  match t.slot at_ with
  | .error e => .error e
  | .ok (some .directory) => .error .isADirectory
  | .ok (some (.file i)) => .ok (⟨i, 0⟩, { t with blobs := t.blobs.setIfInBounds i [] })
  | .ok none =>
    let i := t.blobs.size
    .ok (⟨i, 0⟩, { t.put at_ (.file i) with blobs := t.blobs.push [] })

/-- A content in which bytes are written from an offset on. A gap before them is filled with zeros. -/
def overwrite (old : Bytes) (offset : Nat) (new : Bytes) : Bytes :=
  if new = [] then old
  else old.take offset ++ List.replicate (offset - old.length) 0 ++ new ++ old.drop (offset + new.length)

/-- Writes on from where the handle stands. -/
def write (t : FileTree) (h : Handle) (bytes : Bytes) : Handle × FileTree :=
  (⟨h.blob, h.offset + bytes.length⟩,
    { t with blobs := t.blobs.setIfInBounds h.blob (overwrite (t.blob h.blob) h.offset bytes) })

end FileTree
end EntryServer
