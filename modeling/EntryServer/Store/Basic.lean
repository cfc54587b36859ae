import EntryServer.Files.Tree
import EntryServer.Store.Error
import EntryServer.Text.Split

/-! # The store

Entries in a tree of files: reading, writing and deleting their content, listing their children and
removing whole branches. A new content is written beside the old one and takes its place in one step, so
a reader sees either the old content or all of the new one. -/
namespace EntryServer
set_option autoImplicit false

/-- An operation that changes the tree. What it has changed stays changed if it fails. -/
abbrev StoreM (α : Type) := ExceptT StoreError (StateM FileTree) α

namespace Store

/-! ## Reading -/

def hasData (t : FileTree) (p : EntryPath) : Bool := t.isFile p.place.data

def hasFolder (t : FileTree) (p : EntryPath) : Bool := t.isFolder p.place.children

def read (t : FileTree) (p : EntryPath) : Except StoreError Bytes :=
  match t.read p.place.data with
  | .ok bytes => .ok bytes
  | .error e => .error (.ofFile (p.dataText t.root) e)

/-! ## Children -/

/-- The name of the child that a file name belongs to, if it is that of a facet. -/
def childBase? (fileName : Text) : Option Text :=
  match Text.splitLast? '.' fileName with
  | none => none
  | some (base, facet) =>
    if base = [] ∨ base = ['.'] ∨ base = ['.', '.'] then none
    else if facet = "data".toList ∨ facet = "dir".toList ∨ "meta".toList.isPrefixOf facet then some base
    else none

/-- Puts a name into a strictly increasing list, once. -/
def insertSorted (name : Text) : List Text → List Text
  | [] => [name]
  | first :: rest =>
    if name = first then first :: rest
    else if name < first then name :: first :: rest
    else first :: insertSorted name rest

def sorted (names : List Text) : List Text := names.foldr insertSorted []

/-- The children, one for each name, in the order of their names. What is no text names no child. -/
def children (t : FileTree) (p : EntryPath) : Except StoreError (List EntryPath) :=
  match t.list p.place.children with
  | .ok names => .ok ((sorted (names.filterMap childBase?)).map p.literalChild)
  | .error .notFound => .ok []
  | .error e => .error (.ofFile (p.childrenText t.root) e)

/-! ## Writing -/

structure Writer where
  entry : EntryPath
  handle : FileTree.Handle
  deriving DecidableEq, Repr

/-- The directory of a path, without a slash at its end. -/
def folderOf (path : Text) : Text :=
  match (path.reverse.dropWhile (· ≠ '/')).dropWhile (· = '/') with
  | [] => ['/']
  | folder => folder.reverse

/-- Begins a new content, with the directories that it needs. -/
def create (p : EntryPath) : StoreM Writer := do
  let t ← get
  let staging := p.stagingText t.root
  match t.makeDirectories p.place.folder with
  | (.error e, t) =>
    set t
    throw (.ofFile (folderOf staging) e)
  | (.ok (), t) =>
    set t
    match t.create p.place.staging with
    | .error e => throw (.ofFile staging e)
    | .ok (handle, t) =>
      set t
      return ⟨p, handle⟩

def Writer.append (w : Writer) (t : FileTree) (bytes : Bytes) : Writer × FileTree :=
  let (handle, t) := t.write w.handle bytes
  ({ w with handle := handle }, t)

/-- Puts a new content into the place of the old one. -/
def Writer.commit (w : Writer) : StoreM Unit := do
  let t ← get
  match t.rename w.entry.place.staging w.entry.place.data with
  | .error e => throw (.ofFile (w.entry.dataText t.root) e)
  | .ok t => set t

def write (p : EntryPath) (bytes : Bytes) : StoreM Unit := do
  let w ← create p
  let (w, t) := w.append (← get) bytes
  set t
  w.commit

/-! ## Deleting -/

/-- A removal, where what is to be removed may be absent. -/
def removeBy (removal : FileTree → Except FileError FileTree) (path : Text) : StoreM Unit := do
  match removal (← get) with
  | .ok t => set t
  | .error .notFound => return
  | .error e => throw (.ofFile path e)

/-- Removes the content. It may be absent. -/
def delete (p : EntryPath) : StoreM Unit := do
  removeBy (·.unlink p.place.data) (p.dataText (← get).root)

/-- Removes whatever stands at a location. It may be absent. -/
def removeAny (path : Text) (at_ : Location) : StoreM Unit := removeBy (·.remove at_) path

/-- Removes a directory with everything below it. It may be absent. -/
def removeFolder (path : Text) (folder : Location) : StoreM Unit := removeBy (·.removeFolder folder) path

def removeAll (folderText : Text) (folder : Location) : List Text → StoreM Unit
  | [] => return
  | name :: rest => do
    removeAny (folderText ++ name) (name :: folder)
    removeAll folderText folder rest

/-- Is this the name of a metadata facet beside a stem? The content of a child may begin with the same
characters, but its name has a dot. -/
def isMetadataOf (stem fileName : Text) : Bool :=
  match (stem ++ "meta".toList).isPrefixOf? fileName with
  | some rest => rest ≠ [] && !rest.contains '.'
  | none => false

/-- Removes the listed names of a directory that may be absent. Names that are no texts are passed over. -/
def removeListed (folderText : Text) (folder : Location) (which : Text → Bool) : StoreM Unit := do
  match (← get).list folder with
  | .ok names => removeAll folderText folder (names.filter which)
  | .error .notFound => return
  | .error e => throw (.ofFile folderText e)

def removeStrays (folderText : Text) : List Stray → StoreM Unit
  | [] => return
  | s :: rest => do
    let t ← get
    if FileTree.pathLimit ≤ t.straySize s then throw (.ofFile (folderText ++ Utf8.decodeLossy s.name) .nameTooLong)
    set (t.eraseStray s)
    removeStrays folderText rest

/-- Removes everything in a directory that may be absent. -/
def emptyFolder (folderText : Text) (folder : Location) : StoreM Unit := do
  removeListed folderText folder fun _ => true
  removeStrays folderText ((← get).straysIn folder)

/-- Removes the content, the metadata and the children of an entry. The root directory is emptied and
stays. -/
def deleteAll (p : EntryPath) : StoreM Unit := do
  delete p
  let root := (← get).root
  let place := p.place
  let folderText := ((p.render root).reverse.dropWhile (· ≠ '/')).reverse
  removeListed folderText place.folder (isMetadataOf place.stem)
  if p.isRoot then emptyFolder (p.childrenText root) place.children
  else removeFolder (p.childrenText root) place.children

end Store
end EntryServer
