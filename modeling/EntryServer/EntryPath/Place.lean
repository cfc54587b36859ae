import EntryServer.EntryPath.Basic

/-! # Where an entry lies

All facets of an entry hang off one dot path: its content is at the dot path followed by `data`, a version
that is being written at the dot path followed by `data-tmp`, its children are in the directory at the dot
path followed by `dir/`, and its metadata is at the dot path followed by `meta`. The dot path is given as
text below the text of a root, and also as a list of directory names with the beginning of a file name. The
URL of an entry is its way below a site. -/
namespace EntryServer
set_option autoImplicit false

/-- The names on the way to a file or directory below the store root, the last name first. -/
abbrev Location := List Text

/-- The directory that the facets of an entry lie in, and what their names begin with. -/
structure Place where
  folder : Location
  stem : Text
  deriving DecidableEq, Repr

namespace Place

/-- The directory that holds the children. -/
def children (at_ : Place) : Location :=
  if at_.stem = [] then at_.folder else (at_.stem ++ "dir".toList) :: at_.folder

/-- The content. -/
def data (at_ : Place) : Location := (at_.stem ++ "data".toList) :: at_.folder

/-- A content that is being written. -/
def staging (at_ : Place) : Location := (at_.stem ++ "data-tmp".toList) :: at_.folder

end Place

namespace EntryPath

def placeOf : List Step → Place
  | [] => ⟨[], []⟩
  | .child n :: above => ⟨(placeOf above).children, n ++ ['.']⟩
  | .dir :: above => ⟨(placeOf above).children, []⟩
  | .metadata :: above => ⟨(placeOf above).folder, (placeOf above).stem ++ "meta".toList⟩

def place (p : EntryPath) : Place := placeOf p.hops

/-! ## Text -/

/-- The text of a root directory, which ends with a slash. -/
def rootText (folder : Text) : Text := if endsWithSlash folder then folder else folder ++ ['/']

/-- A dot path followed by what opens its children. -/
def opened (dot : Text) : Text := if endsWithSlash dot then dot else dot ++ "dir/".toList

def renderHops (root : Text) : List Step → Text
  | [] => root
  | .child n :: above => opened (renderHops root above) ++ n ++ ['.']
  | .dir :: above => opened (renderHops root above)
  | .metadata :: above => renderHops root above ++ "meta".toList

/-- The dot path below a root whose text ends with a slash. -/
def render (root : Text) (p : EntryPath) : Text := renderHops root p.hops

def dataText (root : Text) (p : EntryPath) : Text := p.render root ++ "data".toList

def stagingText (root : Text) (p : EntryPath) : Text := p.render root ++ "data-tmp".toList

/-- The directory of the children, with a slash at its end. -/
def childrenText (root : Text) (p : EntryPath) : Text := opened (p.render root)

/-! ## URLs -/

def Step.name? : Step → Option Text
  | .child n => some n
  | _ => none

/-- The URL of a way that starts at a site. It ends with a slash for the container view of a named
entry. Metadata has no URL, so the URL of its owner stands for it. -/
def urlOf (way : List Step) : Text :=
  let addressed := way.takeWhile (· ≠ .metadata)
  let names := addressed.filterMap Step.name?
  let url := '/' :: List.intercalate ['/'] names
  if addressed.getLast? = some .dir ∧ names ≠ [] then url ++ ['/'] else url

/-- The URL path below the site, if the entry is the site or lies in its branch. -/
def urlPathUnder (p site : EntryPath) : Option Text :=
  let base := site.file.hops
  if base <:+ p.hops then some (urlOf (p.hops.take (p.hops.length - base.length)).reverse) else none

end EntryPath
end EntryServer
