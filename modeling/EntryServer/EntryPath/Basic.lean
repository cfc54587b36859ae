import EntryServer.Text.Ascii

/-! # Entry paths

An entry of the store is named by the hops that lead to it from the store root: into a named child, into
the metadata of the entry reached so far, or to its container view. The last hop comes first, so going to
a child adds a hop in front and going to the parent takes one away.

Every operation of this module keeps a path canonical: the container marker stands only at the end or
before a metadata hop, never on the root and never twice. Two canonical paths are equal exactly if they
name the same place. -/
namespace EntryServer
set_option autoImplicit false

/-- One hop from an entry to another. -/
inductive Step
  /-- To the child with this name. -/
  | child (name : Text)
  | dir
  /-- To the root of the entry's metadata. -/
  | metadata
  deriving DecidableEq, Repr

/-- The way to an entry from the store root, the last hop first. -/
@[ext] structure EntryPath where
  hops : List Step
  deriving DecidableEq, Repr

namespace EntryPath

def root : EntryPath := ⟨[]⟩

/-- The way to an entry in the order in which it is walked. -/
def steps (p : EntryPath) : List Step := p.hops.reverse

def isRoot (p : EntryPath) : Bool := p.hops.isEmpty

/-- Is this the container view of an entry? The root is a container. -/
def isContainer (p : EntryPath) : Bool :=
  p.hops.isEmpty || p.hops.head? == some .dir

/-- The depth of an entry: each name and each metadata hop counts one. -/
def level (p : EntryPath) : Nat := p.hops.countP (· ≠ .dir)

def nameOf : List Step → Text
  | .child n :: _ => n
  | .dir :: above => nameOf above
  | _ => []

/-- The name of the last child hop. The root and metadata roots have the empty name. -/
def name (p : EntryPath) : Text := nameOf p.hops

/-! ## Views -/

/-- The container view, of the same level and name. -/
def dir (p : EntryPath) : EntryPath := if p.isContainer then p else ⟨.dir :: p.hops⟩

def file (p : EntryPath) : EntryPath :=
  match p.hops with
  | .dir :: above => ⟨above⟩
  | _ => p

/-- The root of the entry's metadata. -/
def parameters (p : EntryPath) : EntryPath := ⟨.metadata :: p.hops⟩

/-! ## Children -/

/-- Empty and `.` segments vanish, and `..` drops the segment before it if there is one. -/
def cleanStep (kept : List Text) (segment : Text) : List Text :=
  if segment = [] ∨ segment = ['.'] then kept
  else if segment = ['.', '.'] then kept.tail
  else segment :: kept

/-- The segments that a relative name walks through, the last one first. -/
def clean (name : Text) : List Text := (name.splitOn '/').foldl cleanStep []

def endsWithSlash (name : Text) : Bool := name.getLast? == some '/'

/-- The entry that a relative name of any number of segments leads to. A trailing `/` asks for the
container view; a name without segments leads to the container view of the entry itself. -/
def child (p : EntryPath) (name : Text) : EntryPath :=
  let kept := clean name
  if kept = [] then p.dir
  else
    let leaf : EntryPath := ⟨kept.map .child ++ p.file.hops⟩
    if endsWithSlash name then leaf.dir else leaf

/-- The child with exactly this name, which is one segment. -/
def literalChild (p : EntryPath) (name : Text) : EntryPath := ⟨.child name :: p.file.hops⟩

/-! ## Parents -/

/-- One hop up: a child leads to the container view of its parent, a metadata root to its owner. -/
def climb : List Step → Option EntryPath
  | [] => none
  | .child _ :: above => some (EntryPath.dir ⟨above⟩)
  | _ :: above => some ⟨above⟩

/-- The parent, if there is one. A container view gives the leaf view of the same entry, unless `force`
asks to climb on. -/
def parent (p : EntryPath) (force : Bool) : Option EntryPath :=
  match p.hops with
  | .dir :: above => if force then climb above else some ⟨above⟩
  | hops => climb hops

/-- A bound for the number of hops up: a marker counts one and every other hop two. -/
def weight (hops : List Step) : Nat := hops.foldr (fun s n => (if s = .dir then 1 else 2) + n) 0

theorem weight_cons (s : Step) (hops : List Step) :
    weight (s :: hops) = (if s = .dir then 1 else 2) + weight hops := rfl

theorem weight_dir_le (p : EntryPath) : weight p.dir.hops ≤ weight p.hops + 1 := by
  unfold dir
  split
  · omega
  · simp only [weight_cons, if_true]
    omega

theorem weight_climb {hops : List Step} {q : EntryPath} (h : climb hops = some q) :
    weight q.hops < weight hops := by
  match hops, h with
  | .child n :: above, h =>
    obtain rfl : EntryPath.dir ⟨above⟩ = q := by simpa [climb] using h
    have := weight_dir_le ⟨above⟩
    simp only [weight_cons, reduceCtorEq, if_false]
    simp only at this
    omega
  | .dir :: above, h =>
    obtain rfl : (⟨above⟩ : EntryPath) = q := by simpa [climb] using h
    simp only [weight_cons, if_true]
    omega
  | .metadata :: above, h =>
    obtain rfl : (⟨above⟩ : EntryPath) = q := by simpa [climb] using h
    simp only [weight_cons, reduceCtorEq, if_false]
    omega

theorem weight_parent {p q : EntryPath} (h : p.parent true = some q) :
    weight q.hops < weight p.hops := by
  unfold parent at h
  split at h
  · next above hp =>
    have := weight_climb (by simpa using h : climb above = some q)
    rw [hp, weight_cons]
    simp only [if_true]
    omega
  · exact weight_climb h

/-- The entry itself and everything above it, up to the root. -/
def ancestors (p : EntryPath) : List EntryPath :=
  match _h : p.parent true with
  | none => [p]
  | some q => p :: q.ancestors
termination_by weight p.hops
decreasing_by exact weight_parent ‹_›

end EntryPath
end EntryServer
