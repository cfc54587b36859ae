import EntryServer.Toml.Scalar

/-! # Configuration files

A file is a sequence of lines: comments, headers that open a table, and keys with their values, which go
into the table that is open. -/
namespace EntryServer.Toml
set_option autoImplicit false

/-- Arrays and tables in braces are nested less deeply than this, and keys have fewer parts. -/
def depthLimit : Nat := 80

/-! ## Keys -/

def isKeyChar (c : Char) : Bool := c.isAlphanum || c = '_' || c = '-'

def simpleKey (s : Text) : Option (Text × Text) :=
  match s with
  | '"' :: _ | '\'' :: _ => lineString s
  | _ => if s.takeWhile isKeyChar = [] then none else some (s.takeWhile isKeyChar, s.dropWhile isKeyChar)

/-- The parts of a key after the first one, with blanks around the dots. -/
def moreKeys : Nat → Reader (List Text)
  | 0, _ => none
  | fuel + 1, '.' :: r =>
    (simpleKey (skipBlanks r)).bind fun (key, r) =>
      (moreKeys fuel (skipBlanks r)).map fun (keys, r) => (key :: keys, r)
  | _ + 1, s => some ([], s)

/-- A key with blanks around it: the path to its table and its last part. -/
def key (s : Text) : Option ((List Text × Text) × Text) := do
  let (first, r) ← simpleKey (skipBlanks s)
  let (rest, r) ← moreKeys (r.length + 1) (skipBlanks r)
  let parts := first :: rest
  if parts.length < depthLimit then some ((parts.dropLast, parts.getLast?.getD []), r) else none

/-! ## Values -/

/-- Blanks, comments and line endings. -/
def skipLines : Nat → Text → Option Text
  | 0, _ => none
  | fuel + 1, s =>
    match skipBlanks s with
    | '#' :: r =>
      match newline? (skipComment ('#' :: r)) with
      | some r => skipLines fuel r
      | none => none
    | s =>
      match newline? s with
      | some r => skipLines fuel r
      | none => some s

def blankLines (s : Text) : Option Text := skipLines (s.length + 1) s

/-- The items of an array after its opening bracket, with the closing one. -/
def arrayItems (item : Reader Value) : Nat → Reader (List Value)
  | 0, _ => none
  | fuel + 1, s => do
    match ← blankLines s with
    | ']' :: r => some ([], r)
    | s =>
      let (v, r) ← item s
      match ← blankLines r with
      | ',' :: r => (arrayItems item fuel r).map fun (vs, r) => (v :: vs, r)
      | ']' :: r => some ([v], r)
      | _ => none

/-- The pairs of a table in braces from the first one on, with the closing brace. -/
def inlinePairs (item : Reader Value) : Nat → Entries → Reader Entries
  | 0, _, _ => none
  | fuel + 1, done, s => do
    let ((path, name), r) ← key s
    let (_, r) ← literal ['='] r
    let (v, r) ← item (skipBlanks r)
    let done ← addPair path name v .inline done
    match skipBlanks r with
    | ',' :: r => inlinePairs item fuel done r
    | '\x7d' :: r => some (done, r)
    | _ => none

def inlineTable (item : Reader Value) (s : Text) : Option (Entries × Text) :=
  match skipBlanks s with
  | '\x7d' :: r => some ([], r)
  | s => inlinePairs item (s.length + 1) [] s

def value : Nat → Reader Value
  | room, '[' :: r =>
    match room with
    | 0 => none
    | room + 1 => (arrayItems (value room) (r.length + 1) r).map fun (vs, r) => (.array vs, r)
  | room, '\x7b' :: r =>
    match room with
    | 0 => none
    | room + 1 => (inlineTable (value room) r).map fun (es, r) => (.table .inline es, r)
  | _, s => scalar s

/-! ## Lines -/

def lineEnd (s : Text) : Option Text :=
  match skipComment (skipBlanks s) with
  | [] => some []
  | s => newline? s

structure Reading where
  whole : Entries
  open_ : Entries
  /-- The path to the open table, and its name, if it has a header. -/
  at_ : Option (List Text × Text)
  /-- Is the open table one of several? -/
  several : Bool

def Reading.close (d : Reading) : Option Entries :=
  match d.at_ with
  | none => some d.open_
  | some (path, name) =>
    let place (_ : Origin) (es : Entries) : Option (Unit × Entries) :=
      match es.lookup name with
      | none =>
        let table : Value := .table .header d.open_
        some ((), es ++ [(name, if d.several then .tables [table] else table)])
      | some (.tables items) =>
        if d.several then some ((), es.set name (.tables (items ++ [.table .header d.open_]))) else none
      | some _ => none
    (change false place path .header d.whole).map (·.2)

/-- Opens a table that has a single header. An implied table keeps what is in it. -/
def openTable (path : List Text) (name : Text) (whole : Entries) : Option Reading :=
  let take (_ : Origin) (es : Entries) : Option (Entries × Entries) :=
    match es.lookup name with
    | none => some ([], es)
    | some (.table .implied sub) => some (sub, es.filter fun kv => kv.1 ≠ name)
    | some _ => none
  (change false take path .header whole).map fun (sub, whole) => ⟨whole, sub, some (path, name), false⟩

/-- Opens one more table of several with the same header. -/
def openOneOf (path : List Text) (name : Text) (whole : Entries) : Option Reading :=
  let check (_ : Origin) (es : Entries) : Option (Unit × Entries) :=
    match es.lookup name with
    | none | some (.tables _) => some ((), es)
    | some _ => none
  (change false check path .header whole).map fun ((), whole) => ⟨whole, [], some (path, name), true⟩

def header (d : Reading) (s : Text) : Option (Reading × Text) := do
  let whole ← d.close
  match s with
  | '[' :: r =>
    let ((path, name), r) ← key r
    let (_, r) ← literal [']', ']'] r
    let d ← openOneOf path name whole
    some (d, ← lineEnd r)
  | r =>
    let ((path, name), r) ← key r
    let (_, r) ← literal [']'] r
    let d ← openTable path name whole
    some (d, ← lineEnd r)

def pair (d : Reading) (s : Text) : Option (Reading × Text) := do
  let ((path, name), r) ← key s
  let (_, r) ← literal ['='] r
  let (v, r) ← value (depthLimit - 1) (skipBlanks r)
  let r ← lineEnd r
  let entries ← addPair path name v .header d.open_
  some ({ d with open_ := entries }, r)

def lines : Nat → Reading → Text → Option Reading
  | 0, _, _ => none
  | fuel + 1, d, s =>
    match skipBlanks s with
    | [] => some d
    | '[' :: r => (header d r).bind fun (d, r) => lines fuel d r
    | c :: r =>
      if c = '#' ∨ c = '\n' ∨ c = '\r' then (lineEnd (c :: r)).bind fun r => lines fuel d r
      else (pair d (c :: r)).bind fun (d, r) => lines fuel d r

/-- The tables of a file, if it is well formed. A byte order mark at its start is skipped. -/
def parse (file : Text) : Option Entries :=
  let s := if file.head? = some '\uFEFF' then file.tail else file
  (lines (s.length + 1) ⟨[], [], none, false⟩ s).bind (·.close)

end EntryServer.Toml
