import EntryServer.Text.Ascii

/-! # Values of a configuration file

Tables remember how they came to be, because that decides whether a later line may add to them. -/
namespace EntryServer.Toml
set_option autoImplicit false

/-- How a table came to be. -/
inductive Origin
  /-- By a header of its own, or as the whole file. -/
  | header
  /-- By the header of a table inside it. -/
  | implied
  /-- By a dotted key. -/
  | dotted
  /-- In braces. -/
  | inline
  deriving DecidableEq, Repr

inductive Value
  | string (t : Text)
  | integer (n : Int)
  /-- A floating-point number. No setting is one, so its size is not kept. -/
  | float
  | boolean (b : Bool)
  /-- A date, a time, or both. No setting is one, so it is not kept. -/
  | datetime
  | array (items : List Value)
  | table (origin : Origin) (entries : List (Text × Value))
  /-- The tables of headers in double brackets. -/
  | tables (items : List Value)

/-- The contents of a table, in the order of the file. -/
abbrev Entries := List (Text × Value)

/-! ## Adding to tables -/

def Entries.set (es : Entries) (key : Text) (v : Value) : Entries :=
  es.map fun kv => if kv.1 = key then (key, v) else kv

/-- Changes the table at the end of a path, and makes the missing tables on the way. A path of a `dotted`
key does not lead through tables that have a header. Values and tables in braces are closed. -/
def change {α : Type} (dotted : Bool) (f : Origin → Entries → Option (α × Entries)) :
    List Text → Origin → Entries → Option (α × Entries)
  | [], origin, es => f origin es
  | key :: path, _, es =>
    let fresh : Origin := if dotted then .dotted else .implied
    match es.lookup key with
    | none => (change dotted f path fresh []).map fun (a, sub) => (a, es ++ [(key, .table fresh sub)])
    | some (.table origin sub) =>
      if origin = .inline ∨ (dotted ∧ origin = .header) then none
      else (change dotted f path origin sub).map fun (a, sub) => (a, es.set key (.table origin sub))
    | some (.tables items) =>
      match items.getLast? with
      | some (.table origin sub) =>
        (change dotted f path origin sub).map fun (a, sub) =>
          (a, es.set key (.tables (items.dropLast ++ [.table origin sub])))
      | _ => none
    | some _ => none

/-- Adds a key and its value to a table. The tables on the way to a dotted key have to be made by dotted
keys, and no key is given twice. -/
def addPair (path : List Text) (key : Text) (v : Value) (origin : Origin) (es : Entries) :
    Option Entries :=
  let add (o : Origin) (es : Entries) : Option (Unit × Entries) :=
    if o = .dotted ↔ path = [] then none
    else if (es.lookup key).isSome then none
    else some ((), es ++ [(key, v)])
  (change true add path origin es).map (·.2)

end EntryServer.Toml
