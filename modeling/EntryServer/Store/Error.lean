import EntryServer.Files.Error

/-! # Store errors

A failed operation of the store names the path that the failing step worked on. A missing file is told
apart from every other failure, because it only means that an entry is absent. -/
namespace EntryServer
set_option autoImplicit false

inductive StoreError
  | notFound (path : Text)
  | failed (path : Text) (error : SystemError)
  deriving DecidableEq, Repr

namespace StoreError

/-- The failure of a step that worked on `path`. -/
def ofSystem (path : Text) (e : SystemError) : StoreError :=
  if e.kind = .notFound then .notFound path else .failed path e

def ofFile (path : Text) (e : FileError) : StoreError := ofSystem path e.toSystem

def isNotFound : StoreError → Bool
  | notFound _ => true
  | failed _ _ => false

theorem isNotFound_ofFile (path : Text) {e : FileError} (h : e ≠ .notFound) :
    (ofFile path e).isNotFound = false := by
  cases e with
  | notFound => exact absurd rfl h
  | _ => rfl

def message : StoreError → Text
  | notFound path => "entry not found: ".toList ++ path
  | failed path e => "I/O error on ".toList ++ path ++ ": ".toList ++ e.text.toList

end StoreError
end EntryServer
