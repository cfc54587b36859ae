import EntryServer.Text.Ascii

/-! # System errors

The kinds of failure that the system reports, and the texts that describe them. -/
namespace EntryServer
set_option autoImplicit false

/-- What kind of failure an operation of the system reports. -/
inductive ErrorKind
  | notFound
  | permissionDenied
  | alreadyExists
  | invalidInput
  | invalidData
  | notADirectory
  | isADirectory
  | directoryNotEmpty
  | invalidFilename
  | storageFull
  | unexpectedEof
  | timedOut
  | networkUnreachable
  | other
  deriving DecidableEq, Repr

/-- The text of a kind when nothing more is known about a failure. -/
def ErrorKind.text : ErrorKind → String
  | notFound => "entity not found"
  | permissionDenied => "permission denied"
  | alreadyExists => "entity already exists"
  | invalidInput => "invalid input parameter"
  | invalidData => "invalid data"
  | notADirectory => "not a directory"
  | isADirectory => "is a directory"
  | directoryNotEmpty => "directory not empty"
  | invalidFilename => "invalid filename"
  | storageFull => "no storage space"
  | unexpectedEof => "unexpected end of file"
  | timedOut => "timed out"
  | networkUnreachable => "network unreachable"
  | other => "other error"

/-- A failure with the text that describes it. -/
structure SystemError where
  kind : ErrorKind
  text : String
  deriving DecidableEq, Repr

/-- A failure of which only the kind is known. -/
def SystemError.ofKind (kind : ErrorKind) : SystemError := ⟨kind, kind.text⟩

/-- A connection to an address that no network leads to. -/
def SystemError.networkUnreachable : SystemError :=
  ⟨.networkUnreachable, "Network is unreachable (os error 101)"⟩

/-- Why an operation on files fails. -/
inductive FileError
  /-- The file, or a directory on the way to it, is missing. -/
  | notFound
  /-- A file stands where the way leads on. -/
  | notADirectory
  /-- A directory stands where a file is needed. -/
  | isADirectory
  | alreadyExists
  | directoryNotEmpty
  /-- A name or the whole path is longer than the system allows. -/
  | nameTooLong
  /-- A name holds a NUL, which no file name can. -/
  | nulInName
  deriving DecidableEq, Repr

def FileError.toSystem : FileError → SystemError
  | notFound => ⟨.notFound, "No such file or directory (os error 2)"⟩
  | notADirectory => ⟨.notADirectory, "Not a directory (os error 20)"⟩
  | isADirectory => ⟨.isADirectory, "Is a directory (os error 21)"⟩
  | alreadyExists => ⟨.alreadyExists, "File exists (os error 17)"⟩
  | directoryNotEmpty => ⟨.directoryNotEmpty, "Directory not empty (os error 39)"⟩
  | nameTooLong => ⟨.invalidFilename, "File name too long (os error 36)"⟩
  | nulInName => ⟨.invalidInput, "file name contained an unexpected NUL byte"⟩

/-- Outcomes can be compared. -/
instance decidableEqOutcome {ε α : Type} [DecidableEq ε] [DecidableEq α] : DecidableEq (Except ε α)
  | .error e, .error e' => decidable_of_iff (e = e') ⟨congrArg _, Except.error.inj⟩
  | .ok a, .ok b => decidable_of_iff (a = b) ⟨congrArg _, Except.ok.inj⟩
  | .error _, .ok _ => isFalse nofun
  | .ok _, .error _ => isFalse nofun

end EntryServer
