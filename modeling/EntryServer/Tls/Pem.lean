import EntryServer.Text.Base64
import EntryServer.Text.Quoted
import EntryServer.Text.Utf8

/-! # Certificate and key files

Such a file is text with sections between a line that begins and a line that ends each of them. A section
holds a binary content in Base64. Lines outside of sections, and sections with a label that is not known, are
skipped. -/
namespace EntryServer.Pem
set_option autoImplicit false

inductive KeyForm
  | pkcs1
  | pkcs8
  | sec1
  deriving DecidableEq, Repr

inductive Kind
  | certificate
  | privateKey (form : KeyForm)
  /-- A section that serves no purpose here, but has to be well formed. -/
  | other
  deriving DecidableEq, Repr

def Kind.ofLabel? (label : Bytes) : Option Kind :=
  if label = Ascii.bytes "CERTIFICATE" then some .certificate
  else if label = Ascii.bytes "PRIVATE KEY" then some (.privateKey .pkcs8)
  else if label = Ascii.bytes "RSA PRIVATE KEY" then some (.privateKey .pkcs1)
  else if label = Ascii.bytes "EC PRIVATE KEY" then some (.privateKey .sec1)
  else if (["PUBLIC KEY", "X509 CRL", "CERTIFICATE REQUEST"].map Ascii.bytes).contains label then some .other
  else none

structure Section where
  kind : Kind
  content : Bytes
  deriving DecidableEq, Repr

inductive Fault
  /-- The line that begins a section is not complete. -/
  | badBegin (line : Bytes)
  /-- The file ends inside a section. -/
  | unended (label : Bytes)
  | badContent (fault : Base64.Fault)
  deriving DecidableEq, Repr

def Fault.message : Fault → Text
  | badBegin line => "illegal section start: ".toList ++ Quoted.quote (Utf8.decodeLossy line)
  | unended label => "section end ".toList ++ Quoted.quote (Utf8.decodeLossy label) ++ " missing".toList
  | badContent fault => fault.message.toList

/-! ## Lines -/

/-- Puts a byte in front of lines, each of which is kept with its end. -/
def addByte (b : UInt8) (lines : List Bytes) : List Bytes :=
  if b = 10 ∨ b = 13 then [b] :: lines
  else match lines with
    | [] => [[b]]
    | line :: rest => (b :: line) :: rest

/-- The lines of a file. A line feed and a carriage return each end a line. -/
def lines (file : Bytes) : List Bytes := file.foldr addByte []

def beginMark : Bytes := Ascii.bytes "-----BEGIN "

def endMark : Bytes := Ascii.bytes "-----END "

def dashes : Bytes := Ascii.bytes "-----"

/-- The bytes that may stand between and after the dashes at the end of a line. -/
def isTrailing (b : UInt8) : Bool := b = 45 || b = 10 || b = 13 || b = 32

/-- The label in a line that begins a section. The line has to end with exactly five dashes. -/
def labelOf? (line : Bytes) : Option Bytes :=
  let trailer := (line.reverse.takeWhile isTrailing).reverse.dropWhile (· ≠ 45)
  if trailer.count 45 = 5 then some ((line.take (line.length - trailer.length)).drop beginMark.length)
  else none

def ends (label line : Bytes) : Bool := (endMark ++ label ++ dashes).isPrefixOf line

/-- Blanks in a content mean nothing. -/
def isBlank (b : UInt8) : Bool := (9 ≤ b && b ≤ 13) || b = 32

/-! ## Sections -/

/-- The sections up to the first fault, and the fault. Between the lines there is the label of the section
that has begun, and what has been gathered of its content. -/
def scanLines (label : Option Bytes) (gathered : Bytes) : List Bytes → List Section × Option Fault
  | [] => ([], label.map .unended)
  | line :: rest =>
    if beginMark.isPrefixOf line then
      match labelOf? line with
      | none => ([], some (.badBegin line))
      | some label => scanLines (some label) gathered rest
    else match label with
      | none => scanLines none gathered rest
      | some l =>
        if !ends l line then scanLines label (gathered ++ line) rest
        else match Kind.ofLabel? l with
          | none => scanLines none [] rest
          | some kind =>
            match Base64.decode (gathered.filter fun b => !isBlank b) with
            | .error fault => ([], some (.badContent fault))
            | .ok content =>
              let (more, fault) := scanLines none [] rest
              (⟨kind, content⟩ :: more, fault)

def scan (file : Bytes) : List Section × Option Fault := scanLines none [] (lines file)

def certificates (file : Bytes) : Except Fault (List Bytes) :=
  match scan file with
  | (_, some fault) => .error fault
  | (sections, none) => .ok ((sections.filter (·.kind = .certificate)).map (·.content))

def Section.privateKey? (s : Section) : Option (KeyForm × Bytes) :=
  match s.kind with
  | .privateKey form => some (form, s.content)
  | _ => none

/-- The first private key of a file. What stands after it does not matter. -/
def privateKey (file : Bytes) : Except Fault (Option (KeyForm × Bytes)) :=
  match (scan file).1.findSome? Section.privateKey?, (scan file).2 with
  | some key, _ => .ok (some key)
  | none, some fault => .error fault
  | none, none => .ok none

end EntryServer.Pem
