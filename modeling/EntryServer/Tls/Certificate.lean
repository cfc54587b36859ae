import EntryServer.Tls.Der

/-! # Certificates

Of a certificate only the public key is needed, but everything else has to be in its place: the version, the
serial number, the algorithm of the signature which is named twice, the issuer, the time in which it is
valid, the subject, and extensions that can be ignored or are known. -/
namespace EntryServer.Tls
open Der
set_option autoImplicit false

/-- The identifiers of the extensions that are known: the uses of the key, the names of the subject, the
constraints of an authority, the places of revocation lists. -/
def knownExtensions : List Bytes := [15, 17, 19, 30, 31, 37].map fun n => [0x55, 0x1D, n]

/-- The identifier of an extension that is well formed, and known if it has to be. -/
def extension? (e : Element) : Option Bytes :=
  match e.inside? Tag.sequence with
  | some [⟨0x06, id⟩, ⟨0x04, _⟩] => some id
  | some [⟨0x06, id⟩, ⟨0x01, [0x00]⟩, ⟨0x04, _⟩] => some id
  | some [⟨0x06, id⟩, ⟨0x01, [0xFF]⟩, ⟨0x04, _⟩] => if id ∈ knownExtensions then some id else none
  | _ => none

/-- Are these the extensions of a certificate? No known one may stand twice. -/
def areExtensions (es : List Element) : Bool :=
  match es.mapM extension? with
  | some ids => (ids.filter (· ∈ knownExtensions)).Nodup
  | none => false

/-- Are these the fields that may follow the public key? -/
def isTail : List Element → Bool
  | [] => true
  | [e] =>
    match e.inside? (Tag.field 3) with
    | some [list] => ((list.inside? Tag.sequence).map areExtensions).getD false
    | _ => false
  | _ => false

/-- Is this the third version, which has extensions? -/
def isVersion (e : Element) : Bool :=
  e.inside? (Tag.field 0) == some [⟨Tag.integer, [2]⟩]

/-- The public key of a certificate with the algorithm that it is for. -/
def certifiedKey? (certificate : Bytes) : Option Element := do
  let parts ← (single? certificate).bind (·.inside? Tag.sequence)
  match parts with
  | [signed, algorithm, ⟨0x03, 0 :: _⟩] =>
    match ← signed.inside? Tag.sequence with
    | version :: ⟨0x02, _ :: _⟩ :: named :: ⟨0x30, _⟩ :: ⟨0x30, _⟩ :: ⟨0x30, _⟩ :: key :: tail =>
      if isVersion version ∧ named = algorithm ∧ algorithm.tag = Tag.sequence ∧ key.tag = Tag.sequence ∧
          isTail tail then some key
      else none
    | _ => none
  | _ => none

end EntryServer.Tls
