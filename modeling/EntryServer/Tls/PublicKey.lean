import EntryServer.Tls.Curve
import EntryServer.Tls.Der
import EntryServer.Tls.Pem

/-! # Keys

A private key determines its public key, and a public key has one encoding, so a private key belongs to a
certificate exactly if the encoding of its public key is the one in the certificate. Keys on elliptic curves
and RSA keys are known, in each form that key files hold. -/
namespace EntryServer.Tls
open Der
set_option autoImplicit false

inductive PublicKey
  | curve (c : Curve) (x y : Nat)
  | rsa (modulus exponent : Nat)
  deriving DecidableEq, Repr

/-! ## Algorithms -/

def curveKeys : Element := ⟨Tag.identifier, [0x2A, 0x86, 0x48, 0xCE, 0x3D, 0x02, 0x01]⟩

def rsaKeys : Element := ⟨Tag.identifier, [0x2A, 0x86, 0x48, 0x86, 0xF7, 0x0D, 0x01, 0x01, 0x01]⟩

def Curve.named (c : Curve) : Element := ⟨Tag.identifier, c.identifier⟩

def nothing : Element := ⟨Tag.null, []⟩

/-! ## Public keys -/

/-- A point in full: both coordinates after a byte that says so. -/
def Curve.pointBytes (c : Curve) (x y : Nat) : Bytes := 4 :: bytesOfNat c.size x ++ bytesOfNat c.size y

def keyInfo (algorithm : List Element) (bits : Bytes) : Element :=
  group Tag.sequence [group Tag.sequence algorithm, ⟨Tag.bitString, 0 :: bits⟩]

def PublicKey.info : PublicKey → Element
  | curve c x y => keyInfo [curveKeys, c.named] (c.pointBytes x y)
  | rsa n e => keyInfo [rsaKeys, nothing] (group Tag.sequence [natural n, natural e]).encode

/-! ## Private keys -/

/-- Does an optional field of a curve key agree with the key? A key may repeat its curve, and may hold its
public key. -/
def fieldAgrees (c : Curve) (x y : Nat) (field : Element) : Bool :=
  if field.tag = Tag.field 0 then elements? field.content == some [c.named]
  else field.tag = Tag.field 1 &&
    elements? field.content == some [⟨Tag.bitString, 0 :: c.pointBytes x y⟩]

/-- The public key of a private key on a curve, which is a number below the order of the curve. -/
def curveKey? (c : Curve) (key : Bytes) : Option PublicKey :=
  match (single? key).bind (·.inside? Tag.sequence) with
  | some (⟨0x02, [1]⟩ :: ⟨0x04, secret⟩ :: fields) =>
    let k := natOfBytes secret
    match if k = 0 ∨ c.order ≤ k then none else c.publicPoint k with
    | some (x, y) =>
      if fields.length ≤ 2 ∧ fields.all (fieldAgrees c x y) ∧ (fields.map (·.tag)).Nodup then
        some (.curve c x y)
      else none
    | none => none
  | _ => none

def isRsaSize (bits : Nat) : Bool := 2048 ≤ bits && bits ≤ 8192

/-- The public key of an RSA key, whose numbers have to fit together. -/
def rsaKey? (key : Bytes) : Option PublicKey := do
  let fields ← (single? key).bind (·.inside? Tag.sequence)
  match ← fields.mapM Element.natural? with
  | [0, n, e, d, p, q, dp, dq, inverse] =>
    if isRsaSize (n.log2 + 1) ∧ n = p * q ∧ 1 < p ∧ 1 < q ∧ e % 2 = 1 ∧ 1 < e ∧
        d * e % (p - 1) = 1 ∧ d * e % (q - 1) = 1 ∧ dp = d % (p - 1) ∧ dq = d % (q - 1) ∧
        inverse * q % p = 1 then some (.rsa n e)
    else none
  | _ => none

def wrappedKey? (key : Bytes) : Option PublicKey := do
  let fields ← (single? key).bind (·.inside? Tag.sequence)
  match fields with
  | version :: algorithm :: ⟨0x04, inner⟩ :: _ =>
    if version ≠ natural 0 ∧ version ≠ natural 1 then none
    else
      let algorithm ← algorithm.inside? Tag.sequence
      if algorithm = [rsaKeys, nothing] then rsaKey? inner
      else Curve.all.findSome? fun c => if algorithm = [curveKeys, c.named] then curveKey? c inner else none
  | _ => none

/-- The public key of a private key in the form in which a file keeps it. -/
def publicKey? (form : Pem.KeyForm) (key : Bytes) : Option PublicKey :=
  match form with
  | .pkcs1 => rsaKey? key
  | .pkcs8 => wrappedKey? key
  | .sec1 => Curve.all.findSome? fun c => curveKey? c key

end EntryServer.Tls
