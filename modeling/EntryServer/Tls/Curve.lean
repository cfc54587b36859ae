import EntryServer.Text.Ascii

/-! # Elliptic curves

The curves that signature keys live on: `y² = x³ - 3x + b` over a prime field. A private key is a number, and
its public key is that multiple of the generator. Multiples need no `b`. -/
namespace EntryServer.Tls
set_option autoImplicit false

structure Curve where
  identifier : Bytes
  /-- The size of a coordinate in bytes. -/
  size : Nat
  prime : Nat
  order : Nat
  generator : Nat × Nat
  deriving DecidableEq, Repr

namespace Curve

def p256 : Curve where
  identifier := [0x2A, 0x86, 0x48, 0xCE, 0x3D, 0x03, 0x01, 0x07]
  size := 32
  prime := Nat.pow 2 256 - Nat.pow 2 224 + Nat.pow 2 192 + Nat.pow 2 96 - 1
  order := 0xFFFFFFFF00000000FFFFFFFFFFFFFFFFBCE6FAADA7179E84F3B9CAC2FC632551
  generator :=
    (0x6B17D1F2E12C4247F8BCE6E563A440F277037D812DEB33A0F4A13945D898C296,
      0x4FE342E2FE1A7F9B8EE7EB4A7C0F9E162BCE33576B315ECECBB6406837BF51F5)

def p384 : Curve where
  identifier := [0x2B, 0x81, 0x04, 0x00, 0x22]
  size := 48
  prime := Nat.pow 2 384 - Nat.pow 2 128 - Nat.pow 2 96 + Nat.pow 2 32 - 1
  order :=
    0xFFFFFFFFFFFFFFFFFFFFFFFFFFFFFFFFFFFFFFFFFFFFFFFFC7634D81F4372DDF581A0DB248B0A77AECEC196ACCC52973
  generator :=
    (0xAA87CA22BE8B05378EB1C71EF320AD746E1D3B628BA79B9859F741E082542A385502F25DBF55296C3A545E3872760AB7,
      0x3617DE4A96262C6F5D9E98BF9292DC29F8F41DBD289A147CE9DA3113B5F0B8C00A60B1CE1D7E819D7A431D7C90EA0E5F)

def p521 : Curve where
  identifier := [0x2B, 0x81, 0x04, 0x00, 0x23]
  size := 66
  prime := Nat.pow 2 521 - 1
  order := Nat.pow 2 521 - Nat.pow 2 264 + 0xFA51868783BF2F966B7FCC0148F709A5D03BB5C9B8899C47AEBB6FB71E91386409
  generator :=
    (0xC6858E06B70404E9CD9E3ECB662395B4429C648139053FB521F828AF606B4D3D * Nat.pow 2 264 +
        0xBAA14B5E77EFE75928FE1DC127A2FFA8DE3348B3C1856A429BF97E7E31C2E5BD66,
      0x11839296A789A3BC0045C8A5FB42C7D1BD998F54449579B446817AFBD17273E66 * Nat.pow 2 264 +
        0x2C97EE72995EF42640C550B9013FAD0761353C7086A272C24088BE94769FD16650)

def all : List Curve := [p256, p384, p521]

/-! ## Arithmetic -/

def power (p base : Nat) (n : Nat) : Nat :=
  if n = 0 then 1 % p
  else
    let half := power p (base * base % p) (n / 2)
    if n % 2 = 1 then base * half % p else half
termination_by n

/-- The inverse in the field of a number that is not zero there. -/
def inverse (p a : Nat) : Nat := power p a (p - 2)

/-- A point, or none at infinity. -/
abbrev Point := Option (Nat × Nat)

/-- The third point on the line with a slope through two points, reflected in the axis. -/
def third (p slope : Nat) (a b : Nat × Nat) : Nat × Nat :=
  let x := (slope * slope + 2 * p - a.1 - b.1) % p
  (x, (slope * (a.1 + p - x) + p - a.2) % p)

def add (p : Nat) : Point → Point → Point
  | none, b => b
  | a, none => a
  | some a, some b =>
    if a.1 = b.1 then
      if a.2 = b.2 ∧ a.2 ≠ 0 then
        some (third p ((3 * a.1 * a.1 + p - 3) * inverse p (2 * a.2 % p) % p) a a)
      else none
    else some (third p ((b.2 + p - a.2) * inverse p ((b.1 + p - a.1) % p) % p) a b)

def times (p : Nat) (k : Nat) (a : Point) : Point :=
  if k = 0 then none
  else
    let half := times p (k / 2) (add p a a)
    if k % 2 = 1 then add p a half else half
termination_by k

def publicPoint (c : Curve) (k : Nat) : Point := times c.prime k (some c.generator)

end Curve
end EntryServer.Tls
