import EntryServer.Auth.Challenge

/-! # Issued nonces

A nonce is remembered from its challenge until it is presented or has expired. Presenting it takes it out
of the cache, whatever comes of it, so it is good for one attempt. -/
namespace EntryServer.Auth
set_option autoImplicit false

/-- What is remembered of a challenge. Times are in milliseconds. -/
structure Nonce where
  created : Nat
  validity : Nat
  echo : Text
  domain : Text
  realm : Text
  deriving DecidableEq, Repr

namespace Nonce

def expiry (n : Nonce) : Nat := n.created + n.validity

/-- A nonce is still good at the very end of its validity. -/
def isExpired (n : Nonce) (now : Nat) : Bool := n.expiry < now

end Nonce

abbrev Cache := List (Text × Nonce)

namespace Cache

/-- The first time that the clock cannot represent: it counts seconds in a signed word of 64 bits. -/
def clockLimit : Nat := Nat.pow 2 63 * 1000

def fitsClock (c : Cache) : Bool := c.all fun kn => kn.2.expiry < clockLimit

def withoutExpired (c : Cache) (now : Nat) : Cache := c.filter fun kn => !kn.2.isExpired now

def erase (c : Cache) (key : Text) : Cache := c.filter fun kn => kn.1 ≠ key

def insert (c : Cache) (key : Text) (n : Nonce) : Cache := c.erase key ++ [(key, n)]

end Cache
end EntryServer.Auth
