import EntryServer.EntryPath.Basic
import EntryServer.Http.Target
import EntryServer.Text.Percent

/-! # From a request to an entry

Every host has a site of its own directly below the store root: the container `<host>.host`, or `host` for
requests without a usable host. The path of the request leads to an entry below the site, and each query
parameter `meta` leads on into the metadata of the entry reached so far. -/
namespace EntryServer.Http
set_option autoImplicit false

structure Addressed where
  site : EntryPath
  entry : EntryPath
  deriving DecidableEq, Repr

namespace Addressed

def isHostByte (b : UInt8) : Bool :=
  Ascii.isAlphanumeric b || b ∈ Ascii.bytes "-.:[]_"

/-- A host that may name a site. -/
def isHost (host : Bytes) : Bool :=
  host ≠ [] && host.head? ≠ some 46 && host.all isHostByte

/-- The host a request names: its `Host` header if that is visible ASCII, and otherwise the authority of
its target. -/
def hostOf (header : Option Bytes) (target : Target) : Option Bytes :=
  match header with
  | some h => if h.all Ascii.isVisible then some h else target.authority.map Utf8.encode
  | none => target.authority.map Utf8.encode

def siteOf (host : Option Bytes) : EntryPath :=
  match host.filter isHost with
  | some h => EntryPath.root.child (h.map (fun b => Char.ofNat b.toNat) ++ ".host/".toList)
  | none => EntryPath.root.child "host/".toList

def metaKey : Text := "meta".toList

def descend (entry : EntryPath) (pair : Text × Text) : EntryPath :=
  if pair.1 = metaKey then entry.parameters.child pair.2 else entry

def resolve (header : Option Bytes) (target : Target) : Addressed :=
  let site := siteOf (hostOf header target)
  let entry := site.child (Percent.decode (Utf8.encode target.path))
  let pairs := match target.query with
    | some query => Percent.queryPairs (Utf8.encode query)
    | none => []
  ⟨site, pairs.foldl descend entry⟩

end Addressed
end EntryServer.Http
