import EntryServer.EntryPath.Basic

/-! # Access configuration

Access to an entry is configured in its metadata, below the child `auth`. Entries in there are sealed:
they are never reached by a request. -/
namespace EntryServer.Acl
set_option autoImplicit false

def auth : Text := "auth".toList

/-- Does a way lead through the `auth` metadata of some entry? -/
def sealedHops : List Step → Bool
  | .child n :: .metadata :: above => n = auth || sealedHops above
  | _ :: above => sealedHops above
  | [] => false

def isSealed (p : EntryPath) : Bool := sealedHops p.hops

end EntryServer.Acl
