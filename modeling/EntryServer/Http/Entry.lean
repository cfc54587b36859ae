import EntryServer.Http.Message
import EntryServer.Store.Basic

/-! # Requests on an entry

The content of an entry is read, replaced and deleted by requests. The header fields that go with it are
kept in the metadata child `headers`, one child for each name; they describe the content that is there and
are replaced together with it. -/
namespace EntryServer.Http
set_option autoImplicit false

namespace Entry

def headersOf (p : EntryPath) : EntryPath := p.parameters.child "headers/".toList

/-- The field that a stored entry stands for. Names that are not tokens, values that cannot be sent and a
stored length are left out. -/
def storedHeader? (t : FileTree) (child : EntryPath) : Option (Text × Bytes) :=
  match Header.name? child.name with
  | none => none
  | some name =>
    if name = "content-length".toList then none
    else match Store.read t child with
      | .error _ => none
      | .ok content =>
        let value := Ascii.trim content
        if Header.isValue value then some (name, value) else none

/-- The stored fields, in the order of the children. There are none if they cannot be listed. -/
def storedHeaders (t : FileTree) (p : EntryPath) : Headers :=
  match Store.children t (headersOf p) with
  | .error _ => []
  | .ok children => children.filterMap (storedHeader? t)

/-- The type that is announced when none is stored. -/
def guessedType (p : EntryPath) (content : Bytes) : MediaType :=
  (MediaType.ofName? p.name).getD (MediaType.ofHead (content.take MediaType.headLength))

def get (t : FileTree) (p : EntryPath) : Except Failure Response :=
  match Store.read t p with
  | .error e => .error (.store e)
  | .ok content =>
    let headers := (storedHeaders t p).addIfMissing "content-type"
      (Ascii.bytes (guessedType p content).text)
    .ok ⟨.ok, headers ++ [("content-length".toList, Header.ofNat content.length)], content⟩

abbrev HandlerM (α : Type) := ExceptT Failure (StateM FileTree) α

def onStore {α : Type} (action : StoreM α) : HandlerM α := do
  let (result, t) := action.run.run (← getThe FileTree)
  set t
  match result with
  | .ok a => return a
  | .error e => throw (.store e)

def appendAll (w : Store.Writer) (t : FileTree) (chunks : List Bytes) : Store.Writer × FileTree :=
  chunks.foldl (fun (w, t) chunk => w.append t chunk) (w, t)

/-- Replaces the content and the stored fields. A content that does not arrive to its end replaces
nothing. -/
def put (p : EntryPath) (contentType : Option Bytes) (body : Body) : HandlerM Response := do
  let existed := Store.hasData (← getThe FileTree) p
  let w ← onStore (Store.create p)
  let (w, t) := appendAll w (← getThe FileTree) body.chunks
  set t
  if !body.complete then throw Failure.body
  onStore w.commit
  onStore (Store.deleteAll (headersOf p))
  match contentType with
  | none => pure ()
  | some value => onStore (Store.write ((headersOf p).child "content-type".toList) value)
  return Response.empty (if existed then .noContent else .created)

def delete (p : EntryPath) : HandlerM Response := do
  onStore (Store.deleteAll p)
  return Response.empty .noContent

def handle (p : EntryPath) (method : Text) (contentType : Option Bytes) (body : Body) :
    HandlerM Response := do
  if method = "GET".toList ∨ method = "HEAD".toList then
    match get (← getThe FileTree) p with
    | .ok r => return r
    | .error f => throw f
  else if method = "PUT".toList then put p contentType body
  else if method = "DELETE".toList then delete p
  else return Response.empty .methodNotAllowed

end Entry
end EntryServer.Http
