import EntryServer.Http.Header
import EntryServer.Http.MediaType
import EntryServer.Store.Error

/-! # Requests and answers

What the library for HTTP makes of a request before it gets here, and of an answer after it has left, is assumed: a
content is a list of chunks that ends or breaks off, a limit on its size cuts it where a chunk goes beyond, and an
answer is completed with its length. -/
namespace EntryServer.Http
set_option autoImplicit false

/-- The content of a request as it arrives: the chunks that the library hands over, and whether a failure of the
connection stands at their end. -/
structure Body where
  chunks : List Bytes
  /-- Does the content arrive to its end? -/
  complete : Bool
  deriving DecidableEq, Repr

/-- What is read of chunks when at most `limit` bytes are allowed. The chunk that goes beyond is not read,
and reading fails there, as the library does it. -/
def readWithin (complete : Bool) (limit : Nat) : List Bytes → Body
  | [] => ⟨[], complete⟩
  | chunk :: rest =>
    if limit < chunk.length then ⟨[], false⟩
    else
      let tail := readWithin complete (limit - chunk.length) rest
      ⟨chunk :: tail.chunks, tail.complete⟩

def Body.limited (limit : Nat) (b : Body) : Body := readWithin b.complete limit b.chunks

structure Request where
  method : Text
  target : Text
  headers : Headers
  body : Body
  deriving DecidableEq, Repr

inductive Status
  | ok
  | created
  | noContent
  | badRequest
  | unauthorized
  | forbidden
  | notFound
  | methodNotAllowed
  | requestTimeout
  | payloadTooLarge
  | internalServerError
  deriving DecidableEq, Repr

namespace Status

def code : Status → Nat
  | ok => 200
  | created => 201
  | noContent => 204
  | badRequest => 400
  | unauthorized => 401
  | forbidden => 403
  | notFound => 404
  | methodNotAllowed => 405
  | requestTimeout => 408
  | payloadTooLarge => 413
  | internalServerError => 500

def reason : Status → String
  | ok => "OK"
  | created => "Created"
  | noContent => "No Content"
  | badRequest => "Bad Request"
  | unauthorized => "Unauthorized"
  | forbidden => "Forbidden"
  | notFound => "Not Found"
  | methodNotAllowed => "Method Not Allowed"
  | requestTimeout => "Request Timeout"
  | payloadTooLarge => "Payload Too Large"
  | internalServerError => "Internal Server Error"

end Status

structure Response where
  status : Status
  headers : Headers
  body : Bytes
  deriving DecidableEq, Repr

namespace Response

/-- An answer that says no more than its status. -/
def empty (status : Status) : Response := ⟨status, [], []⟩

def text (status : Status) (words : String) : Response :=
  ⟨status, [("content-type".toList, Ascii.bytes MediaType.plain.text)], Ascii.bytes words⟩

/-- Completes an answer as the library does: its length is announced unless there can be no content, and a request
that asks for the header fields alone gets no content. -/
def completed (r : Response) (headOnly : Bool) : Response where
  status := r.status
  headers :=
    if r.status = .noContent then r.headers
    else r.headers.addIfMissing "content-length" (Header.ofNat r.body.length)
  body := if headOnly then [] else r.body

end Response

/-! ## Failures -/

inductive Failure
  | store (error : StoreError)
  /-- The content of the request could not be read to its end. -/
  | body
  deriving DecidableEq, Repr

namespace Failure

def status : Failure → Status
  | store e => if e.isNotFound then .notFound else .internalServerError
  | body => .badRequest

def response (f : Failure) : Response := Response.text f.status f.status.reason

end Failure
end EntryServer.Http
