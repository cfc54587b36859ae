import EntryServer.Text.Blank
import EntryServer.Text.Split
import EntryServer.Text.Utf8

/-! # Media types

What kind of content an answer announces when none was stored: first the file extension of the entry's
name decides, and if it is not a known one, the first bytes of the content. -/
namespace EntryServer.Http
set_option autoImplicit false

inductive MediaType
  | html
  | css
  | javascript
  | json
  | plain
  | xml
  | csv
  | png
  | jpeg
  | gif
  | svg
  | bmp
  | pdf
  | woff
  | woff2
  | octetStream
  deriving DecidableEq, Repr

namespace MediaType

def text : MediaType → String
  | html => "text/html; charset=utf-8"
  | css => "text/css; charset=utf-8"
  | javascript => "application/javascript; charset=utf-8"
  | json => "application/json"
  | plain => "text/plain; charset=utf-8"
  | xml => "text/xml"
  | csv => "text/csv; charset=utf-8"
  | png => "image/png"
  | jpeg => "image/jpeg"
  | gif => "image/gif"
  | svg => "image/svg+xml"
  | bmp => "image/bmp"
  | pdf => "application/pdf"
  | woff => "font/woff"
  | woff2 => "font/woff2"
  | octetStream => "application/octet-stream"

/-- The types of the known extensions, which are in lowercase. -/
def ofExtension? (ext : Text) : Option MediaType :=
  if ext ∈ ["html".toList, "htm".toList] then some html
  else if ext = "css".toList then some css
  else if ext ∈ ["js".toList, "mjs".toList] then some javascript
  else if ext = "json".toList then some json
  else if ext = "txt".toList then some plain
  else if ext = "xml".toList then some xml
  else if ext = "csv".toList then some csv
  else if ext = "png".toList then some png
  else if ext ∈ ["jpg".toList, "jpeg".toList] then some jpeg
  else if ext = "gif".toList then some gif
  else if ext = "svg".toList then some svg
  else if ext = "bmp".toList then some bmp
  else if ext = "pdf".toList then some pdf
  else if ext = "woff".toList then some woff
  else if ext = "woff2".toList then some woff2
  else none

/-- The type that the part of a name after its last dot stands for. -/
def ofName? (name : Text) : Option MediaType :=
  (Text.splitLast? '.' name).bind fun (_, ext) => ofExtension? (Ascii.lower ext)

/-! ## Looking at content -/

def headLength : Nat := 512

def ofSignature? (head : Bytes) : Option MediaType :=
  if [0x89, 0x50, 0x4E, 0x47, 0x0D, 0x0A, 0x1A, 0x0A].isPrefixOf head then some png
  else if (Ascii.bytes "GIF87a").isPrefixOf head || (Ascii.bytes "GIF89a").isPrefixOf head then some gif
  else if [0xFF, 0xD8, 0xFF].isPrefixOf head then some jpeg
  else if (Ascii.bytes "%PDF-").isPrefixOf head then some pdf
  else none

/-- Control characters other than tab, line feed, carriage return and form feed do not occur in text. -/
def isBinary (c : Char) : Bool :=
  Blank.isControl c && !(c == '\t' || c == '\n' || c == '\r' || c == '\x0C')

/-- Text that begins with a document type or root element of HTML, blanks aside, is HTML. -/
def ofText (text : Text) : MediaType :=
  let lead := Ascii.lower ((Blank.trimStart text).take 14)
  if "<!doctype html".toList.isPrefixOf lead || "<html".toList.isPrefixOf lead then html else plain

/-- The type that the first bytes of a content suggest. They are text if they are UTF-8 up to a character
that is cut off at the end, and hold no binary character. -/
def ofHead (head : Bytes) : MediaType :=
  match ofSignature? head with
  | some type => type
  | none =>
    match Utf8.decodeHead? head with
    | none => octetStream
    | some text => if text.any isBinary then octetStream else ofText text

end MediaType
end EntryServer.Http
