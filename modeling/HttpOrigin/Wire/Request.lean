import HttpOrigin.Bytes
import HttpOrigin.Wire.Fields
import HttpOrigin.Wire.Method
import HttpOrigin.Text.Blank

/-! Requests, and what their lines say. -/
namespace HttpOrigin

structure Request where
  method : Method := .get
  uri : String := "/"
  version : Version := .http11
  fields : Fields := {}
  contentLength : Option Nat := none
  body : Bytes := []
  deriving DecidableEq, Repr

namespace Request

/-- The request that a request line begins: three words, of which the method is judged first. -/
def ofLine (line : String) : Except HttpError Request :=
  match Text.words line with
  | [method, uri, version] => do
    let method ← Method.ofToken method
    let version ← Version.ofToken version
    return { method, uri, version }
  | _ => .error (.badRequest .malformedRequestLine)

def asksToClose (r : Request) : Bool :=
  (r.fields.get? "Connection").any fun v => Text.sameIgnoringCase v "close"

def lengthBound : Nat := UInt64.size

def bodyLength (r : Request) : Except HttpError Nat :=
  match r.fields.get? "Content-Length" with
  | none => .error .lengthRequired
  | some v =>
    match Text.decimal? v with
    | some n => if n < lengthBound then .ok n else .error (.badRequest .invalidContentLength)
    | none => .error (.badRequest .invalidContentLength)

end Request

end HttpOrigin
