import HttpOrigin.Wire.Status
import HttpOrigin.Transport.Fault

/-! Why a request is not served, and the status that the peer is owed for it. -/
namespace HttpOrigin

inductive BadRequest where
  | lineTooLong
  | malformedRequestLine
  | malformedField
  | tooManyFields
  | invalidContentLength
  deriving DecidableEq, Repr

def BadRequest.message : BadRequest → String
  | lineTooLong => "line too long"
  | malformedRequestLine => "malformed request line"
  | malformedField => "malformed header"
  | tooManyFields => "too many headers"
  | invalidContentLength => "invalid Content-Length"

inductive HttpError where
  | io (fault : Fault)
  | transport (error : TransportError)
  | badRequest (cause : BadRequest)
  | methodNotAllowed (token : String)
  | versionNotSupported (token : String)
  | lengthRequired
  | responder (status : Status)
  deriving DecidableEq, Repr

namespace HttpError

/-- A line too long is the peer's fault and a bad request; all else is the transport's. -/
def ofTransport : TransportError → HttpError
  | .lineTooLong _ => .badRequest .lineTooLong
  | e => .transport e

/-- The status of the answer owed; a broken transport gets none. -/
def status? : HttpError → Option Status
  | io _ | transport _ => none
  | badRequest _ => some .badRequest
  | methodNotAllowed _ => some .methodNotAllowed
  | versionNotSupported _ => some .versionNotSupported
  | lengthRequired => some .lengthRequired
  | responder s => some s

def message : HttpError → String
  | io f => "I/O error: " ++ f.message
  | transport e => "Network error: " ++ e.message
  | badRequest cause => "Bad request: " ++ cause.message
  | methodNotAllowed token => "Method not allowed: " ++ token
  | versionNotSupported token => "HTTP version not supported: " ++ token
  | lengthRequired => "Length required"
  | responder s => "Handler failed with status " ++ s.text

end HttpError

end HttpOrigin
