import HttpOrigin.Wire.Error
import HttpOrigin.Text.Ascii

/-! The methods that are served and the one protocol version that is spoken. -/
namespace HttpOrigin

inductive Method where
  | get
  | head
  | post
  deriving DecidableEq, Repr

namespace Method

def text : Method → String
  | get => "GET"
  | head => "HEAD"
  | post => "POST"

def ofToken (token : String) : Except HttpError Method :=
  match [get, head, post].find? fun m => Text.sameIgnoringCase token m.text with
  | some m => .ok m
  | none => .error (.methodNotAllowed token)

end Method

inductive Version where
  | http11
  deriving DecidableEq, Repr

namespace Version

def text : Version → String
  | http11 => "HTTP/1.1"

def ofToken (token : String) : Except HttpError Version :=
  if Text.sameIgnoringCase token http11.text then .ok http11
  else .error (.versionNotSupported token)

end Version

end HttpOrigin
