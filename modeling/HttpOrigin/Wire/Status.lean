/-! Status codes and their reason phrases. -/
namespace HttpOrigin

structure Status where
  code : Nat
  valid : 100 ≤ code ∧ code < 600 := by decide
  deriving DecidableEq, Repr

namespace Status

def ofCode? (code : Nat) : Option Status :=
  if h : 100 ≤ code ∧ code < 600 then some ⟨code, h⟩ else none

def ok : Status := { code := 200 }
def badRequest : Status := { code := 400 }
def notFound : Status := { code := 404 }
def methodNotAllowed : Status := { code := 405 }
def lengthRequired : Status := { code := 411 }
def internalServerError : Status := { code := 500 }
def notImplemented : Status := { code := 501 }
def versionNotSupported : Status := { code := 505 }

def reason (s : Status) : String :=
  match s.code with
  | 200 => "OK"
  | 400 => "Bad Request"
  | 404 => "Not Found"
  | 405 => "Method Not Allowed"
  | 411 => "Length Required"
  | 500 => "Internal Server Error"
  | 501 => "Not Implemented"
  | 505 => "HTTP Version Not Supported"
  | _ => "Unknown"

def text (s : Status) : String := toString s.code ++ " " ++ s.reason

theorem ofCode?_code (s : Status) : ofCode? s.code = some s := by
  simp [ofCode?, s.valid]

end Status

end HttpOrigin
