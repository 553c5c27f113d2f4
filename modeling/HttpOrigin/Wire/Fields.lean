import HttpOrigin.Wire.Error
import HttpOrigin.Text.Ascii

/-! Header fields in the order of the wire. Names are compared up to ASCII case; fields of one name
are kept apart, and a look-up gives the last of them. -/
namespace HttpOrigin

def maxFields : Nat := 100

structure Fields where
  entries : List (String × String) := []
  deriving DecidableEq, Repr

namespace Fields

def size (f : Fields) : Nat := f.entries.length

def insert? (f : Fields) (name value : String) : Option Fields :=
  if f.size < maxFields then some ⟨f.entries ++ [(name, value)]⟩ else none

/-- The value of the last field of that name. -/
def get? (f : Fields) (name : String) : Option String :=
  (f.entries.reverse.find? fun e => Text.sameIgnoringCase e.1 name).map (·.2)

def getAll (f : Fields) (name : String) : List String :=
  (f.entries.filter fun e => Text.sameIgnoringCase e.1 name).map (·.2)

theorem getAll_cons (name value : String) (entries : List (String × String))
    (key : String) :
    getAll ⟨(name, value) :: entries⟩ key =
      if Text.sameIgnoringCase name key then value :: getAll ⟨entries⟩ key
      else getAll ⟨entries⟩ key := by
  rw [getAll, List.filter_cons]
  split <;> rfl

def contains (f : Fields) (name : String) : Bool :=
  f.entries.any fun e => Text.sameIgnoringCase e.1 name

def text (f : Fields) : String :=
  String.join (f.entries.map fun e => e.1 ++ ": " ++ e.2 ++ "\n")

def isPadding (c : Char) : Bool := c == ' ' || c == '\t'

def trim (cs : List Char) : List Char :=
  ((cs.dropWhile isPadding).reverse.dropWhile isPadding).reverse

/-- Cuts a line at its first colon into name and value, both without padding and neither empty. -/
def ofLine (line : String) : Except HttpError (String × String) :=
  match line.toList.dropWhile (· ≠ ':') with
  | [] => .error (.badRequest .malformedField)
  | _ :: after =>
    let name := trim (line.toList.takeWhile (· ≠ ':'))
    let value := trim after
    if name = [] ∨ value = [] then .error (.badRequest .malformedField)
    else .ok (String.ofList name, String.ofList value)

end Fields

end HttpOrigin
