/-! Comparison up to ASCII case, and decimal digits. Letters outside ASCII keep their case. -/
namespace HttpOrigin.Text

def lowered (s : String) : List Char := s.toList.map Char.toLower

def sameIgnoringCase (s t : String) : Bool := lowered s == lowered t

theorem sameIgnoringCase_iff {s t : String} :
    sameIgnoringCase s t = true ↔ lowered s = lowered t := by
  simp [sameIgnoringCase]

@[simp] theorem sameIgnoringCase_self (s : String) : sameIgnoringCase s s = true := by
  simp [sameIgnoringCase]

def digit? (c : Char) : Option Nat :=
  if '0' ≤ c ∧ c ≤ '9' then some (c.toNat - '0'.toNat) else none

def decimalValue (digits : List Nat) : Nat := digits.foldl (fun n d => 10 * n + d) 0

/-- Reads a nonempty run of ASCII digits, any number of leading zeros included. A sign, a blank
or a digit of another script makes the text no number. -/
def decimal? (s : String) : Option Nat :=
  if s.isEmpty then none else (s.toList.mapM digit?).map decimalValue

end HttpOrigin.Text
