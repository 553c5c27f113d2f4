import HttpOrigin.Wire.Fields

/-! Moments as they stand in header fields: `Sun, 06 Nov 1994 08:49:37 GMT`. Clocks and calendars
are the business of who makes one. -/
namespace HttpOrigin

/-- A moment is its text, of which a head needs that it stays on its line. -/
structure Timestamp where
  text : String
  length : text.length = 29
  cr : '\r' ∉ text.toList
  lf : '\n' ∉ text.toList
  head : text.toList.head?.all (!Fields.isPadding ·) = true
  last : text.toList.getLast?.all (!Fields.isPadding ·) = true
  deriving DecidableEq, Repr

namespace Timestamp

def ofText? (text : String) : Option Timestamp :=
  if h : text.length = 29 ∧ '\r' ∉ text.toList ∧ '\n' ∉ text.toList ∧
      text.toList.head?.all (!Fields.isPadding ·) = true ∧
      text.toList.getLast?.all (!Fields.isPadding ·) = true then
    some ⟨text, h.1, h.2.1, h.2.2.1, h.2.2.2.1, h.2.2.2.2⟩
  else none

def epoch : Timestamp where
  text := "Thu, 01 Jan 1970 00:00:00 GMT"
  length := by decide
  cr := by decide
  lf := by decide
  head := by decide
  last := by decide

end Timestamp

end HttpOrigin
