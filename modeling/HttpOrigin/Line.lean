import HttpOrigin.Bytes

/-! Lines of bytes: each ends with a line feed, and one carriage return directly before it belongs
to the ending. The line that may still become too long is told apart from the one that already is,
so that more input never changes an answer once given. -/
namespace HttpOrigin

/-- The longest line in bytes, its ending left out. -/
def maxLine : Nat := 8192

namespace Line

inductive Scan where
  | line (text rest : Bytes)
  | tooLong
  | incomplete
  deriving DecidableEq, Repr

def dropReturn (body : Bytes) : Bytes :=
  if body.getLast? = some Bytes.cr then body.dropLast else body

/-- Looks for a first line. An unterminated line of one byte more than the limit may still turn out
to end with a carriage return, so it is not refused yet. -/
def scan (input : Bytes) : Scan :=
  match input.dropWhile (· ≠ Bytes.lf) with
  | [] => if input.length > maxLine + 1 then .tooLong else .incomplete
  | _ :: rest =>
    let text := dropReturn (input.takeWhile (· ≠ Bytes.lf))
    if text.length > maxLine then .tooLong else .line text rest

/-- A line takes at least its ending from the input. -/
theorem length_rest_lt {input text rest : Bytes} (h : scan input = .line text rest) :
    rest.length < input.length := by
  unfold scan at h
  split at h
  · split at h <;> simp at h
  · rename_i lf rest' hdrop
    have hlen : (lf :: rest').length ≤ input.length := hdrop ▸ (List.dropWhile_suffix _).length_le
    simp only [List.length_cons] at hlen
    dsimp only at h
    split at h
    · simp at h
    · rw [Scan.line.injEq] at h
      rw [← h.2]
      omega

end Line

end HttpOrigin
