/-! Cutting text at every character of a class. -/
namespace HttpOrigin.Text

/-- The pieces between the characters where `p` holds, empty ones included; there is always one
piece more than there are such characters. -/
def pieces (p : Char → Bool) : List Char → List (List Char)
  | [] => [[]]
  | c :: cs =>
    if p c then [] :: pieces p cs
    else match pieces p cs with
      | w :: ws => (c :: w) :: ws
      | [] => [[c]]

theorem pieces_ne_nil (p : Char → Bool) (cs : List Char) : pieces p cs ≠ [] := by
  cases cs with
  | nil => simp [pieces]
  | cons c cs =>
    unfold pieces
    split
    · simp
    · split <;> simp

/-- No piece holds a separator. -/
theorem not_mem_pieces {p : Char → Bool} {cs w : List Char} (hw : w ∈ pieces p cs) :
    ∀ c ∈ w, p c = false := by
  induction cs generalizing w with
  | nil => simp_all [pieces]
  | cons c cs ih =>
    by_cases hp : p c = true
    · simp only [pieces, hp, if_true, List.mem_cons] at hw
      rcases hw with rfl | hw
      · simp
      · exact ih hw
    · cases hs : pieces p cs with
      | nil => exact absurd hs (pieces_ne_nil p cs)
      | cons v vs =>
        simp only [pieces, hp, hs, Bool.false_eq_true, if_false, List.mem_cons] at hw
        rcases hw with rfl | hw
        · intro d hd
          rcases List.mem_cons.1 hd with rfl | hd
          · simpa using hp
          · exact ih (by simp [hs]) d hd
        · exact ih (by simp [hs, hw])

end HttpOrigin.Text
