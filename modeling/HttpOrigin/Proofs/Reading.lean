import HttpOrigin.RequestReader
import Mathlib.Data.List.TakeWhile

/-! Reading is stable: once a byte string gives a line, a request or an error, more bytes behind it
change nothing, and a reader that waits goes on as if it had seen all bytes at once. -/
namespace HttpOrigin

namespace Line

theorem length_le_length_dropReturn (body : Bytes) :
    body.length ≤ (dropReturn body).length + 1 := by
  unfold dropReturn
  split
  · rw [List.length_dropLast]
    omega
  · omega

/-- Bytes behind a line feed do not move the place of the first one. -/
theorem cut_append {input after : Bytes} {c : UInt8} (more : Bytes)
    (h : input.dropWhile (· ≠ Bytes.lf) = c :: after) :
    (input ++ more).takeWhile (· ≠ Bytes.lf) = input.takeWhile (· ≠ Bytes.lf) ∧
      (input ++ more).dropWhile (· ≠ Bytes.lf) = c :: (after ++ more) := by
  constructor
  · rw [List.takeWhile_append, if_neg]
    intro hlen
    have hcut := congrArg List.length
      (List.takeWhile_append_dropWhile (p := (· ≠ Bytes.lf)) (l := input))
    rw [List.length_append, h, List.length_cons] at hcut
    omega
  · rw [List.dropWhile_append, h]
    rfl

theorem scan_append_line {input text rest : Bytes} (more : Bytes)
    (h : scan input = .line text rest) : scan (input ++ more) = .line text (rest ++ more) := by
  unfold scan at h
  cases hd : input.dropWhile (· ≠ Bytes.lf) with
  | nil =>
    rw [hd] at h
    dsimp only at h
    split at h <;> cases h
  | cons c after =>
    obtain ⟨htake, hdrop⟩ := cut_append more hd
    rw [hd] at h
    rw [scan, hdrop, htake]
    dsimp only at h ⊢
    split at h
    · cases h
    · rename_i hfits
      rw [if_neg hfits]
      cases h
      rfl

/-- An unterminated line is refused only when no ending could make it short enough. -/
theorem scan_append_tooLong {input : Bytes} (more : Bytes) (h : scan input = .tooLong) :
    scan (input ++ more) = .tooLong := by
  unfold scan at h
  cases hd : input.dropWhile (· ≠ Bytes.lf) with
  | nil =>
    rw [hd] at h
    dsimp only at h
    split at h
    · rename_i hlong
      have hall := List.dropWhile_eq_nil_iff.1 hd
      have htake : (input ++ more).takeWhile (· ≠ Bytes.lf)
          = input ++ more.takeWhile (· ≠ Bytes.lf) := List.takeWhile_append_of_pos hall
      have hdrop : (input ++ more).dropWhile (· ≠ Bytes.lf) = more.dropWhile (· ≠ Bytes.lf) :=
        List.dropWhile_append_of_pos hall
      rw [scan, hdrop, htake]
      cases more.dropWhile (· ≠ Bytes.lf) with
      | nil => exact if_pos (by rw [List.length_append]; omega)
      | cons c after =>
        have := length_le_length_dropReturn (input ++ more.takeWhile (· ≠ Bytes.lf))
        rw [List.length_append] at this
        exact if_pos (by omega)
    · cases h
  | cons c after =>
    obtain ⟨htake, hdrop⟩ := cut_append more hd
    rw [hd] at h
    rw [scan, hdrop, htake]
    dsimp only at h ⊢
    split at h
    · rename_i hlong
      exact if_pos hlong
    · cases h

theorem rest_suffix {input text rest : Bytes} (h : scan input = .line text rest) :
    rest <:+ input := by
  unfold scan at h
  cases hd : input.dropWhile (· ≠ Bytes.lf) with
  | nil =>
    rw [hd] at h
    dsimp only at h
    split at h <;> cases h
  | cons c after =>
    have hsuffix : c :: after <:+ input := hd ▸ List.dropWhile_suffix _
    rw [hd] at h
    dsimp only at h
    split at h
    · cases h
    · rw [Scan.line.injEq] at h
      exact h.2 ▸ (List.suffix_cons c after).trans hsuffix

end Line

namespace Stage

namespace Stop

def rest : Stop → Bytes
  | waiting _ rest | request _ rest | refused _ rest => rest

def extend (more : Bytes) : Stop → Stop
  | waiting s rest => s.advance (rest ++ more)
  | request r rest => request r (rest ++ more)
  | refused e rest => refused e (rest ++ more)

end Stop

theorem advance_body (r : Request) (input : Bytes) :
    (body r).advance input = takeBody r input := by
  rw [advance]

theorem advance_head (h : Head) (input : Bytes) :
    (head h).advance input = match Line.scan input with
      | .incomplete => .waiting (head h) input
      | .tooLong => .refused (.badRequest .lineTooLong) input
      | .line text rest =>
        match h.next (Text.decode text) with
        | .head h' => advance (head h') rest
        | .body r => advance (body r) rest
        | .request r => .request r rest
        | .refused e => .refused e rest := by
  rw [advance]
  split <;> rename_i hscan <;> exact hscan ▸ rfl

theorem advance_nil {h : Head} : (head h).advance [] = .waiting (head h) [] := by
  have hscan : Line.scan [] = .incomplete := by simp [Line.scan]
  rw [advance_head, hscan]

theorem takeBody_append (r : Request) (input more : Bytes) :
    takeBody r (input ++ more) = (takeBody r input).extend more := by
  unfold takeBody
  by_cases hshort : input.length < r.contentLength.getD 0
  · simp only [if_pos hshort, Stop.extend, advance_body, takeBody]
  · have hlong : ¬ (input ++ more).length < r.contentLength.getD 0 := by
      rw [List.length_append]
      omega
    simp only [if_neg hshort, if_neg hlong, Stop.extend]
    rw [List.take_append_of_le_length (by omega), List.drop_append_of_le_length (by omega)]

/-- The pieces in which bytes arrive make no difference to where reading stops. -/
theorem advance_append (s : Stage) (input more : Bytes) :
    s.advance (input ++ more) = (s.advance input).extend more := by
  fun_induction advance s input with
  | case1 input r => rw [advance_body, takeBody_append]
  | case2 input h hscan => rfl
  | case3 input h hscan =>
    rw [advance_head, Line.scan_append_tooLong more hscan]
    rfl
  | case4 input h text rest hscan h' hnext ih =>
    rw [advance_head, Line.scan_append_line more hscan]
    simp only [hnext, ih]
  | case5 input h text rest hscan r hnext ih =>
    rw [advance_head, Line.scan_append_line more hscan]
    simp only [hnext, ih]
  | case6 input h text rest hscan r hnext =>
    rw [advance_head, Line.scan_append_line more hscan]
    simp only [hnext, Stop.extend]
  | case7 input h text rest hscan e hnext =>
    rw [advance_head, Line.scan_append_line more hscan]
    simp only [hnext, Stop.extend]

/-- What a reader leaves is the end of what it was given. -/
theorem rest_advance_suffix (s : Stage) (input : Bytes) : (s.advance input).rest <:+ input := by
  fun_induction advance s input with
  | case1 input r =>
    unfold takeBody
    by_cases hshort : input.length < r.contentLength.getD 0
    · simp only [if_pos hshort, Stop.rest]
      exact List.suffix_refl input
    · simp only [if_neg hshort, Stop.rest]
      exact List.drop_suffix _ input
  | case2 | case3 => exact List.suffix_refl _
  | case4 input h text rest hscan h' hnext ih => exact ih.trans (Line.rest_suffix hscan)
  | case5 input h text rest hscan r hnext ih => exact ih.trans (Line.rest_suffix hscan)
  | case6 input h text rest hscan r hnext => exact Line.rest_suffix hscan
  | case7 input h text rest hscan e hnext => exact Line.rest_suffix hscan

/-- A reader that waits has nothing left to do until more arrives. -/
theorem advance_waiting {s s' : Stage} {input rest : Bytes}
    (h : s.advance input = .waiting s' rest) :
    s'.advance rest = .waiting s' rest := by
  have := advance_append s input []
  rw [List.append_nil, h] at this
  simpa [Stop.extend] using this.symm

end Stage

/-! ### Refusals -/

/-- The peer is owed a status for the error, which is one of those for a bad request. -/
def HttpError.Answerable (e : HttpError) : Prop :=
  ∃ status, e.status? = some status ∧ status.code ∈ [400, 405, 411, 505]

/-! Whatever makes a line inadmissible is answerable. -/

theorem Request.answerable_of_ofLine {line : String} {e : HttpError} (h : ofLine line = .error e) :
    e.Answerable := by
  unfold ofLine at h
  split at h
  · rename_i method uri version hwords
    cases hm : Method.ofToken method with
    | error e' =>
      rw [hm] at h
      cases h
      unfold Method.ofToken at hm
      split at hm <;> cases hm
      exact ⟨_, rfl, by decide⟩
    | ok m =>
      cases hv : Version.ofToken version with
      | error e' =>
        rw [hm, hv] at h
        cases h
        unfold Version.ofToken at hv
        split at hv <;> cases hv
        exact ⟨_, rfl, by decide⟩
      | ok v =>
        rw [hm, hv] at h
        cases h
  · cases h
    exact ⟨_, rfl, by decide⟩

theorem Request.answerable_of_bodyLength {r : Request} {e : HttpError}
    (h : r.bodyLength = .error e) : e.Answerable := by
  unfold bodyLength at h
  split at h
  · cases h
    exact ⟨_, rfl, by decide⟩
  · split at h
    · split at h <;> cases h
      exact ⟨_, rfl, by decide⟩
    · cases h
      exact ⟨_, rfl, by decide⟩

theorem Fields.answerable_of_ofLine {line : String} {e : HttpError} (h : ofLine line = .error e) :
    e.Answerable := by
  unfold ofLine at h
  split at h
  · cases h
    exact ⟨_, rfl, by decide⟩
  · dsimp only at h
    split at h <;> cases h
    exact ⟨_, rfl, by decide⟩

theorem Head.answerable_of_next {h : Head} {line : String} {e : HttpError}
    (hn : h.next line = .refused e) : e.Answerable := by
  cases h with
  | start =>
    simp only [next] at hn
    split at hn
    · cases hn
    · split at hn
      · cases hn
      · rename_i e' hline
        cases hn
        exact Request.answerable_of_ofLine hline
  | fields r =>
    simp only [next] at hn
    split at hn
    · unfold finish at hn
      split at hn
      · cases hn
      · cases hn
      · split at hn
        · cases hn
        · rename_i e' hlen
          cases hn
          exact Request.answerable_of_bodyLength hlen
    · unfold addField at hn
      split at hn
      · rename_i e' hline
        cases hn
        exact Fields.answerable_of_ofLine hline
      · split at hn <;> cases hn
        exact ⟨_, rfl, by decide⟩

theorem Stage.answerable_of_refused {s : Stage} {input rest : Bytes} {e : HttpError}
    (h : s.advance input = .refused e rest) : e.Answerable := by
  fun_induction advance s input with
  | case1 input r =>
    unfold takeBody at h
    dsimp only at h
    split at h <;> cases h
  | case2 => cases h
  | case3 =>
    cases h
    exact ⟨_, rfl, by decide⟩
  | case4 input _ text rest' hscan h' hnext ih => exact ih h
  | case5 input _ text rest' hscan r hnext ih => exact ih h
  | case6 => cases h
  | case7 input _ text rest' hscan e' hnext =>
    cases h
    exact Head.answerable_of_next hnext

theorem Stage.status?_of_refused {s : Stage} {input rest : Bytes} {e : HttpError}
    (h : s.advance input = .refused e rest) : e.status?.isSome := by
  obtain ⟨status, hstatus, -⟩ := answerable_of_refused h
  rw [hstatus]
  rfl

end HttpOrigin
