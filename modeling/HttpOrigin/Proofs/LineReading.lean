import HttpOrigin.Proofs.Grammar
import HttpOrigin.Proofs.Receiving

/-! Reading a line is exact: the bytes before the first line feed, less one carriage return directly
before it, are the line, and whether it is short enough does not depend on the pieces in which it
and its ending arrive. -/
namespace HttpOrigin

namespace Line

def Begins (line rest w : Bytes) : Prop :=
  Bytes.lf ∉ line ∧
    (w = line ++ Bytes.crlf ++ rest ∨
      w = line ++ Bytes.lf :: rest ∧ line.getLast? ≠ some Bytes.cr)

inductive Reading (w : Bytes) : Except TransportError (Option String) → Bytes → Prop where
  | line (line rest : Bytes) : Begins line rest w → line.length ≤ maxLine →
      Reading w (.ok (some (Text.decode line))) rest
  | tooLong (line rest : Bytes) : Begins line rest w → maxLine < line.length →
      Reading w (.error (.lineTooLong maxLine)) w
  | endless : Bytes.lf ∉ w → maxLine + 1 < w.length → Reading w (.error (.lineTooLong maxLine)) w
  | unfinished : Bytes.lf ∉ w → w.length ≤ maxLine + 1 → Reading w (.ok none) w

theorem scan_of_begins {line rest w : Bytes} (h : Begins line rest w) :
    scan w = if line.length > maxLine then .tooLong else .line line rest := by
  obtain ⟨hfree, rfl | ⟨rfl, hlast⟩⟩ := h
  · have hbody : Bytes.lf ∉ line ++ [Bytes.cr] := by simpa [Bytes.lf, Bytes.cr] using hfree
    have hcut : line ++ Bytes.crlf ++ rest = line ++ [Bytes.cr] ++ Bytes.lf :: rest := by
      simp [Bytes.crlf]
    rw [hcut, scan_of_cut hbody, dropReturn_append_cr]
  · have hkeep : dropReturn line = line := if_neg hlast
    rw [scan_of_cut hfree, hkeep]

theorem scan_of_free {w : Bytes} (h : Bytes.lf ∉ w) :
    scan w = if w.length > maxLine + 1 then .tooLong else .incomplete := by
  have hnone : w.findIdx? (· == Bytes.lf) = none := by
    rw [List.findIdx?_eq_none_iff]
    intro c hc
    have hne : c ≠ Bytes.lf := by
      rintro rfl
      exact h hc
    simpa using hne
  exact ByteQueue.scan_of_findIdx?_none hnone

theorem exists_begins {w : Bytes} (h : Bytes.lf ∈ w) : ∃ line rest, Begins line rest w := by
  obtain ⟨body, rest, rfl, hbody⟩ := List.eq_append_cons_of_mem h
  by_cases hcr : body.getLast? = some Bytes.cr
  · obtain ⟨line, rfl⟩ := List.getLast?_eq_some_iff.1 hcr
    refine ⟨line, rest, fun hmem => hbody (List.mem_append_left _ hmem), .inl ?_⟩
    simp [Bytes.crlf]
  · exact ⟨body, rest, hbody, .inr ⟨rfl, hcr⟩⟩

def Told (w : Bytes) : Scan → Except TransportError (Option String) → Bytes → Prop
  | .line text rest, answer, left => answer = .ok (some (Text.decode text)) ∧ left = rest
  | .tooLong, answer, left => answer = .error (.lineTooLong maxLine) ∧ left = w
  | .incomplete, answer, left => answer = .ok none ∧ left = w

theorem reading_iff {w left : Bytes} {answer : Except TransportError (Option String)} :
    Reading w answer left ↔ Told w (scan w) answer left := by
  constructor
  · intro h
    cases h with
    | line line rest hbegins hfits =>
      rw [scan_of_begins hbegins, if_neg (by omega)]
      exact ⟨rfl, rfl⟩
    | tooLong line rest hbegins hlong =>
      rw [scan_of_begins hbegins, if_pos hlong]
      exact ⟨rfl, rfl⟩
    | endless hfree hlong =>
      rw [scan_of_free hfree, if_pos hlong]
      exact ⟨rfl, rfl⟩
    | unfinished hfree hshort =>
      rw [scan_of_free hfree, if_neg (by omega)]
      exact ⟨rfl, rfl⟩
  · intro h
    by_cases hlf : Bytes.lf ∈ w
    · obtain ⟨line, rest, hbegins⟩ := exists_begins hlf
      rw [scan_of_begins hbegins] at h
      by_cases hlong : line.length > maxLine
      · rw [if_pos hlong] at h
        obtain ⟨rfl, rfl⟩ := h
        exact .tooLong line rest hbegins hlong
      · rw [if_neg hlong] at h
        obtain ⟨rfl, rfl⟩ := h
        exact .line line left hbegins (by omega)
    · rw [scan_of_free hlf] at h
      by_cases hlong : w.length > maxLine + 1
      · rw [if_pos hlong] at h
        obtain ⟨rfl, rfl⟩ := h
        exact .endless hlf hlong
      · rw [if_neg hlong] at h
        obtain ⟨rfl, rfl⟩ := h
        exact .unfinished hlf (by omega)

/-- There is one reading of any bytes. -/
theorem Reading.unique {w left left' : Bytes}
    {answer answer' : Except TransportError (Option String)} (h : Reading w answer left)
    (h' : Reading w answer' left') : answer' = answer ∧ left' = left := by
  rw [reading_iff] at h h'
  cases hscan : scan w <;>
    · rw [hscan] at h h'
      exact ⟨h'.1.trans h.1.symm, h'.2.trans h.2.symm⟩

section
variable {w left : Bytes} {text : String} {e : TransportError}

theorem Reading.append_line (h : Reading w (.ok (some text)) left) (more : Bytes) :
    Reading (w ++ more) (.ok (some text)) (left ++ more) := by
  rw [reading_iff] at h ⊢
  cases hscan : scan w with
  | line line rest =>
    rw [hscan] at h
    rw [scan_append_line more hscan]
    exact ⟨h.1, by rw [h.2]⟩
  | tooLong =>
    rw [hscan] at h
    cases h.1
  | incomplete =>
    rw [hscan] at h
    cases h.1

theorem Reading.append_error (h : Reading w (.error e) left) (more : Bytes) :
    left = w ∧ Reading (w ++ more) (.error e) (w ++ more) := by
  rw [reading_iff] at h ⊢
  cases hscan : scan w with
  | line line rest =>
    rw [hscan] at h
    cases h.1
  | tooLong =>
    rw [hscan] at h
    rw [scan_append_tooLong more hscan]
    exact ⟨h.2, h.1, rfl⟩
  | incomplete =>
    rw [hscan] at h
    cases h.1

end

end Line

namespace ByteQueue

theorem reading_readLine (b : ByteQueue) :
    Line.Reading b.toList b.readLine.1 b.readLine.2.toList := by
  rw [Line.reading_iff, readLine]
  cases hscan : Line.scan b.toList with
  | incomplete => exact ⟨rfl, rfl⟩
  | tooLong => exact ⟨rfl, rfl⟩
  | line text rest =>
    refine ⟨rfl, ?_⟩
    have hsuffix := Line.rest_suffix hscan
    rw [toList_skip, ← length_toList]
    exact List.suffix_iff_eq_drop.1 hsuffix |>.symm

/-- Nothing is consumed unless a line is given. -/
theorem readLine_keeps {b : ByteQueue} (h : ∀ text, b.readLine.1 ≠ .ok (some text)) :
    b.readLine.2 = b := by
  rw [readLine] at h ⊢
  cases hscan : Line.scan b.toList with
  | incomplete => rfl
  | tooLong => rfl
  | line text rest =>
    rw [hscan] at h
    exact absurd rfl (h (Text.decode text))

/-! ### Bytes that arrive in pieces -/

inductive Inflow where
  | handed (bytes : Bytes)
  | received (script : List Arrival)

namespace Inflow

def bytes : Inflow → Bytes
  | handed bytes => bytes
  | received script => (script.takeWhile Arrival.goesOn).flatMap Arrival.data

def enter (b : ByteQueue) : Inflow → ByteQueue
  | handed bytes => b.append bytes
  | received script => (b.receive script).queue

end Inflow

theorem toList_receive {b : ByteQueue} (hw : b.WellFormed) (script : List Arrival) :
    (b.receive script).queue.toList
      = b.toList ++ (script.takeWhile Arrival.goesOn).flatMap Arrival.data := by
  obtain ⟨earlier, last, hr⟩ := exists_reads hw.trim 0 script
  obtain ⟨htaken, -, -⟩ := Arrival.readEach_of_stop hr.readEach hr.offers_pos
    hr.continues_earlier hr.continues_last
  have hqueue := hr.queue
  rwa [htaken, toList_trim] at hqueue

theorem WellFormed.enter {b : ByteQueue} (hw : b.WellFormed) (f : Inflow) :
    (f.enter b).WellFormed := by
  cases f with
  | handed bytes => exact hw.append bytes
  | received script => exact (receive_conserves hw script).1

theorem toList_enter {b : ByteQueue} (hw : b.WellFormed) (f : Inflow) :
    (f.enter b).toList = b.toList ++ f.bytes := by
  cases f with
  | handed bytes => exact toList_append hw bytes
  | received script => exact toList_receive hw script

structure Awaited where
  answer : Except TransportError (Option String)
  queue : ByteQueue
  ahead : List Inflow

def Awaited.left (a : Awaited) : Bytes := a.queue.toList ++ a.ahead.flatMap Inflow.bytes

/-- Tries to read a line before each piece comes in and after the last. -/
def awaitLine (b : ByteQueue) : List Inflow → Awaited
  | [] => ⟨b.readLine.1, b.readLine.2, []⟩
  | f :: fs =>
    match b.readLine.1 with
    | .ok none => awaitLine (f.enter b.readLine.2) fs
    | answer => ⟨answer, b.readLine.2, f :: fs⟩

theorem reading_awaitLine {b : ByteQueue} (hw : b.WellFormed) (fs : List Inflow) :
    Line.Reading (b.toList ++ fs.flatMap Inflow.bytes) (b.awaitLine fs).answer
      (b.awaitLine fs).left := by
  induction fs generalizing b with
  | nil =>
    have hb := reading_readLine b
    simpa [awaitLine, Awaited.left] using hb
  | cons f fs ih =>
    have hb := reading_readLine b
    cases hanswer : b.readLine.1 with
    | error e =>
      rw [hanswer] at hb
      obtain ⟨hleft, hmore⟩ := hb.append_error ((f :: fs).flatMap Inflow.bytes)
      have hawait : b.awaitLine (f :: fs) = ⟨.error e, b.readLine.2, f :: fs⟩ := by
        simp [awaitLine, hanswer]
      rw [hawait, Awaited.left, hleft]
      exact hmore
    | ok line =>
      cases line with
      | some text =>
        rw [hanswer] at hb
        have hawait : b.awaitLine (f :: fs) = ⟨.ok (some text), b.readLine.2, f :: fs⟩ := by
          simp [awaitLine, hanswer]
        rw [hawait]
        exact hb.append_line ((f :: fs).flatMap Inflow.bytes)
      | none =>
        have hkeep : b.readLine.2 = b := readLine_keeps (by simp [hanswer])
        have hawait : b.awaitLine (f :: fs) = (f.enter b).awaitLine fs := by
          simp [awaitLine, hanswer, hkeep]
        have hf := ih (hw.enter f)
        rwa [toList_enter hw, List.append_assoc, ← List.flatMap_cons, ← hawait] at hf

/-- Whatever has happened to a queue before, reading a line gives the bytes before the first line
feed, less one carriage return directly before it, as text, and consumes them with their ending, if
they are not too many; it refuses a line that is too long already; else nothing is given, and
nothing is consumed unless a line is given. More bytes behind change neither a line nor a refusal.
So the line that comes out, or is refused, is that of all bytes together, in whatever pieces they
arrive. -/
theorem readLine_of_inflows (ops ops' : List Op) (more : Bytes) (inflows : List Inflow) :
    let b := (run .empty ops).2
    let b' := (run .empty ops').2
    let awaited := b.awaitLine inflows
    let whole := b.toList ++ inflows.flatMap Inflow.bytes
    (∀ answer left, Line.Reading b.toList answer left ↔
      answer = b.readLine.1 ∧ left = b.readLine.2.toList) ∧
    ((∀ text, b.readLine.1 ≠ .ok (some text)) → b.readLine.2 = b) ∧
    (b'.toList = b.toList ++ more →
      (∀ text, b.readLine.1 = .ok (some text) →
        b'.readLine.1 = .ok (some text) ∧ b'.readLine.2.toList = b.readLine.2.toList ++ more) ∧
      ∀ e, b.readLine.1 = .error e → b'.readLine = (.error e, b')) ∧
    (∀ answer left, Line.Reading whole answer left ↔
      answer = awaited.answer ∧ left = awaited.left) ∧
    ∀ line rest, Line.Begins line rest whole →
      ((∃ text, awaited.answer = .ok (some text)) ↔ line.length ≤ maxLine) := by
  intro b b' awaited whole
  have hw : b.WellFormed := (run_refines wellFormed_empty ops).1
  have hb := reading_readLine b
  have hb' := reading_readLine b'
  have hwhole : Line.Reading whole awaited.answer awaited.left := reading_awaitLine hw inflows
  refine ⟨fun answer left => ?_, readLine_keeps,
    fun hcontent => ⟨fun text htext => ?_, fun e he => ?_⟩, fun answer left => ?_,
    fun line rest hbegins => ?_⟩
  · constructor
    · exact hb.unique
    · rintro ⟨rfl, rfl⟩
      exact hb
  · rw [htext] at hb
    have hmore := hb.append_line more
    rw [← hcontent] at hmore
    exact hmore.unique hb'
  · rw [he] at hb
    obtain ⟨-, hmore⟩ := hb.append_error more
    rw [← hcontent] at hmore
    obtain ⟨hanswer, -⟩ := hmore.unique hb'
    have hkeep : b'.readLine.2 = b' := readLine_keeps (by simp [hanswer])
    exact Prod.ext hanswer hkeep
  · constructor
    · exact hwhole.unique
    · rintro ⟨rfl, rfl⟩
      exact hwhole
  · constructor
    · rintro ⟨text, htext⟩
      rw [htext, Line.reading_iff, Line.scan_of_begins hbegins] at hwhole
      by_contra hlong
      rw [if_pos (by omega)] at hwhole
      cases hwhole.1
    · intro hfits
      obtain ⟨hanswer, -⟩ := hwhole.unique (.line line rest hbegins hfits)
      exact ⟨_, hanswer.symm⟩

end ByteQueue

end HttpOrigin
