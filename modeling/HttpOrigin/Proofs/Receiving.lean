import HttpOrigin.Proofs.CallAnswers
import HttpOrigin.Proofs.PlainQueue

/-! A receive takes all there is. It reads until a read blocks, meets the end or fails; an
interrupted read is made again. What it takes are the bytes up to there, however they are cut by the
space that the reads offer, and as it always offers some, no full memory is taken for the end. -/
namespace HttpOrigin

namespace Arrival

def data : Arrival → Bytes
  | .bytes data => data
  | .fault _ => []

def goesOn : Arrival → Bool
  | .bytes data => !data.isEmpty
  | .fault f => f == .interrupted

def stopAnswer : Option Arrival → Except Fault Bytes
  | none => .error .wouldBlock
  | some (.bytes data) => .ok data
  | some (.fault f) => .error f

def continues : Except Fault Bytes → Bool
  | .ok data => !data.isEmpty
  | .error f => f == .interrupted

def brought : Except Fault Bytes → Bytes
  | .ok data => data
  | .error _ => []

/-- Successive reads with these spaces: their answers and what later reads meet. -/
def readEach : List Nat → List Arrival → List (Except Fault Bytes) × List Arrival
  | [], script => ([], script)
  | space :: spaces, script =>
    let (answer, rest) := read space script
    let (answers, rest) := readEach spaces rest
    (answer :: answers, rest)

section
variable {space : Nat} {script rest : List Arrival} {answer : Except Fault Bytes}

/-- A read after which others follow takes a front of the bytes that are to be taken. -/
theorem read_of_continues (h : read space script = (answer, rest))
    (hgoes : continues answer = true) :
    rest.dropWhile goesOn = script.dropWhile goesOn ∧
      (script.takeWhile goesOn).flatMap data
        = brought answer ++ (rest.takeWhile goesOn).flatMap data := by
  cases script with
  | nil =>
    cases h
    cases hgoes
  | cons a script =>
    cases a with
    | fault f =>
      cases h
      have hon : goesOn (.fault f) = true := hgoes
      simp [hon, data, brought]
    | bytes arrived =>
      rw [read] at h
      split at h
      · cases h
        have hon : goesOn (.bytes arrived) = true := hgoes
        simp [hon, data, brought]
      · rename_i hlong
        cases h
        have hon : goesOn (.bytes arrived) = true := by
          cases arrived with
          | nil => exact absurd (Nat.zero_le space) hlong
          | cons c cs => rfl
        have hleft : goesOn (.bytes (arrived.drop space)) = true := by
          simpa [goesOn] using hlong
        simp only [List.dropWhile_cons, List.takeWhile_cons, hon, hleft, if_true,
          List.flatMap_cons, data, brought, ← List.append_assoc, List.take_append_drop, and_self]

/-- A read after which no other follows takes the item at which to stop. -/
theorem read_of_not_continues (h : read space script = (answer, rest)) (hspace : 0 < space)
    (hstops : continues answer = false) :
    script.takeWhile goesOn = [] ∧ answer = stopAnswer (script.dropWhile goesOn).head? ∧
      rest = (script.dropWhile goesOn).tail := by
  cases script with
  | nil =>
    cases h
    exact ⟨rfl, rfl, rfl⟩
  | cons a script =>
    cases a with
    | fault f =>
      cases h
      have hon : goesOn (.fault f) = false := hstops
      simp [hon, stopAnswer]
    | bytes arrived =>
      rw [read] at h
      split at h
      · cases h
        have hon : goesOn (.bytes arrived) = false := hstops
        simp [hon, stopAnswer]
      · rename_i hlong
        cases h
        have : 0 < (arrived.take space).length := by
          rw [List.length_take]
          omega
        cases htake : arrived.take space with
        | nil => simp [htake] at this
        | cons c cs => simp [htake, continues] at hstops

theorem readEach_cons (spaces : List Nat) (h : read space script = (answer, rest)) :
    readEach (space :: spaces) script
      = (answer :: (readEach spaces rest).1, (readEach spaces rest).2) := by
  rw [readEach, h]

theorem stopAnswer_eq_wouldBlock_iff {stop : Option Arrival} :
    stopAnswer stop = .error .wouldBlock ↔ stop = none ∨ stop = some (.fault .wouldBlock) := by
  cases stop with
  | none => simp [stopAnswer]
  | some a => cases a <;> simp [stopAnswer]

theorem stopAnswer_eq_hard_iff {stop : Option Arrival} {f : Fault} (hf : f.isHard = true) :
    stopAnswer stop = .error f ↔ stop = some (.fault f) := by
  cases stop with
  | none =>
    have hne : Fault.wouldBlock ≠ f := by
      rintro rfl
      cases hf
    simp [stopAnswer, hne]
  | some a => cases a <;> simp [stopAnswer]

end

/-- However much space the reads offer, as long as it is some, those up to the one that stops take
the same bytes, stop at the same item and leave the same behind. -/
theorem readEach_of_stop {spaces : List Nat} {script rest : List Arrival}
    {earlier : List (Except Fault Bytes)} {last : Except Fault Bytes}
    (h : readEach spaces script = (earlier ++ [last], rest)) (hspaces : ∀ n ∈ spaces, 0 < n)
    (hearlier : ∀ a ∈ earlier, continues a = true) (hlast : continues last = false) :
    earlier.flatMap brought = (script.takeWhile goesOn).flatMap data ∧
      last = stopAnswer (script.dropWhile goesOn).head? ∧
      rest = (script.dropWhile goesOn).tail := by
  induction spaces generalizing script earlier with
  | nil => simp [readEach] at h
  | cons space spaces ih =>
    rw [List.forall_mem_cons] at hspaces
    cases hread : read space script with
    | mk answer left =>
      rw [readEach_cons spaces hread, Prod.mk.injEq] at h
      cases earlier with
      | nil =>
        rw [List.nil_append, List.cons.injEq] at h
        obtain ⟨⟨rfl, hnone⟩, rfl⟩ := h
        obtain ⟨htake, hlast, hleft⟩ := read_of_not_continues hread hspaces.1 hlast
        cases spaces with
        | nil => exact ⟨by rw [htake]; rfl, hlast, hleft⟩
        | cons _ _ => cases hnone
      | cons a earlier =>
        rw [List.forall_mem_cons] at hearlier
        rw [List.cons_append, List.cons.injEq] at h
        obtain ⟨⟨rfl, hanswers⟩, hrest⟩ := h
        obtain ⟨hdrop, htake⟩ := read_of_continues hread hearlier.1
        obtain ⟨hbrought, hlast, hleft⟩ := ih (Prod.ext hanswers hrest) hspaces.2 hearlier.2
        rw [List.flatMap_cons, htake, hbrought, hlast, hleft, hdrop]
        exact ⟨rfl, rfl, rfl⟩

end Arrival

namespace ByteQueue
open Arrival (brought continues goesOn readEach stopAnswer)

def offers (b : ByteQueue) : List (Except Fault Bytes) → List Nat
  | [] => []
  | .ok data :: answers => b.withRoom.free :: offers (b.withRoom.push data).loosen answers
  | .error _ :: answers => b.withRoom.free :: offers b.withRoom answers

def Receipt.outcome (n : Nat) : Except Fault Bytes → Except TransportError Receipt
  | .ok _ => .ok (.ended n)
  | .error .wouldBlock => .ok (.stillOpen n)
  | .error f => .error (.io f)

structure Reads (b : ByteQueue) (n : Nat) (script : List Arrival)
    (earlier : List (Except Fault Bytes)) (last : Except Fault Bytes) : Prop where
  answers : b.receiveAnswers script = earlier ++ [last]
  continues_earlier : ∀ a ∈ earlier, continues a = true
  continues_last : continues last = false
  offers_pos : ∀ space ∈ b.offers (earlier ++ [last]), 0 < space
  readEach : Arrival.readEach (b.offers (earlier ++ [last])) script
    = (earlier ++ [last], (receiveLoop b n script).unread)
  queue : (receiveLoop b n script).queue.toList = b.toList ++ earlier.flatMap brought
  result : (receiveLoop b n script).result
    = Receipt.outcome (n + (earlier.flatMap brought).length) last

section
variable {b : ByteQueue} {n : Nat} {script rest : List Arrival}

theorem reads_of_stop (hw : b.WellFormed) {last : Except Fault Bytes}
    (h : Arrival.read b.withRoom.free script = (last, rest)) (hlast : continues last = false) :
    Reads b n script [] last := by
  have hanswers := receiveAnswers_eq h
  have hloop := receiveLoop_eq n h
  have hoffers : b.offers [last] = [b.withRoom.free] := by
    cases last <;> rfl
  have hcourse : b.receiveAnswers script = [last] ∧
      receiveLoop b n script = ⟨Receipt.outcome n last, b.withRoom, rest⟩ := by
    cases last with
    | ok data =>
      cases data with
      | nil => exact ⟨hanswers, hloop⟩
      | cons c cs => cases hlast
    | error f =>
      cases f <;> first | exact ⟨hanswers, hloop⟩ | cases hlast
  refine ⟨hcourse.1, ?_, hlast, ?_, ?_, ?_, ?_⟩
  · simp
  · rw [List.nil_append, hoffers]
    simpa using free_withRoom_pos hw
  · rw [List.nil_append, hoffers, Arrival.readEach_cons [] h, hcourse.2]
    rfl
  · rw [hcourse.2]
    simp
  · rw [hcourse.2]
    rfl

/-- A read after which others follow leaves a receive that has brought more. -/
theorem Reads.cons (hw : b.WellFormed) {b' : ByteQueue} {answer last : Except Fault Bytes}
    {earlier : List (Except Fault Bytes)}
    (h : Arrival.read b.withRoom.free script = (answer, rest)) (hgoes : continues answer = true)
    (hanswers : b.receiveAnswers script = answer :: b'.receiveAnswers rest)
    (hloop : receiveLoop b n script = receiveLoop b' (n + (brought answer).length) rest)
    (hoffers : ∀ answers, b.offers (answer :: answers) = b.withRoom.free :: b'.offers answers)
    (hcontent : b'.toList = b.toList ++ brought answer)
    (hr : Reads b' (n + (brought answer).length) rest earlier last) :
    Reads b n script (answer :: earlier) last := by
  constructor
  · rw [hanswers, hr.answers, List.cons_append]
  · rw [List.forall_mem_cons]
    exact ⟨hgoes, hr.continues_earlier⟩
  · exact hr.continues_last
  · rw [List.cons_append, hoffers, List.forall_mem_cons]
    exact ⟨free_withRoom_pos hw, hr.offers_pos⟩
  · rw [List.cons_append, hoffers, Arrival.readEach_cons _ h, hr.readEach, hloop]
  · rw [hloop, hr.queue, hcontent, List.flatMap_cons, List.append_assoc]
  · rw [hloop, hr.result, List.flatMap_cons, List.length_append, Nat.add_assoc]

end

/-- A receive reads on until a read stops it. -/
theorem exists_reads {b : ByteQueue} (hw : b.WellFormed) (n : Nat) (script : List Arrival) :
    ∃ earlier last, Reads b n script earlier last := by
  fun_induction receiveLoop b n script with
  | case1 b n script rest h => exact ⟨[], _, reads_of_stop hw h rfl⟩
  | case2 b n script c cs rest h ih =>
    obtain ⟨hfits, -⟩ := Arrival.content_of_read_ok h
    have hcontent : (b.withRoom.push (c :: cs)).loosen.toList = b.toList ++ (c :: cs) := by
      rw [toList_loosen, toList_push hw.withRoom.1, toList_withRoom]
    obtain ⟨earlier, last, hr⟩ := ih (hw.withRoom.push hfits).loosen
    exact ⟨_, last, hr.cons hw h rfl (receiveAnswers_eq h) (receiveLoop_eq n h) (fun _ => rfl)
      hcontent⟩
  | case3 b n script rest h => exact ⟨[], _, reads_of_stop hw h rfl⟩
  | case4 b n script rest h ih =>
    have hcontent : b.withRoom.toList = b.toList ++ [] := by
      rw [toList_withRoom, List.append_nil]
    obtain ⟨earlier, last, hr⟩ := ih hw.withRoom
    exact ⟨_, last, hr.cons hw h rfl (receiveAnswers_eq h) (receiveLoop_eq n h) (fun _ => rfl)
      hcontent⟩
  | case5 b n script f rest hblock hagain h =>
    have hlast : continues (.error f) = false := by simpa [continues] using hagain
    exact ⟨[], _, reads_of_stop hw h hlast⟩

theorem stop_cases {last : Except Fault Bytes} (hlast : continues last = false) :
    last = .error .wouldBlock ∨ last = .ok [] ∨ ∃ f, last = .error f ∧ f.isHard = true := by
  cases last with
  | ok data =>
    cases data with
    | nil => exact .inr (.inl rfl)
    | cons c cs => cases hlast
  | error f =>
    cases f with
    | wouldBlock => exact .inl rfl
    | interrupted => cases hlast
    | _ => exact .inr (.inr ⟨_, rfl, rfl⟩)

theorem Receipt.outcome_of_hard {f : Fault} (hf : f.isHard = true) (n : Nat) :
    outcome n (.error f) = .error (.io f) := by
  cases f <;> first | rfl | cases hf

theorem Receipt.outcome_iff {last : Except Fault Bytes} (hlast : continues last = false) (n : Nat) :
    (∀ m, outcome n last = .ok (.stillOpen m) ↔ last = .error .wouldBlock ∧ m = n) ∧
      (∀ m, outcome n last = .ok (.ended m) ↔ last = .ok [] ∧ m = n) ∧
      ∀ e, outcome n last = .error e ↔ ∃ f, last = .error f ∧ f.isHard = true ∧ e = .io f := by
  obtain rfl | rfl | ⟨f, rfl, hf⟩ := stop_cases hlast
  · refine ⟨fun m => ?_, fun m => ?_, fun e => ?_⟩
    · simp [outcome, eq_comm (a := m)]
    · simp [outcome]
    · simp [outcome, Fault.isHard]
  · refine ⟨fun m => ?_, fun m => ?_, fun e => ?_⟩
    · simp [outcome]
    · simp [outcome, eq_comm (a := m)]
    · simp [outcome]
  · have hne : f ≠ .wouldBlock := by
      rintro rfl
      cases hf
    rw [outcome_of_hard hf]
    refine ⟨fun m => ?_, fun m => ?_, fun e => ?_⟩
    · simp [hne]
    · simp
    · simp [hf, eq_comm (a := e)]

/-- Whatever has happened to a queue before, a receive reads, always offering some space, until it
would block, meets the end or fails for good, and reads again when it was interrupted. It appends
the bytes of the script up to there, all of them, each once and in order, and takes nothing that
lies behind. How it ends and how many bytes it has brought is told by where it stops. -/
theorem receive_takes_all (ops : List Op) (script : List Arrival) :
    let b := (run .empty ops).2
    let got := b.receive script
    let answers := b.trim.receiveAnswers script
    let spaces := b.trim.offers answers
    let taken := (script.takeWhile goesOn).flatMap Arrival.data
    let stop := (script.dropWhile goesOn).head?
    readEach spaces script = (answers, got.unread) ∧ (∀ space ∈ spaces, 0 < space) ∧
    (∃ earlier, answers = earlier ++ [stopAnswer stop] ∧ ∀ a ∈ earlier, continues a = true) ∧
    got.queue.toList = b.toList ++ taken ∧
    got.unread = (script.dropWhile goesOn).tail ∧
    (∀ n, got.result = .ok (.stillOpen n) ↔
      (stop = none ∨ stop = some (.fault .wouldBlock)) ∧ n = taken.length) ∧
    (∀ n, got.result = .ok (.ended n) ↔ .ok [] ∈ answers ∧ n = taken.length) ∧
    ∀ e, got.result = .error e ↔ ∃ f, stop = some (.fault f) ∧ f.isHard = true ∧ e = .io f := by
  intro b got answers spaces taken stop
  have hw : b.WellFormed := (run_refines wellFormed_empty ops).1
  obtain ⟨earlier, last, hr⟩ := exists_reads hw.trim 0 script
  have hanswers : answers = earlier ++ [last] := hr.answers
  obtain ⟨htaken, hstop, hunread⟩ := Arrival.readEach_of_stop hr.readEach hr.offers_pos
    hr.continues_earlier hr.continues_last
  have hresult : got.result = Receipt.outcome taken.length last := by
    have := hr.result
    rwa [htaken, Nat.zero_add] at this
  have hqueue : got.queue.toList = b.toList ++ taken := by
    have := hr.queue
    rwa [htaken, toList_trim] at this
  obtain ⟨hopen, hended, herror⟩ := Receipt.outcome_iff hr.continues_last taken.length
  have hends : last = .ok [] ↔ .ok [] ∈ earlier ++ [last] := by
    have hnot : .ok [] ∉ earlier := fun h => Bool.false_ne_true (hr.continues_earlier _ h)
    simp [hnot, eq_comm]
  rw [← hanswers] at hends
  refine ⟨?_, ?_, ⟨earlier, ?_, hr.continues_earlier⟩, hqueue, hunread, ?_, ?_, ?_⟩
  · have hread := hr.readEach
    rwa [← hanswers] at hread
  · have hpos := hr.offers_pos
    rwa [← hanswers] at hpos
  · rw [hanswers, hstop]
  · intro n
    rw [hresult, hopen, hstop, Arrival.stopAnswer_eq_wouldBlock_iff]
  · intro n
    rw [hresult, hended, hends]
  · intro e
    rw [hresult, herror]
    apply exists_congr
    intro f
    rw [hstop]
    exact and_congr_left fun h => Arrival.stopAnswer_eq_hard_iff h.1

end ByteQueue

end HttpOrigin
