import HttpOrigin.Proofs.CallAnswers
import HttpOrigin.Proofs.PlainQueue

/-! A send gives away all it can. Each of its writes offers everything that is left, until nothing
is left or until a write would block, takes nothing or fails; an interrupted one is made again. The
bytes that were taken and those that are left are together the bytes that were there, however it
ends. -/
namespace HttpOrigin

structure WriteCall where
  offered : Bytes
  answer : Except Fault Nat

namespace WriteCall

def accepted (w : WriteCall) : Bytes :=
  match w.answer with
  | .ok n => w.offered.take n
  | .error _ => []

def goesOn (w : WriteCall) : Bool :=
  match w.answer with
  | .ok n => n != 0
  | .error f => f == .interrupted

def failure (w : WriteCall) : Option Fault :=
  match w.answer with
  | .ok n => if n = 0 then some .nothingAccepted else none
  | .error f => if f.isHard then some f else none

def outcome (n : Nat) : Option Fault → Except TransportError Nat
  | none => .ok n
  | some f => .error (.io f)

/-- Each write offers all the bytes that those before it have left, which are some, and only one
that does not go on is the last while bytes are left. -/
inductive Greedy : Bytes → List WriteCall → Prop where
  | done : Greedy [] []
  | last (w : WriteCall) : w.offered ≠ [] → w.goesOn = false → Greedy w.offered [w]
  | more (w : WriteCall) (ws : List WriteCall) : w.offered ≠ [] → w.goesOn = true →
      Greedy (w.offered.drop w.accepted.length) ws → Greedy w.offered (w :: ws)

theorem accepted_front (w : WriteCall) : w.accepted <+: w.offered := by
  unfold accepted
  split
  · exact List.take_prefix ..
  · exact List.nil_prefix

theorem stop_cases {w : WriteCall} (h : w.goesOn = false) :
    w.accepted = [] ∧ (w.answer = .error .wouldBlock ∨ ∃ f, w.failure = some f) := by
  obtain ⟨offered, answer⟩ := w
  cases answer with
  | ok n =>
    have hn : n = 0 := by simpa [goesOn] using h
    simp [accepted, failure, hn]
  | error f => cases f <;> simp_all [goesOn, accepted, failure, Fault.isHard]

theorem failure_eq_some_iff {w : WriteCall} {f : Fault} :
    w.failure = some f ↔
      (w.answer = .ok 0 ∧ f = .nothingAccepted) ∨ (w.answer = .error f ∧ f.isHard = true) := by
  obtain ⟨offered, answer⟩ := w
  cases answer with
  | ok n => simp [failure, eq_comm (a := f)]
  | error g =>
    simp only [failure, reduceCtorEq, false_and, false_or, Except.error.injEq]
    constructor
    · intro h
      split at h
      · rename_i hard
        cases h
        exact ⟨rfl, hard⟩
      · cases h
    · rintro ⟨rfl, hard⟩
      exact if_pos hard

theorem failure_of_goesOn {w : WriteCall} (h : w.goesOn = true) : w.failure = none := by
  obtain ⟨offered, answer⟩ := w
  cases answer with
  | ok n => simpa [goesOn, failure] using h
  | error f => cases f <;> simp_all [goesOn, failure, Fault.isHard]

section
variable {q : Bytes} {ws : List WriteCall}

theorem Greedy.eq_nil_iff (h : Greedy q ws) : ws = [] ↔ q = [] := by
  cases h <;> simp_all

theorem Greedy.exists_head (h : Greedy q ws) (hq : q ≠ []) :
    ∃ w rest, ws = w :: rest ∧ w.offered = q := by
  cases h with
  | done => exact absurd rfl hq
  | last w => exact ⟨w, [], rfl, rfl⟩
  | more w rest => exact ⟨w, rest, rfl, rfl⟩

/-- What was taken is the front of what was there. -/
theorem Greedy.accepted_append_drop (h : Greedy q ws) :
    ws.flatMap accepted ++ q.drop (ws.flatMap accepted).length = q := by
  induction h with
  | done => rfl
  | last w hw hstop => simp [(stop_cases hstop).1]
  | more w ws hw hgoes hws ih =>
    have htaken : w.accepted ++ w.offered.drop w.accepted.length = w.offered :=
      (List.prefix_iff_eq_append.1 w.accepted_front)
    rw [List.flatMap_cons, List.length_append, ← List.drop_drop, List.append_assoc, ih, htaken]

theorem Greedy.length_accepted_le (h : Greedy q ws) : (ws.flatMap accepted).length ≤ q.length := by
  have hlength := congrArg List.length h.accepted_append_drop
  rw [List.length_append] at hlength
  omega

/-- At most one write fails, and it is the last. -/
theorem Greedy.failure_iff (h : Greedy q ws) (f : Fault) :
    ws.findSome? failure = some f ↔ ∃ w ∈ ws, w.failure = some f := by
  induction h with
  | done => simp
  | last w hw hstop => simp
  | more w ws hw hgoes hws ih => simp [failure_of_goesOn hgoes, ih]

theorem Greedy.outcome_eq_error_iff (h : Greedy q ws) {n : Nat} {e : TransportError} :
    outcome n (ws.findSome? failure) = .error e ↔ ∃ w ∈ ws,
      (w.answer = .ok 0 ∧ e = .io .nothingAccepted) ∨
      ∃ f, w.answer = .error f ∧ f.isHard = true ∧ e = .io f := by
  have herror : outcome n (ws.findSome? failure) = .error e ↔
      ∃ f, ws.findSome? failure = some f ∧ e = .io f := by
    cases ws.findSome? failure <;> simp [outcome, eq_comm]
  rw [herror]
  constructor
  · rintro ⟨f, hf, rfl⟩
    obtain ⟨w, hw, hfailure⟩ := (h.failure_iff f).1 hf
    refine ⟨w, hw, ?_⟩
    obtain ⟨hzero, rfl⟩ | ⟨hanswer, hard⟩ := failure_eq_some_iff.1 hfailure
    · exact .inl ⟨hzero, rfl⟩
    · exact .inr ⟨f, hanswer, hard, rfl⟩
  · rintro ⟨w, hw, ⟨hzero, rfl⟩ | ⟨f, hanswer, hard, rfl⟩⟩
    · have hfailure := failure_eq_some_iff.2 (.inl ⟨hzero, rfl⟩)
      exact ⟨_, (h.failure_iff _).2 ⟨w, hw, hfailure⟩, rfl⟩
    · have hfailure := failure_eq_some_iff.2 (.inr ⟨hanswer, hard⟩)
      exact ⟨f, (h.failure_iff f).2 ⟨w, hw, hfailure⟩, rfl⟩

/-- Without a failure bytes are left only because a write would block. -/
theorem Greedy.blocks_of_left (h : Greedy q ws) (hnone : ws.findSome? failure = none)
    (hleft : q.drop (ws.flatMap accepted).length ≠ []) :
    ∃ w, ws.getLast? = some w ∧ w.answer = .error .wouldBlock := by
  induction h with
  | done => simp at hleft
  | last w hw hstop =>
    obtain ⟨-, hblock | ⟨f, hf⟩⟩ := stop_cases hstop
    · exact ⟨w, rfl, hblock⟩
    · simp [hf] at hnone
  | more w ws hw hgoes hws ih =>
    rw [List.flatMap_cons, List.length_append, ← List.drop_drop] at hleft
    rw [List.findSome?_cons, failure_of_goesOn hgoes] at hnone
    obtain ⟨last, hlast, hblock⟩ := ih hnone hleft
    refine ⟨last, ?_, hblock⟩
    rw [List.getLast?_cons, hlast]
    rfl

/-- Each write offers what is left then; another one with the same offer follows an interruption. -/
theorem Greedy.offered (h : Greedy q ws) {before after : List WriteCall} {w : WriteCall}
    (hsplit : ws = before ++ w :: after) :
    w.offered = q.drop (before.flatMap accepted).length ∧ w.offered ≠ [] ∧
      (w.answer = .error .interrupted →
        ∃ again rest, after = again :: rest ∧ again.offered = w.offered) := by
  induction h generalizing before with
  | done => simp at hsplit
  | last w' hw hstop =>
    cases before with
    | nil =>
      obtain ⟨rfl, rfl⟩ := List.cons.inj hsplit
      refine ⟨rfl, hw, fun hint => ?_⟩
      simp [goesOn, hint] at hstop
    | cons _ before => simp at hsplit
  | more w' ws hw hgoes hws ih =>
    cases before with
    | nil =>
      obtain ⟨rfl, rfl⟩ := List.cons.inj hsplit
      refine ⟨rfl, hw, fun hint => ?_⟩
      have hsame : w'.offered.drop w'.accepted.length = w'.offered := by simp [accepted, hint]
      exact (hsame ▸ hws).exists_head hw
    | cons first before =>
      obtain ⟨rfl, hrest⟩ := List.cons.inj hsplit
      obtain ⟨hoffered, hne, hagain⟩ := ih hrest
      refine ⟨?_, hne, hagain⟩
      rw [hoffered, List.flatMap_cons, List.length_append, List.drop_drop]

end

end WriteCall

namespace Acceptance

def writeEach : List Nat → List Acceptance → List (Except Fault Nat) × List Acceptance
  | [], script => ([], script)
  | offered :: more, script =>
    let (answer, rest) := write offered script
    let (answers, rest) := writeEach more rest
    (answer :: answers, rest)

end Acceptance

namespace ByteQueue
open Acceptance (writeEach)
open WriteCall (accepted outcome Greedy)

def offer (b : ByteQueue) (item : Acceptance) : WriteCall := ⟨b.toList, item.taken b.length⟩

def sendCalls (b : ByteQueue) : List Acceptance → List WriteCall
  | [] => if b.isEmpty then [] else [b.offer (.fault .wouldBlock)]
  | item :: rest =>
    if b.isEmpty then []
    else b.offer item ::
      if (b.offer item).goesOn then sendCalls (b.skip (b.offer item).accepted.length) rest else []

section
variable {b : ByteQueue} {item : Acceptance}

theorem offer_ok {k : Nat} (h : item.taken b.length = .ok k) :
    (b.offer item).accepted = b.toList.take k ∧ (b.offer item).accepted.length = k := by
  have hk : k ≤ b.toList.length := by
    rw [length_toList]
    exact Acceptance.le_of_taken h
  have htake : (b.offer item).accepted = b.toList.take k := by rw [accepted, offer, h]
  exact ⟨htake, by rw [htake, List.length_take_of_le hk]⟩

theorem sendLoop_of_goesOn (hb : ¬ b.isEmpty = true) (hgoes : (b.offer item).goesOn = true)
    (n : Nat) (written : Bytes) (rest : List Acceptance) :
    sendLoop b n written (item :: rest) = sendLoop (b.skip (b.offer item).accepted.length)
      (n + (b.offer item).accepted.length) (written ++ (b.offer item).accepted) rest := by
  cases htaken : item.taken b.length with
  | ok k =>
    obtain ⟨htake, hlength⟩ := offer_ok htaken
    rw [sendLoop_cons hb n written rest htaken, hlength, htake]
    cases k with
    | zero => simp [WriteCall.goesOn, offer, htaken] at hgoes
    | succ k => rfl
  | error f =>
    have hf : f = .interrupted := by simpa [WriteCall.goesOn, offer, htaken] using hgoes
    have hnone : (b.offer item).accepted = [] := by rw [accepted, offer, htaken]
    rw [sendLoop_cons hb n written rest htaken, hf, hnone, List.append_nil]
    rfl

theorem sendLoop_of_stop (hb : ¬ b.isEmpty = true) (hstop : (b.offer item).goesOn = false)
    (n : Nat) (written : Bytes) (rest : List Acceptance) :
    sendLoop b n written (item :: rest)
      = ⟨outcome n (b.offer item).failure, b, written, rest⟩ := by
  cases htaken : item.taken b.length with
  | ok k =>
    have hk : k = 0 := by simpa [WriteCall.goesOn, offer, htaken] using hstop
    subst hk
    rw [sendLoop_cons hb n written rest htaken]
    simp [WriteCall.failure, offer, htaken, outcome]
  | error f =>
    rw [sendLoop_cons hb n written rest htaken]
    cases f <;> simp_all [WriteCall.failure, offer, outcome, WriteCall.goesOn, Fault.isHard]

end

structure Sends (b : ByteQueue) (n : Nat) (before : Bytes) (script : List Acceptance) : Prop where
  greedy : Greedy b.toList (b.sendCalls script)
  answered : writeEach ((b.sendCalls script).map (·.offered.length)) script
    = ((b.sendCalls script).map (·.answer), (sendLoop b n before script).unused)
  queue : (sendLoop b n before script).queue
    = b.skip ((b.sendCalls script).flatMap accepted).length
  written : (sendLoop b n before script).written
    = before ++ (b.sendCalls script).flatMap accepted
  result : (sendLoop b n before script).result
    = outcome (n + ((b.sendCalls script).flatMap accepted).length)
      ((b.sendCalls script).findSome? WriteCall.failure)

section
variable {b : ByteQueue} {n : Nat} {before : Bytes} {script rest : List Acceptance}

theorem sends_of_isEmpty (hw : b.WellFormed) (hb : b.isEmpty = true) :
    Sends b n before script := by
  have hnil := (isEmpty_iff hw).1 hb
  have hcalls : b.sendCalls script = [] := by cases script <;> exact if_pos hb
  have hloop : sendLoop b n before script = ⟨.ok n, b, before, script⟩ := by
    rw [sendLoop.eq_def, if_pos hb]
  constructor <;> rw [hcalls]
  · rw [hnil]
    exact .done
  all_goals simp [hloop, writeEach, skip, outcome]

/-- The first write is the last one. -/
theorem sends_of_stop (hw : b.WellFormed) (hb : ¬ b.isEmpty = true) (item : Acceptance)
    (hwrite : Acceptance.write b.length script = ((b.offer item).answer, rest))
    (hstop : (b.offer item).goesOn = false) (hcalls : b.sendCalls script = [b.offer item])
    (hloop : sendLoop b n before script
      = ⟨outcome n (b.offer item).failure, b, before, rest⟩) :
    Sends b n before script := by
  have hne : b.toList ≠ [] := mt (isEmpty_iff hw).2 hb
  have hlength : (b.offer item).offered.length = b.length := length_toList b
  obtain ⟨hnone, -⟩ := WriteCall.stop_cases hstop
  constructor <;> rw [hcalls]
  · exact .last (b.offer item) hne hstop
  · simp [writeEach, hlength, hwrite, hloop]
  all_goals simp [hloop, hnone, skip]

/-- A write after which others follow leaves a send of what it did not take. -/
theorem sends_of_goesOn (hw : b.WellFormed) (hb : ¬ b.isEmpty = true) {item : Acceptance}
    (hgoes : (b.offer item).goesOn = true)
    (hs : Sends (b.skip (b.offer item).accepted.length) (n + (b.offer item).accepted.length)
      (before ++ (b.offer item).accepted) rest) :
    Sends b n before (item :: rest) := by
  have hne : b.toList ≠ [] := mt (isEmpty_iff hw).2 hb
  have hlength : (b.offer item).offered.length = b.length := length_toList b
  have hcalls : b.sendCalls (item :: rest)
      = b.offer item :: (b.skip (b.offer item).accepted.length).sendCalls rest := by
    simp [sendCalls, hb, hgoes]
  have hgreedy := hs.greedy
  rw [toList_skip] at hgreedy
  have hloop := sendLoop_of_goesOn hb hgoes n before rest
  constructor <;> rw [hcalls]
  · exact .more (b.offer item) _ hne hgoes hgreedy
  · simp only [List.map_cons, writeEach, hlength, Acceptance.write, hs.answered, hloop]
    rfl
  · rw [hloop, hs.queue, List.flatMap_cons, List.length_append, skip, skip, skip, Nat.add_assoc]
  · rw [hloop, hs.written, List.flatMap_cons, List.append_assoc]
  · rw [hloop, hs.result, List.flatMap_cons, List.length_append, Nat.add_assoc,
      List.findSome?_cons, WriteCall.failure_of_goesOn hgoes]

theorem sends_sendLoop (hw : b.WellFormed) (n : Nat) (before : Bytes)
    (script : List Acceptance) : Sends b n before script := by
  -- The first write either is the last or leaves a send over the rest of the script.
  induction script generalizing b n before with
  | nil =>
    by_cases hb : b.isEmpty = true
    · exact sends_of_isEmpty hw hb
    · refine sends_of_stop hw hb (.fault .wouldBlock) rfl rfl (if_neg hb) ?_
      rw [sendLoop, if_neg hb]
      rfl
  | cons item rest ih =>
    by_cases hb : b.isEmpty = true
    · exact sends_of_isEmpty hw hb
    · cases hgoes : (b.offer item).goesOn with
      | false =>
        have hcalls : b.sendCalls (item :: rest) = [b.offer item] := by
          simp [sendCalls, hb, hgoes]
        exact sends_of_stop hw hb item rfl hgoes hcalls (sendLoop_of_stop hb hgoes n before rest)
      | true =>
        have hfits : (b.offer item).accepted.length ≤ b.length := by
          rw [← length_toList]
          exact (b.offer item).accepted_front.length_le
        exact sends_of_goesOn hw hb hgoes (ih (hw.skip hfits) _ _)

end

/-- Looking after the memory is all that a send does besides its writes. -/
theorem send_eq_sendLoop (b : ByteQueue) (script : List Acceptance) :
    (b.send script).result = (sendLoop b 0 [] script).result ∧
      (b.send script).written = (sendLoop b 0 [] script).written ∧
      (b.send script).unused = (sendLoop b 0 [] script).unused ∧
      (b.send script).queue.toList = (sendLoop b 0 [] script).queue.toList ∧
      ∀ n, (b.send script).result = .ok n →
        (b.send script).queue = (sendLoop b 0 [] script).queue.trim := by
  cases h : (sendLoop b 0 [] script).result <;> simp [send, h]

/-- Whatever has happened to a queue before, the writes of a send offer all that is left each time,
which is never nothing, and an interrupted one is made again. What the writer took, with what is
left, is what there was, in every outcome. A send fails if and only if a write took nothing or
failed for good; else it tells how many bytes were taken, and leaves some only if a write would
block. -/
theorem accepted_append_left (ops : List Op) (script : List Acceptance) :
    let b := (run .empty ops).2
    let s := b.send script
    let calls := b.sendCalls script
    let taken := calls.flatMap accepted
    writeEach (calls.map (·.offered.length)) script = (calls.map (·.answer), s.unused) ∧
    (∀ before w after, calls = before ++ w :: after →
      w.offered = b.toList.drop (before.flatMap accepted).length ∧ w.offered ≠ [] ∧
      (w.answer = .error .interrupted →
        ∃ again rest, after = again :: rest ∧ again.offered = w.offered)) ∧
    (calls = [] ↔ b.toList = []) ∧
    s.written = taken ∧ taken ++ s.queue.toList = b.toList ∧
    (∀ n, s.result = .ok n → n = taken.length ∧
      (s.queue.toList = [] ∨ ∃ w, calls.getLast? = some w ∧ w.answer = .error .wouldBlock)) ∧
    ∀ e, s.result = .error e ↔ ∃ w ∈ calls,
      (w.answer = .ok 0 ∧ e = .io .nothingAccepted) ∨
      ∃ f, w.answer = .error f ∧ f.isHard = true ∧ e = .io f := by
  intro b s calls taken
  have hw : b.WellFormed := (run_refines wellFormed_empty ops).1
  obtain ⟨hresult, hwritten, hunused, hqueue, -⟩ := send_eq_sendLoop b script
  have hs := sends_sendLoop hw 0 [] script
  have hgreedy : Greedy b.toList calls := hs.greedy
  have hleft : s.queue.toList = b.toList.drop taken.length := by
    rw [hqueue, hs.queue, toList_skip]
  have houtcome : s.result = outcome taken.length (calls.findSome? WriteCall.failure) := by
    rw [hresult, hs.result, Nat.zero_add]
  refine ⟨?_, fun before w after => hgreedy.offered, hgreedy.eq_nil_iff, ?_, ?_, ?_, ?_⟩
  · rw [hunused]
    exact hs.answered
  · rw [hwritten, hs.written, List.nil_append]
  · rw [hleft]
    exact hgreedy.accepted_append_drop
  · intro n hn
    cases hfail : calls.findSome? WriteCall.failure with
    | some f => rw [houtcome, hfail, outcome] at hn; cases hn
    | none =>
      rw [houtcome, hfail, outcome, Except.ok.injEq] at hn
      refine ⟨hn.symm, ?_⟩
      by_cases hnil : s.queue.toList = []
      · exact .inl hnil
      · exact .inr (hgreedy.blocks_of_left hfail (hleft ▸ hnil))
  · intro e
    rw [houtcome]
    exact hgreedy.outcome_eq_error_iff

end ByteQueue

end HttpOrigin
