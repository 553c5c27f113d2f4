import HttpOrigin.Proofs.FileCalls
import HttpOrigin.Proofs.Receiving
import HttpOrigin.Proofs.Sending

/-! Errors of the transport. A receive, a send or a step of a file fails just if one of its calls
goes wrong, and so does an event, whatever the requests say that it serves. -/
namespace HttpOrigin

/-! ### Calls that go wrong -/

namespace ByteQueue
open Arrival (goesOn)

theorem receive_eq_error_iff {b : ByteQueue} (hw : b.WellFormed) (script : List Arrival)
    (e : TransportError) : (b.receive script).result = .error e ↔
      ∃ before f after, script = before ++ .fault f :: after ∧ (∀ a ∈ before, goesOn a = true) ∧
        f.isHard = true ∧ e = .io f := by
  obtain ⟨earlier, last, hr⟩ := exists_reads hw.trim 0 script
  obtain ⟨-, hstop, -⟩ := Arrival.readEach_of_stop hr.readEach hr.offers_pos
    hr.continues_earlier hr.continues_last
  obtain ⟨-, -, herror⟩ := Receipt.outcome_iff hr.continues_last
    (0 + (earlier.flatMap Arrival.brought).length)
  have hresult : (b.receive script).result = _ := hr.result
  rw [hresult, herror]
  constructor
  · rintro ⟨f, hlast, hard, rfl⟩
    rw [hstop, Arrival.stopAnswer_eq_hard_iff hard, List.head?_eq_some_iff] at hlast
    obtain ⟨after, hdrop⟩ := hlast
    refine ⟨script.takeWhile goesOn, f, after, ?_, fun a ha => List.mem_takeWhile_imp ha, hard, rfl⟩
    rw [← hdrop, List.takeWhile_append_dropWhile]
  · rintro ⟨before, f, after, rfl, hbefore, hard, rfl⟩
    refine ⟨f, ?_, hard, rfl⟩
    have hfault : goesOn (.fault f) = false := by cases f <;> first | rfl | cases hard
    rw [hstop, Arrival.stopAnswer_eq_hard_iff hard, List.dropWhile_append_of_pos hbefore,
      List.dropWhile_cons_of_neg (by simp [hfault])]
    rfl

end ByteQueue

theorem Acceptance.writeEach_append {offers more : List Nat} {script rest rest' : List Acceptance}
    {answers answers' : List (Except Fault Nat)} (h : writeEach offers script = (answers, rest))
    (h' : writeEach more rest = (answers', rest')) :
    writeEach (offers ++ more) script = (answers ++ answers', rest') := by
  induction offers generalizing script answers with
  | nil =>
    cases h
    exact h'
  | cons offered offers ih =>
    simp only [writeEach, Prod.mk.injEq] at h
    obtain ⟨rfl, hrest⟩ := h
    simp only [List.cons_append, writeEach, ih (Prod.ext rfl hrest)]

namespace FileStream
open Acceptance (writeEach)

inductive Call.Fails : Call → Fault → Prop where
  | read {f : Fault} : f.isHard = true → Fails (.read (.error f)) f
  | write {offered : Bytes} {f : Fault} : f.isHard = true → Fails (.write offered (.error f)) f
  | nothing {offered : Bytes} : Fails (.write offered (.ok 0)) .nothingAccepted

namespace Call

theorem Fails.unique {call : Call} {f f' : Fault} (h : call.Fails f) (h' : call.Fails f') :
    f' = f := by
  cases h <;> cases h' <;> rfl

def offered? : Call → Option Nat
  | write offered _ => some offered.length
  | read _ | close => none

def taken? : Call → Option (Except Fault Nat)
  | write _ answer => some answer
  | read _ | close => none

end Call

def Fail (made : List Call) (e : TransportError) : Prop :=
  ∃ call ∈ made, ∃ f, call.Fails f ∧ e = .io f

theorem fail_singleton {call : Call} {e : TransportError} :
    Fail [call] e ↔ ∃ f, call.Fails f ∧ e = .io f := by
  simp [Fail]

theorem fail_append {made more : List Call} {e : TransportError} :
    Fail (made ++ more) e ↔ Fail made e ∨ Fail more e := by
  simp only [Fail, List.mem_append, or_and_right, exists_or]

theorem not_fail_append {made : List Call} {call : Call} (hfine : ∀ e, ¬ Fail made e)
    (hcall : ∀ f, ¬ call.Fails f) : ∀ e, ¬ Fail (made ++ [call]) e := by
  intro e
  rw [fail_append, fail_singleton]
  rintro (hfail | ⟨f, hfails, -⟩)
  · exact hfine e hfail
  · exact hcall f hfails

def Answered (made : List Call) (script rest : List Acceptance) : Prop :=
  writeEach (made.filterMap Call.offered?) script = (made.filterMap Call.taken?, rest)

theorem Answered.append {made more : List Call} {script rest rest' : List Acceptance}
    (h : Answered made script rest) (h' : Answered more rest rest') :
    Answered (made ++ more) script rest' := by
  rw [Answered, List.filterMap_append, List.filterMap_append]
  exact Acceptance.writeEach_append h h'

namespace Machine

theorem calls_close (m : Machine) :
    m.close.calls = if (m.stream.close m.readiness).1 then m.calls ++ [.close] else m.calls := rfl

theorem fail_close {m : Machine} {e : TransportError} : Fail m.close.calls e ↔ Fail m.calls e := by
  rw [calls_close]
  split
  · rw [fail_append, fail_singleton]
    refine or_iff_left ?_
    rintro ⟨f, ⟨⟩, -⟩
  · rfl

theorem answered_close {m : Machine} {script rest : List Acceptance}
    (h : Answered m.calls script rest) : Answered m.close.calls script rest := by
  rw [calls_close]
  split
  · exact h.append rfl
  · exact h

structure Tells (script : List Acceptance) (p : Except TransportError Progress × Machine) :
    Prop where
  error_iff : ∀ e, p.1 = .error e ↔ Fail p.2.calls e
  answered : Answered p.2.calls script p.2.script

section
variable {m : Machine} {script : List Acceptance}

theorem tells_of_fine (hfine : ∀ e, ¬ Fail m.calls e) (ha : Answered m.calls script m.script)
    (p : Progress) : Tells script (.ok p, m) where
  error_iff e := by
    refine iff_of_false ?_ (hfine e)
    rintro ⟨⟩
  answered := ha

theorem tells_close_of_fine (hfine : ∀ e, ¬ Fail m.calls e)
    (ha : Answered m.calls script m.script) (p : Progress) : Tells script (.ok p, m.close) := by
  have hclose : ∀ e, ¬ Fail m.close.calls e := by
    intro e
    rw [fail_close]
    exact hfine e
  exact tells_of_fine hclose (answered_close ha) p

/-- The last call has gone wrong and the file is closed. -/
theorem tells_of_failed {before : List Call} {call : Call} {f : Fault}
    (hcalls : m.calls = before ++ [call]) (hfine : ∀ e, ¬ Fail before e) (hf : call.Fails f)
    (ha : Answered m.calls script m.script) : Tells script (.error (.io f), m.close) where
  error_iff e := by
    rw [fail_close, hcalls, fail_append, or_iff_right (hfine e), fail_singleton]
    constructor
    · rintro ⟨⟩
      exact ⟨f, hf, rfl⟩
    · rintro ⟨f', hf', rfl⟩
      rw [hf.unique hf']
  answered := answered_close ha

theorem tells_send (hfine : ∀ e, ¬ Fail m.calls e) (ha : Answered m.calls script m.script) :
    Tells script m.send := by
  have hlength : m.stream.staged.length = m.stream.pending := List.length_drop
  cases hw : Acceptance.write m.stream.pending m.script with
  | mk answer rest =>
    let next : Machine :=
      { m with script := rest, calls := m.calls ++ [.write m.stream.staged answer] }
    have hanswered : Answered next.calls script next.script := by
      refine ha.append ?_
      simp [Answered, Call.offered?, Call.taken?, writeEach, hlength, hw, next]
    cases answer with
    | ok n =>
      cases n with
      | zero =>
        have hsend : m.send = (.error (.io .nothingAccepted), next.close) := by
          simp [send, write, hw, next]
        rw [hsend]
        exact tells_of_failed rfl hfine .nothing hanswered
      | succ n =>
        have hsend : m.send = (.ok .more, next.advance (n + 1)) := by
          simp [send, write, hw, next]
        have hgoes : ∀ f, ¬ (Call.write m.stream.staged (.ok (n + 1))).Fails f := by rintro f ⟨⟩
        rw [hsend]
        exact tells_of_fine (m := next.advance (n + 1)) (not_fail_append hfine hgoes) hanswered _
    | error f =>
      cases hf : f.isHard with
      | true =>
        have hsend : m.send = (.error (.io f), next.close) := by
          simp [send, write, hw, hf, next]
        rw [hsend]
        exact tells_of_failed rfl hfine (.write hf) hanswered
      | false =>
        have hsend : m.send = (.ok .more, next) := by
          simp [send, write, hw, hf, next]
        have hgoes : ∀ f', ¬ (Call.write m.stream.staged (.error f)).Fails f' := by
          intro f' hfails
          cases hfails with
          | write hard => cases hf.symm.trans hard
        rw [hsend]
        exact tells_of_fine (not_fail_append hfine hgoes) hanswered _

end

theorem tells_step (s : FileStream) (r : Readiness) (script : List Acceptance) :
    Tells script (s.machine r script).step := by
  have hfresh : ∀ e, ¬ Fail (s.machine r script).calls e := by simp [Fail, machine]
  cases hs : s.source with
  | none =>
    have hstep : (s.machine r script).step = (.ok .complete, s.machine r script) := by
      simp [step, machine, hs]
    rw [hstep]
    exact tells_of_fine hfresh rfl _
  | some source =>
    by_cases hstaged : s.offset < s.chunk.length
    · have hstep : (s.machine r script).step = (s.machine r script).send := by
        simp [step, machine, hs, hstaged]
      rw [hstep]
      exact tells_send hfresh rfl
    · cases hread : Arrival.read chunkSize source with
      | mk answer rest =>
        let next : Machine := { s.machine r script with
          stream := { s with source := some rest }, calls := [.read answer] }
        have hanswered : Answered next.calls script next.script := rfl
        cases answer with
        | ok data =>
          have hfine : ∀ e, ¬ Fail next.calls e :=
            not_fail_append hfresh (by rintro f ⟨⟩)
          cases data with
          | nil =>
            have hstep : (s.machine r script).step = (.ok .complete, next.close) := by
              simp [step, read, machine, hs, hstaged, hread, next]
            rw [hstep]
            exact tells_close_of_fine hfine hanswered _
          | cons b bs =>
            have hstep : (s.machine r script).step = (next.stage (b :: bs)).send := by
              simp [step, read, machine, hs, hstaged, hread, next]
            rw [hstep]
            exact tells_send (m := next.stage (b :: bs)) hfine hanswered
        | error f =>
          cases hf : f.isHard with
          | true =>
            have hstep : (s.machine r script).step = (.error (.io f), next.close) := by
              simp [step, read, machine, hs, hstaged, hread, hf, next]
            rw [hstep]
            exact tells_of_failed (List.nil_append _).symm hfresh (.read hf) hanswered
          | false =>
            have hstep : (s.machine r script).step = (.ok .more, next) := by
              simp [step, read, machine, hs, hstaged, hread, hf, next]
            have hgoes : ∀ f', ¬ (Call.read (.error f)).Fails f' := by
              intro f' hfails
              cases hfails with
              | read hard => cases hf.symm.trans hard
            rw [hstep]
            exact tells_of_fine (not_fail_append hfresh hgoes) hanswered _

end Machine

theorem Loaded.read_of_mem {s s' : FileStream} {before : List Call} {answer : Except Fault Bytes}
    (h : Loaded s before s') (hmem : .read answer ∈ before) :
    ∃ source, s.source = some source ∧ answer = (Arrival.read chunkSize source).1 := by
  cases h with
  | kept _ => cases hmem
  | refilled hsource _ hread _ =>
    cases List.mem_singleton.1 hmem
    exact ⟨_, hsource, by rw [hread]⟩

theorem Course.read_of_mem {s s' : FileStream} {r r' : Readiness} {made : List Call}
    {result : Except TransportError Progress} {answer : Except Fault Bytes}
    (h : Course s r made result s' r') (hmem : .read answer ∈ made) :
    ∃ source, s.source = some source ∧ answer = (Arrival.read chunkSize source).1 := by
  cases h with
  | waits hsource _ hread _ =>
    cases List.mem_singleton.1 hmem
    exact ⟨_, hsource, by rw [hread]⟩
  | @ended source last rest hsource _ hread _ =>
    have hanswer : answer = last := by simpa using hmem
    exact ⟨source, hsource, by rw [hanswer, hread]⟩
  | sends hl _ _ _ => exact hl.read_of_mem (by simpa using hmem)
  | refused hl _ _ => exact hl.read_of_mem (by simpa using hmem)

section
variable (s : FileStream) (r : Readiness) (script : List Acceptance)

theorem step_eq_error_iff {e : TransportError} :
    (s.step r script).result = .error e ↔ Fail (s.calls r script) e := by
  rw [step_eq_toStep]
  exact (Machine.tells_step s r script).error_iff e

theorem answered_calls : Answered (s.calls r script) script (s.step r script).unused := by
  rw [step_eq_toStep]
  exact (Machine.tells_step s r script).answered

/-- What a step reads is what the file has next. -/
theorem read_of_mem_calls {answer : Except Fault Bytes} (h : .read answer ∈ s.calls r script) :
    ∃ source, s.source = some source ∧ answer = (Arrival.read chunkSize source).1 := by
  cases hopen : s.isOpen with
  | false =>
    rw [(step_of_closed hopen r script).1] at h
    cases h
  | true => exact (course_step hopen r script).read_of_mem h

end

end FileStream

/-! ### The calls of an event -/

def WriteCall.toCall (w : WriteCall) : FileStream.Call := .write w.offered w.answer

namespace ByteQueue
open FileStream (Fail Answered)

section
variable {b : ByteQueue} (hw : b.WellFormed) (script : List Acceptance)
include hw

theorem send_eq_error_iff {e : TransportError} :
    (b.send script).result = .error e ↔ Fail ((b.sendCalls script).map WriteCall.toCall) e := by
  have hs := sends_sendLoop hw 0 [] script
  rw [(send_eq_sendLoop b script).1, hs.result, hs.greedy.outcome_eq_error_iff]
  constructor
  · rintro ⟨w, hmem, hfails⟩
    refine ⟨w.toCall, List.mem_map_of_mem hmem, ?_⟩
    obtain ⟨hzero, rfl⟩ | ⟨f, hanswer, hard, rfl⟩ := hfails
    · rw [WriteCall.toCall, hzero]
      exact ⟨_, .nothing, rfl⟩
    · rw [WriteCall.toCall, hanswer]
      exact ⟨f, .write hard, rfl⟩
  · rintro ⟨call, hmem, f, hfails, rfl⟩
    obtain ⟨⟨offered, answer⟩, hw', rfl⟩ := List.mem_map.1 hmem
    refine ⟨_, hw', ?_⟩
    cases hfails with
    | write hard => exact .inr ⟨f, rfl, hard, rfl⟩
    | nothing => exact .inl ⟨rfl, rfl⟩

theorem answered_sendCalls :
    Answered ((b.sendCalls script).map WriteCall.toCall) script (b.send script).unused := by
  have hs := (sends_sendLoop hw 0 [] script).answered
  rw [← (send_eq_sendLoop b script).2.2.1] at hs
  rw [Answered, List.filterMap_map, List.filterMap_map]
  simpa [Function.comp_def, WriteCall.toCall, FileStream.Call.offered?, FileStream.Call.taken?]
    using hs

end

end ByteQueue

namespace Client
open FileStream (Fail Answered)

variable {σ : Type}

/-- The calls of a delivery: the writes of the output, then those of a step of the file. -/
def deliveryCalls (c : Client) (script : List Acceptance) (r : Readiness) :
    List FileStream.Call :=
  (c.output.sendCalls script).map WriteCall.toCall ++
    match (c.flush script).result, c.stream with
    | .ok _, some stream =>
      if (c.flush script).queue.isEmpty then stream.calls r (c.flush script).unused else []
    | _, _ => []

section
variable {c : Client} (hw : c.output.WellFormed) (script : List Acceptance) (r : Readiness)
include hw

theorem flush_eq_error_iff {e : TransportError} : (c.flush script).result = .error e ↔
    Fail ((c.output.sendCalls script).map WriteCall.toCall) e := by
  rw [flush]
  split
  · rename_i hempty
    have hcalls : c.output.sendCalls script = [] := by cases script <;> exact if_pos hempty
    rw [hcalls]
    simp [Fail]
  · exact ByteQueue.send_eq_error_iff hw script

theorem answered_flush : Answered ((c.output.sendCalls script).map WriteCall.toCall) script
    (c.flush script).unused := by
  rw [flush]
  split
  · rename_i hempty
    have hcalls : c.output.sendCalls script = [] := by cases script <;> exact if_pos hempty
    rw [hcalls]
    rfl
  · exact ByteQueue.answered_sendCalls hw script

/-- Bytes fail to be moved out just if a call goes wrong. -/
theorem transferOut_eq_error_iff {err : HttpError} : (c.transferOut script r).result = .error err ↔
    ∃ e, Fail (c.deliveryCalls script r) e ∧ err = .ofTransport e := by
  have hflush : ∀ n, (c.flush script).result = .ok n → ∀ e,
      ¬ Fail ((c.output.sendCalls script).map WriteCall.toCall) e := by
    intro n hn e hfail
    rw [← flush_eq_error_iff hw script, hn] at hfail
    cases hfail
  obtain ⟨e, hf, ht⟩ | ⟨n, hf, hstop, ht⟩ | ⟨n, stream, hf, hs, hempty, ht⟩ :=
    c.transferOut_cases script r
  · have hcalls : c.deliveryCalls script r
        = (c.output.sendCalls script).map WriteCall.toCall := by
      rw [deliveryCalls, hf, List.append_nil]
    rw [ht, hcalls]
    simp only [← flush_eq_error_iff hw script, hf, Except.error.injEq]
    simp [eq_comm]
  · have hcalls : c.deliveryCalls script r
        = (c.output.sendCalls script).map WriteCall.toCall := by
      rw [deliveryCalls, hf]
      obtain hnone | hleft := hstop
      · rw [hnone, List.append_nil]
      · cases hs : c.stream with
        | none => rw [List.append_nil]
        | some stream => simp [hleft]
    rw [ht, hcalls]
    constructor
    · rintro ⟨⟩
    · rintro ⟨e, hfail, -⟩
      exact absurd hfail (hflush n hf e)
  · have hcalls : c.deliveryCalls script r
        = (c.output.sendCalls script).map WriteCall.toCall
          ++ stream.calls r (c.flush script).unused := by
      simp [deliveryCalls, hf, hs, hempty]
    have hfail : ∀ e, Fail (c.deliveryCalls script r) e ↔
        (stream.step r (c.flush script).unused).result = .error e := by
      intro e
      rw [hcalls, FileStream.fail_append, or_iff_right (hflush n hf e),
        FileStream.step_eq_error_iff]
    simp only [ht, hfail]
    obtain ⟨e, hr, hm⟩ | ⟨hr, hm⟩ | ⟨hr, hm⟩ := transferStream_cases
      { c with output := (c.flush script).queue } stream (c.flush script).unused r
    · rw [hm, hr]
      simp [Transfer.behind, eq_comm]
    · rw [hm, hr]
      simp [Transfer.behind]
    · rw [hm, hr]
      simp [Transfer.behind]

omit hw in
theorem unused_advanceStream (h : Responder σ) (now : Timestamp) (c : Client) (stream : FileStream)
    (state : σ) : (c.advanceStream h now stream script r state).unused
      = (stream.step r script).unused := by
  rw [advanceStream]
  cases (stream.step r script).result with
  | error e => rfl
  | ok progress => cases progress <;> rfl

theorem answered_deliveryCalls (h : Responder σ) (now : Timestamp) (state : σ) :
    Answered (c.deliveryCalls script r) script (c.deliver h now script r state).unused := by
  have hflushed := answered_flush hw script
  rw [deliver, ← flush, deliveryCalls]
  cases hf : (c.flush script).result with
  | error e =>
    rw [List.append_nil]
    exact hflushed
  | ok n =>
    cases hs : c.stream with
    | none =>
      rw [List.append_nil]
      exact hflushed
    | some stream =>
      cases hempty : (c.flush script).queue.isEmpty with
      | false => simpa [hempty] using hflushed
      | true =>
        have hstep := hflushed.append (stream.answered_calls r (c.flush script).unused)
        simpa [hempty, unused_advanceStream] using hstep

omit hw in
/-- The file that is read is the one to be sent. -/
theorem read_of_mem_deliveryCalls {answer : Except Fault Bytes}
    (h : .read answer ∈ c.deliveryCalls script r) :
    ∃ stream source, c.stream = some stream ∧ stream.source = some source ∧
      answer = (Arrival.read chunkSize source).1 := by
  have hsends : .read answer ∉ (c.output.sendCalls script).map WriteCall.toCall := by
    simp [WriteCall.toCall]
  rw [deliveryCalls, List.mem_append, or_iff_right hsends] at h
  cases hf : (c.flush script).result with
  | error e => simp [hf] at h
  | ok n =>
    cases hs : c.stream with
    | none => simp [hf, hs] at h
    | some stream =>
      cases hempty : (c.flush script).queue.isEmpty with
      | false => simp [hf, hs, hempty] at h
      | true =>
        simp only [hf, hs, hempty, if_true] at h
        obtain ⟨source, hsource, hanswer⟩ := stream.read_of_mem_calls r _ h
        exact ⟨stream, source, rfl, hsource, hanswer⟩

end

theorem result_react (h : Responder σ) (c : Client) (state : σ) (e : Event) :
    (c.react h state e).result = (c.transfer e).result := by
  rw [react_eq, Transfer.resume]
  split <;> rfl

theorem result_deliver_eq_error_iff {c : Client} (hw : c.output.WellFormed) (h : Responder σ)
    (now : Timestamp) (script : List Acceptance) (r : Readiness) (state : σ) {err : HttpError} :
    (c.deliver h now script r state).result = .error err ↔
      ∃ e, Fail (c.deliveryCalls script r) e ∧ err = .ofTransport e := by
  have hresult : (c.deliver h now script r state).result = (c.transferOut script r).result :=
    result_react h c state (.writable now script r)
  rw [hresult, transferOut_eq_error_iff hw]

theorem result_intake_eq_error_iff {c : Client} (hw : c.input.WellFormed) (h : Responder σ)
    (now : Timestamp) (script : List Arrival) (state : σ) {err : HttpError} :
    (c.intake h now script state).result = .error err ↔ c.awaitsInput = true ∧
      ∃ before f after, script = before ++ .fault f :: after ∧
        (∀ a ∈ before, a.goesOn = true) ∧ f.isHard = true ∧ err = .transport (.io f) := by
  have hresult : (c.intake h now script state).result = (c.transferIn script).result :=
    result_react h c state (.readable now script)
  have hfails := ByteQueue.receive_eq_error_iff hw script
  rw [hresult]
  obtain ⟨ha, ht⟩ | ⟨e, ha, hr, ht⟩ | ⟨receipt, ha, hr, ht⟩ := c.transferIn_cases script
  · simp [ht, ha]
  · obtain ⟨before, f, after, hscript, hbefore, hard, rfl⟩ := (hfails e).1 hr
    rw [ht, ha]
    constructor
    · rintro ⟨⟩
      exact ⟨rfl, before, f, after, hscript, hbefore, hard, rfl⟩
    · rintro ⟨-, before', f', after', hscript', hbefore', hard', rfl⟩
      have hsame := (hfails (.io f')).2 ⟨before', f', after', hscript', hbefore', hard', rfl⟩
      rw [hr] at hsame
      cases hsame
      rfl
  · rw [ht, ha]
    constructor
    · rintro ⟨⟩
    · rintro ⟨-, before, f, after, hscript, hbefore, hard, -⟩
      have hfailed := (hfails (.io f)).2 ⟨before, f, after, hscript, hbefore, hard, rfl⟩
      rw [hr] at hfailed
      cases hfailed

end Client

end HttpOrigin
