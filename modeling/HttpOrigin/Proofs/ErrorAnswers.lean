import HttpOrigin.Proofs.Appending
import HttpOrigin.Proofs.Progress
import HttpOrigin.Proofs.ReplyReader
import HttpOrigin.Proofs.TransportErrors
import Mathlib.Logic.Relation

/-! Errors of the exchange. There is always a status for one; it is answered behind all that is
queued, and it ends the connection but never the event. -/
namespace HttpOrigin

variable {σ : Type}

def Responder.Appends (h : Responder σ) : Prop :=
  ∀ m now r output state, output.WellFormed →
    let outbox := (h.forMethod m now r ⟨output, none⟩ state).outbox
    outbox.output.WellFormed ∧ output.toList <+: outbox.output.toList

theorem Responder.AppendOnly.appends {h : Responder σ} (hh : h.AppendOnly) : h.Appends := by
  intro m now r output state hw outbox
  have he : outbox.Extends output := hh m now r output state hw
  exact ⟨he.wellFormed, he.kept⟩

namespace Exchange

/-- Every error of an exchange has a status. Either no responder was called, or it is the one that
the responder declined with. -/
theorem status?_of_next {h : Responder σ} {now : Timestamp} {stage : Stage} {input : ByteQueue}
    {outbox : Outbox} {state : σ} {err : HttpError}
    (hr : (next h now stage input outbox state).result = .error err) :
    ∃ status, err.status? = some status ∧
      (status.code ∈ [400, 405, 411, 505] ∧
        (next h now stage input outbox state).outbox = outbox ∧
        (next h now stage input outbox state).state = state ∨
      err = .responder status ∧ ∃ r rest, stage.advance input.toList = .request r rest ∧
        (h.forMethod r.method now r outbox state).result = .error status) := by
  cases ha : stage.advance input.toList with
  | waiting stage' rest =>
    rw [next_of_waiting ha] at hr
    cases hr
  | refused e rest =>
    rw [next_of_refused ha] at hr ⊢
    cases hr
    obtain ⟨status, hstatus, hcode⟩ := Stage.answerable_of_refused ha
    exact ⟨status, hstatus, .inl ⟨hcode, rfl, rfl⟩⟩
  | request r rest =>
    cases hresponded : (h.forMethod r.method now r outbox state).result with
    | ok u =>
      rw [next_of_answered ha hresponded] at hr
      cases hr
    | error status =>
      rw [next_of_declined ha hresponded] at hr
      cases hr
      exact ⟨status, rfl, .inr ⟨rfl, r, rest, rfl, hresponded⟩⟩

end Exchange

namespace Client

/-! ### Queues that hold what they should -/

structure Formed (c : Client) : Prop where
  paired : c.Paired
  input : c.input.WellFormed
  output : c.output.WellFormed

theorem formed_fresh (fd : Fd) : Formed { fd } where
  paired := (coherent_fresh fd).paired
  input := ByteQueue.wellFormed_empty
  output := ByteQueue.wellFormed_empty

theorem formed_refuse {c : Client} (hinput : c.input.WellFormed) (houtput : c.output.WellFormed)
    (now : Timestamp) (status : Status) : (c.refuse now status).Formed where
  paired := (coherent_refuse c now status).paired
  input := hinput
  output := houtput.appendAll _

theorem wellFormed_flush {c : Client} (hw : c.output.WellFormed) (script : List Acceptance) :
    (c.flush script).queue.WellFormed := by
  rw [flush]
  split
  · exact hw
  · exact (ByteQueue.send_conserves hw script).1

theorem Formed.transfer {c : Client} (hc : c.Formed) (e : Event) :
    (c.transfer e).client.Formed := by
  have hpaired := paired_transfer hc.paired e
  cases e with
  | readable now script =>
    have hqueue := (ByteQueue.receive_conserves hc.input script).1
    rw [Client.transfer] at hpaired ⊢
    obtain ⟨-, ht⟩ | ⟨e, -, -, ht⟩ | ⟨receipt, -, -, ht⟩ := c.transferIn_cases script <;>
      rw [ht] at hpaired ⊢
    · exact hc
    · exact ⟨hpaired, hqueue, hc.output⟩
    · exact ⟨hpaired, hqueue, hc.output⟩
  | writable now script r =>
    have hqueue := wellFormed_flush hc.output script
    rw [Client.transfer] at hpaired ⊢
    obtain ⟨e, -, ht⟩ | ⟨n, -, -, ht⟩ | ⟨n, stream, -, -, -, ht⟩ := c.transferOut_cases script r <;>
      rw [ht] at hpaired ⊢
    · exact ⟨hpaired, hc.input, hqueue⟩
    · exact ⟨hpaired, hc.input, hqueue⟩
    · obtain ⟨e, -, hm⟩ | ⟨-, hm⟩ | ⟨-, hm⟩ := transferStream_cases
        { c with output := (c.flush script).queue } stream (c.flush script).unused r <;>
        rw [hm] at hpaired ⊢ <;> exact ⟨hpaired, hc.input, hqueue⟩

section
variable {h : Responder σ} (hh : h.Appends)
include hh

theorem Formed.respond {c : Client} (hc : c.Formed) (hs : c.Serving) (now : Timestamp) (state : σ)
    (r : Request) :
    (c.respond h now state r).outbox.output.WellFormed ∧
      c.output.toList <+: (c.respond h now state r).outbox.output.toList := by
  rw [Client.respond, outbox, hc.paired.stream_none hs.1]
  exact hh r.method now r c.output state hc.output

theorem Formed.answered {c : Client} (hc : c.Formed) (hs : c.Serving) (now : Timestamp) (state : σ)
    (r : Request) (rest : Bytes) :
    (c.answered rest (c.respond h now state r).outbox).Formed where
  paired := paired_of_phase rfl
  input := Exchange.wellFormed_leave hc.input rest
  output := (hc.respond hh hs now state r).1

theorem Formed.serve (now : Timestamp) {c : Client} (state : σ) (hc : c.Formed) :
    (serve h now c state).1.Formed := by
  induction c, state using serve_induction h now with
  | stopped c state hs =>
    rw [serve_of_not_serving hs]
    exact hc
  | waiting c state stage rest hs ha =>
    rw [serve_of_waiting hs ha]
    exact ⟨hc.paired, Exchange.wellFormed_leave hc.input rest, hc.output⟩
  | refused c state e rest hs ha =>
    rw [serve_of_refused hs ha]
    exact formed_refuse (Exchange.wellFormed_leave hc.input rest) (hc.output.truncate _) _ _
  | declined c state r rest status hs ha hr =>
    rw [serve_of_declined hs ha hr]
    exact formed_refuse (Exchange.wellFormed_leave hc.input rest)
      ((hc.respond hh hs now state r).1.truncate _) _ _
  | closing c state r rest hs ha hr hclose =>
    have hanswered := hc.answered hh hs now state r rest
    rw [serve_of_closing hs ha hr hclose]
    exact ⟨hanswered.paired, hanswered.input, hanswered.output⟩
  | keeping c state r rest hs ha hr hkeep ih =>
    rw [serve_of_keeping hs ha hr hkeep]
    exact ih (hc.answered hh hs now state r rest)

theorem Formed.perform {p : Client × σ} (hp : p.1.Formed) (call : Call) :
    (call.perform h p).1.Formed := by
  cases call with
  | refuse now status => exact formed_refuse hp.input hp.output now status
  | event e =>
    rw [Call.perform, react_eq, Transfer.resume]
    cases (p.1.transfer e).serves with
    | true => exact (hp.transfer e).serve hh e.now p.2
    | false => exact hp.transfer e

theorem Formed.performAll {p : Client × σ} (hp : p.1.Formed) (calls : List Call) :
    (performAll h p calls).1.Formed := by
  induction calls generalizing p with
  | nil => exact hp
  | cons call calls ih => exact ih (hp.perform hh call)

end

/-! ### A request that is not served -/

def Reaches (h : Responder σ) (now : Timestamp) : Client × σ → Client × σ → Prop :=
  Relation.ReflTransGen fun p next => pass h now p = .inl next

/-- What becomes of a connection when a request fails: one answer to the error goes behind all that
was queued, a file is not sent, and the connection reads no more and closes. -/
structure Refused (before : Client) (now : Timestamp) (status : Status) (after : Client) :
    Prop where
  output : after.output.toList = before.output.toList ++ (Answer.error now status).flatten
  answer : Reply.IsErrorAnswer (Answer.error now status).flatten status
  stream : after.stream = none
  stage : after.stage = .idle
  phase : after.phase = .idle
  closing : after.closing = true

section
variable {h : Responder σ} {now : Timestamp} {p q : Client × σ}

theorem serve_of_reaches (hr : Reaches h now p q) :
    serve h now p.1 p.2 = serve h now q.1 q.2 := by
  induction hr with
  | refl => rfl
  | @tail q next _ hpass ih =>
    have hserve := serve_eq_pass h now q
    rw [hpass, Sum.elim_inl] at hserve
    exact ih.trans hserve

theorem Formed.reaches (hh : h.Appends) (hp : p.1.Formed) (hr : Reaches h now p q) :
    q.1.Formed := by
  induction hr with
  | refl => exact hp
  | @tail q next _ hpass ih =>
    obtain ⟨c, state⟩ := q
    obtain ⟨r, rest, -, -, rfl⟩ := pass_eq_inl hpass
    exact ih.answered hh (serving_of_pass hpass) now state r rest

end

theorem refused_refuse {c : Client} {queue input : ByteQueue} (hw : queue.WellFormed)
    (hq : c.output.toList <+: queue.toList) (now : Timestamp) (status : Status) :
    Refused c now status
      (refuse { c with input, output := queue.truncate c.output.length } now status) where
  output := by
    rw [← ByteQueue.toList_truncate_of_prefix hq]
    exact ByteQueue.toList_appendAll (hw.truncate _) _
  answer := Reply.isErrorAnswer_error now status
  stream := rfl
  stage := rfl
  phase := rfl
  closing := rfl

theorem refused_serve {h : Responder σ} (hh : h.Appends) {now : Timestamp} {c : Client} {state : σ}
    (hc : c.Formed) (hs : c.Serving) {err : HttpError} {status : Status}
    (hr : (Exchange.next h now c.stage c.input c.outbox state).result = .error err)
    (hstatus : err.status? = some status) :
    Refused c now status (serve h now c state).1 := by
  cases ha : c.stage.advance c.input.toList with
  | waiting stage rest =>
    rw [Exchange.next_of_waiting ha] at hr
    cases hr
  | refused e rest =>
    rw [Exchange.next_of_refused ha] at hr
    cases hr
    rw [serve_of_refused hs ha, hstatus]
    exact refused_refuse hc.output List.prefix_rfl now status
  | request r rest =>
    cases hresponded : (c.respond h now state r).result with
    | ok u =>
      rw [Exchange.next_of_answered ha hresponded] at hr
      cases hr
    | error status' =>
      rw [Exchange.next_of_declined ha hresponded] at hr
      cases hr
      cases hstatus
      obtain ⟨hw, hq⟩ := hc.respond hh hs now state r
      rw [serve_of_declined hs ha hresponded]
      exact refused_refuse hw hq now status

/-- Requests are served only after a transfer that went well. -/
theorem result_of_serves {c : Client} {e : Event} (hq : (c.transfer e).serves = true) :
    (c.transfer e).result = .ok () := by
  cases e with
  | readable now script =>
    rw [transfer] at hq ⊢
    obtain ⟨-, ht⟩ | ⟨e, -, -, ht⟩ | ⟨receipt, -, -, ht⟩ := c.transferIn_cases script <;>
      rw [ht] at hq ⊢
    cases hq
  | writable now script r =>
    rw [transfer] at hq ⊢
    obtain ⟨e, -, ht⟩ | ⟨n, -, -, ht⟩ | ⟨n, stream, -, -, -, ht⟩ := c.transferOut_cases script r <;>
      rw [ht] at hq ⊢
    · cases hq
    · obtain ⟨e, -, hm⟩ | ⟨-, hm⟩ | ⟨-, hm⟩ := transferStream_cases
        { c with output := (c.flush script).queue } stream (c.flush script).unused r <;>
        rw [hm] at hq ⊢
      · cases hq
      · rfl
      · rfl

/-- After any events and refusals of a connection, failed ones included, with a responder that
appends: a readable event is an error just if it reads and meets a fault that is hard before a read
blocks or meets the end; a writable one just if one of its calls goes wrong, a write of the output
or the file, or a read of the file. An error of an exchange has a status, one of those for a bad
request or the one that the responder declined with. In whatever event such an error occurs, also
behind a file that is complete, the event is none, and behind the output as it was before the
request stands one answer with that status. -/
theorem errors_kept_apart (h : Responder σ) (hh : h.Appends) (fd : Fd) (state : σ)
    (calls : List Call) :
    let p := performAll h ({ fd }, state) calls
    let c := p.1
    (∀ now script err, (c.intake h now script p.2).result = .error err ↔ c.awaitsInput = true ∧
      ∃ before f after, script = before ++ .fault f :: after ∧
        (∀ a ∈ before, a.goesOn = true) ∧ f.isHard = true ∧ err = .transport (.io f)) ∧
    (∀ now script r,
      let d := c.deliver h now script r p.2
      let made := c.deliveryCalls script r
      (∀ err, d.result = .error err ↔
        ∃ call ∈ made, ∃ f, call.Fails f ∧ err = .transport (.io f)) ∧
      FileStream.Answered made script d.unused ∧
      ∀ answer, .read answer ∈ made → ∃ stream source, c.stream = some stream ∧
        stream.source = some source ∧ answer = (Arrival.read chunkSize source).1) ∧
    (∀ now stage input outbox s err,
      let served := Exchange.next h now stage input outbox s
      served.result = .error err → ∃ status, err.status? = some status ∧
        (status.code ∈ [400, 405, 411, 505] ∧ served.outbox = outbox ∧ served.state = s ∨
        err = .responder status ∧ ∃ r rest, stage.advance input.toList = .request r rest ∧
          (h.forMethod r.method now r outbox s).result = .error status)) ∧
    ∀ (e : Event) (q : Client × σ) (err : HttpError), (c.transfer e).serves = true →
      Reaches h e.now ((c.transfer e).client, p.2) q → q.1.Serving →
      (Exchange.next h e.now q.1.stage q.1.input q.1.outbox q.2).result = .error err →
      ∃ status, err.status? = some status ∧ (c.react h p.2 e).result = .ok () ∧
        Refused q.1 e.now status (c.react h p.2 e).client := by
  intro p c
  have hc : c.Formed := (formed_fresh fd).performAll (p := ({ fd }, state)) hh calls
  refine ⟨fun now script err => ?_, fun now script r => ⟨fun err => ?_, ?_, fun answer => ?_⟩,
    fun now stage input outbox s err => Exchange.status?_of_next, ?_⟩
  · exact result_intake_eq_error_iff hc.input h now script p.2
  · rw [result_deliver_eq_error_iff hc.output]
    constructor
    · rintro ⟨e, ⟨call, hcall, f, hfails, rfl⟩, rfl⟩
      exact ⟨call, hcall, f, hfails, rfl⟩
    · rintro ⟨call, hcall, f, hfails, rfl⟩
      exact ⟨.io f, ⟨call, hcall, f, hfails, rfl⟩, rfl⟩
  · exact answered_deliveryCalls hc.output script r h now p.2
  · exact read_of_mem_deliveryCalls script r
  · intro e q err hserves hreaches hs hr
    obtain ⟨status, hstatus, -⟩ := Exchange.status?_of_next hr
    have hq : q.1.Formed := (hc.transfer e).reaches hh hreaches
    have hrefused := refused_serve hh hq hs hr hstatus
    have hclient : (c.react h p.2 e).client = (serve h e.now q.1 q.2).1 := by
      rw [react_eq, Transfer.resume, if_pos hserves, ← serve_of_reaches hreaches]
    refine ⟨status, hstatus, ?_, hclient ▸ hrefused⟩
    rw [result_react]
    exact result_of_serves hserves

/-- A read that is reset behind the first byte, and a line with a method that is not served. -/
theorem errors_kept_apart_onePage :
    Site.onePage.responder.Appends ∧
    (intake Site.onePage.responder .epoch { fd := 5 } [.bytes [71], .fault .connectionReset]
        [7]).result = .error (.transport (.io .connectionReset)) ∧
    let e : Event := .readable .epoch [.bytes (Text.encode "PUT / HTTP/1.1\r\n")]
    ∃ status, (HttpError.methodNotAllowed "PUT").status? = some status ∧
      (react Site.onePage.responder { fd := 5 } [7] e).result = .ok () ∧
      Refused (transfer { fd := 5 } e).client .epoch status
        (react Site.onePage.responder { fd := 5 } [7] e).client := by
  have hh := Site.onePage.blind_responder.appendOnly.appends
  obtain ⟨hread, -, -, hrefused⟩ := errors_kept_apart Site.onePage.responder hh 5 [7] []
  have hserves : (transfer { fd := 5 }
      (.readable .epoch [.bytes (Text.encode "PUT / HTTP/1.1\r\n")])).serves = true := by
    decide +kernel
  refine ⟨hh,
    (hread .epoch _ _).2 ⟨rfl, [.bytes [71]], .connectionReset, [], rfl, by decide, rfl, rfl⟩,
    hrefused _ _ _ hserves .refl ?_ ?_⟩
  · decide +kernel
  · decide +kernel

end Client

end HttpOrigin
