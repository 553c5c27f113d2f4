import HttpOrigin.Proofs.Exchange
import HttpOrigin.Proofs.Grammar

/-! A responder is called with nothing but requests of the grammar. Behind each call stand the bytes
that were taken since the reader last came to an end, and these are the request's, one and all. -/
namespace HttpOrigin

structure Dispatch where
  method : Method
  request : Request
  result : Except Status Unit

def Responder.logged {σ : Type} (h : Responder σ) : Responder (σ × List Dispatch) :=
  h.noted fun m _ r _ responded => ⟨m, r, responded.result⟩

theorem Responder.forMethod_logged {σ : Type} (h : Responder σ) (m : Method) (now : Timestamp)
    (r : Request) (outbox : Outbox) (state : σ) :
    h.logged.forMethod m now r outbox (state, []) =
      let responded := h.forMethod m now r outbox state
      ⟨responded.result, responded.outbox, responded.state, [⟨m, r, responded.result⟩]⟩ :=
  forMethod_noted ..

structure Reader (σ : Type) where
  stage : Stage := .idle
  input : ByteQueue := .empty
  /-- What was taken from the input since a call last ended other than waiting. -/
  taken : Bytes := []
  state : σ

namespace Reader

variable {σ : Type}

structure Parse where
  result : Except HttpError Exchange.Outcome
  dispatched : List Dispatch
  taken : Bytes

structure Call (σ : Type) where
  responder : Responder σ
  now : Timestamp
  outbox : Outbox

def push (p : Reader σ) (bytes : Bytes) : Reader σ := { p with input := p.input.append bytes }

def parse (p : Reader σ) (c : Call σ) : Parse × Reader σ :=
  let served :=
    Exchange.next c.responder.logged c.now p.stage p.input c.outbox (p.state, [])
  let taken := p.taken ++ p.input.toList.take (p.input.length - served.input.length)
  (⟨served.result, served.state.2, taken⟩,
    { stage := served.stage
      input := served.input
      taken := match served.result with
        | .ok .pending => taken
        | _ => []
      state := served.state.1 })

inductive Act (σ : Type) where
  | push (bytes : Bytes)
  | parse (c : Call σ)

def perform (p : Reader σ) : Act σ → Reader σ
  | .push bytes => p.push bytes
  | .parse c => (p.parse c).2

def run (p : Reader σ) (acts : List (Act σ)) : Reader σ := acts.foldl perform p

/-! ### One call -/

section
variable (p : Reader σ) (c : Call σ) {front rest : Bytes}

theorem take_of_left (hf : front ++ rest = p.input.toList) :
    p.input.toList.take (p.input.length - (Exchange.leave p.input rest).length) = front := by
  have hleft : (Exchange.leave p.input rest).length = rest.length := by
    rw [← ByteQueue.length_toList, Exchange.toList_leave ⟨front, hf⟩]
  rw [hleft, ← ByteQueue.length_toList, ← hf, List.length_append, Nat.add_sub_cancel,
    List.take_left]

variable {p c}

theorem parse_of_waiting {stage' : Stage} (hf : front ++ rest = p.input.toList)
    (ha : p.stage.advance p.input.toList = .waiting stage' rest) :
    p.parse c = (⟨.ok .pending, [], p.taken ++ front⟩,
      ⟨stage', Exchange.leave p.input rest, p.taken ++ front, p.state⟩) := by
  have htake := take_of_left p hf
  simp only [parse, Exchange.next_of_waiting ha, htake]

theorem parse_of_refused {e : HttpError} (hf : front ++ rest = p.input.toList)
    (ha : p.stage.advance p.input.toList = .refused e rest) :
    p.parse c = (⟨.error e, [], p.taken ++ front⟩,
      ⟨.idle, Exchange.leave p.input rest, [], p.state⟩) := by
  have htake := take_of_left p hf
  simp only [parse, Exchange.next_of_refused ha, htake]

theorem parse_of_request {r : Request} (hf : front ++ rest = p.input.toList)
    (ha : p.stage.advance p.input.toList = .request r rest) :
    let responded := c.responder.forMethod r.method c.now r c.outbox p.state
    p.parse c = (⟨match responded.result with
        | .ok () => .ok (if r.asksToClose then .close else .keepAlive)
        | .error status => .error (.responder status),
        [⟨r.method, r, responded.result⟩], p.taken ++ front⟩,
      ⟨.idle, Exchange.leave p.input rest, [], responded.state⟩) := by
  intro responded
  have htake := take_of_left p hf
  have hlogged := c.responder.forMethod_logged r.method c.now r c.outbox p.state
  cases hr : responded.result with
  | ok u =>
    have hok := (congrArg Responded.result hlogged).trans hr
    cases hclose : r.asksToClose <;>
      simp [parse, Exchange.next_of_answered ha hok, htake, hlogged, hr, hclose, responded]
  | error status =>
    have herror := (congrArg Responded.result hlogged).trans hr
    simp [parse, Exchange.next_of_declined ha herror, htake, hlogged, hr, responded]

/-- Everything a call can do. In each case it takes bytes from the front of its input. -/
theorem parse_cases (p : Reader σ) (c : Call σ) :
    ∃ front rest, front ++ rest = p.input.toList ∧
      (Exchange.leave p.input rest).toList = rest ∧
      ((∃ stage', p.stage.advance p.input.toList = .waiting stage' rest ∧
        p.parse c = (⟨.ok .pending, [], p.taken ++ front⟩,
          ⟨stage', Exchange.leave p.input rest, p.taken ++ front, p.state⟩)) ∨
      (∃ e, p.parse c = (⟨.error e, [], p.taken ++ front⟩,
          ⟨.idle, Exchange.leave p.input rest, [], p.state⟩)) ∨
      ∃ r result responded state, p.stage.advance p.input.toList = .request r rest ∧
        p.parse c = (⟨result, [⟨r.method, r, responded⟩], p.taken ++ front⟩,
          ⟨.idle, Exchange.leave p.input rest, [], state⟩)) := by
  obtain ⟨front, hf⟩ := p.stage.rest_advance_suffix p.input.toList
  refine ⟨front, _, hf, Exchange.toList_leave ⟨front, hf⟩, ?_⟩
  cases ha : p.stage.advance p.input.toList with
  | waiting stage' rest =>
    rw [ha] at hf
    exact .inl ⟨stage', rfl, parse_of_waiting hf ha⟩
  | refused e rest =>
    rw [ha] at hf
    exact .inr (.inl ⟨e, parse_of_refused hf ha⟩)
  | request r rest =>
    rw [ha] at hf
    exact .inr (.inr ⟨r, _, _, _, rfl, parse_of_request hf ha⟩)

/-- What a call takes and what it leaves are the bytes that were there. -/
theorem taken_append_input (p : Reader σ) (c : Call σ) :
    (p.parse c).1.taken ++ (p.parse c).2.input.toList = p.taken ++ p.input.toList := by
  obtain ⟨front, rest, hf, hleft, hcases⟩ := p.parse_cases c
  obtain ⟨_, _, hparse⟩ | ⟨_, hparse⟩ | ⟨_, _, _, _, _, hparse⟩ := hcases <;>
    rw [hparse, hleft, List.append_assoc, hf]

theorem idle_of_not_pending (p : Reader σ) (c : Call σ)
    (hr : (p.parse c).1.result ≠ .ok .pending) :
    (p.parse c).2.stage = .idle ∧ (p.parse c).2.taken = [] := by
  obtain ⟨front, rest, _, _, hcases⟩ := p.parse_cases c
  obtain ⟨_, _, hparse⟩ | ⟨_, hparse⟩ | ⟨_, _, _, _, _, hparse⟩ := hcases
  · rw [hparse] at hr
    exact absurd rfl hr
  · rw [hparse]
    exact ⟨rfl, rfl⟩
  · rw [hparse]
    exact ⟨rfl, rfl⟩

end

/-! ### Histories -/

/-- An idle reader given all bytes since it came to an end would stand where this one does. -/
structure Coherent (p : Reader σ) : Prop where
  wellFormed : p.input.WellFormed
  advance_taken : ∀ more, Stage.idle.advance (p.taken ++ (p.input.toList ++ more))
    = p.stage.advance (p.input.toList ++ more)

theorem coherent_fresh (state : σ) : Coherent { state } where
  wellFormed := ByteQueue.wellFormed_empty
  advance_taken _ := rfl

theorem Coherent.push {p : Reader σ} (hp : p.Coherent) (bytes : Bytes) :
    (p.push bytes).Coherent := by
  refine ⟨hp.wellFormed.append bytes, ?_⟩
  intro more
  have hinput : (p.push bytes).input.toList = p.input.toList ++ bytes :=
    ByteQueue.toList_append hp.wellFormed bytes
  rw [hinput, List.append_assoc]
  exact hp.advance_taken (bytes ++ more)

theorem Coherent.parse {p : Reader σ} (hp : p.Coherent) (c : Call σ) :
    (p.parse c).2.Coherent := by
  obtain ⟨front, rest, hf, hleft, hcases⟩ := p.parse_cases c
  have hwell := Exchange.wellFormed_leave hp.wellFormed rest
  obtain ⟨stage', ha, hparse⟩ | ⟨_, hparse⟩ | ⟨_, _, _, _, _, hparse⟩ := hcases
  · rw [hparse]
    refine ⟨hwell, ?_⟩
    intro more
    have hgoes := Stage.advance_append p.stage p.input.toList more
    rw [ha, Stage.Stop.extend, ← hp.advance_taken, ← hf] at hgoes
    dsimp only
    rw [hleft, ← hgoes]
    simp
  · rw [hparse]
    exact ⟨hwell, fun _ => rfl⟩
  · rw [hparse]
    exact ⟨hwell, fun _ => rfl⟩

theorem Coherent.run {p : Reader σ} (hp : p.Coherent) (acts : List (Act σ)) :
    (p.run acts).Coherent := by
  induction acts generalizing p with
  | nil => exact hp
  | cons a acts ih =>
    cases a with
    | push bytes => exact ih (hp.push bytes)
    | parse c => exact ih (hp.parse c)

theorem writtenAs_taken {p : Reader σ} (hp : p.Coherent) {r : Request} {front rest : Bytes}
    (hf : front ++ rest = p.input.toList)
    (ha : p.stage.advance p.input.toList = .request r rest) : r.WrittenAs (p.taken ++ front) := by
  have hidle := hp.advance_taken []
  rw [List.append_nil, ha, Stage.advance_idle_eq_request_iff] at hidle
  obtain ⟨bytes, hwritten, hbytes⟩ := hidle
  rw [← hf, ← List.append_assoc] at hbytes
  rwa [List.append_cancel_right hbytes]

theorem Coherent.dispatched {p : Reader σ} (hp : p.Coherent) (c : Call σ) :
    (p.parse c).1.dispatched = [] ∨
      ∃ r result, (p.parse c).1.dispatched = [⟨r.method, r, result⟩] ∧
        r.WrittenAs (p.parse c).1.taken := by
  obtain ⟨front, rest, hf, _, hcases⟩ := p.parse_cases c
  obtain ⟨_, _, hparse⟩ | ⟨_, hparse⟩ | ⟨r, _, responded, _, ha, hparse⟩ := hcases
  · rw [hparse]
    exact .inl rfl
  · rw [hparse]
    exact .inl rfl
  · rw [hparse]
    exact .inr ⟨r, responded, rfl, writtenAs_taken hp hf ha⟩

/-- After any pushes and calls, the next call of a reader calls the responder for no more than one
request, through the function of its method, and the bytes taken for it are that request as the
grammar has it. A call that ends other than waiting leaves no request behind, and every byte is
either taken or left. -/
theorem dispatched_writtenAs (state : σ) (acts : List (Act σ)) (c : Call σ) :
    let p := ({ state } : Reader σ).run acts
    let call := (p.parse c).1
    let after := (p.parse c).2
    (call.dispatched = [] ∨
      ∃ r result, call.dispatched = [⟨r.method, r, result⟩] ∧ r.WrittenAs call.taken) ∧
    (call.result = .ok .pending ∨
      after.stage = .idle ∧ after.stage.pending? = none ∧ after.taken = []) ∧
    call.taken ++ after.input.toList = p.taken ++ p.input.toList := by
  intro p call after
  have hp : p.Coherent := (coherent_fresh state).run acts
  refine ⟨hp.dispatched c, ?_, p.taken_append_input c⟩
  by_cases hr : call.result = .ok .pending
  · exact .inl hr
  · obtain ⟨hidle, htaken⟩ := p.idle_of_not_pending c hr
    have hnone : after.stage.pending? = none := by
      rw [hidle]
      rfl
    exact .inr ⟨hidle, hnone, htaken⟩

end Reader

end HttpOrigin
