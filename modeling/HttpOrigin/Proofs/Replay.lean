import HttpOrigin.Proofs.Appending
import HttpOrigin.Proofs.Grammar
import HttpOrigin.Wire.Answer

/-! The exchanges made of bytes that are all there at once, up to the first that closes the
connection or fails. -/
namespace HttpOrigin

variable {σ : Type}

/-- The answer to a request when nothing else is queued. -/
def Responder.alone (h : Responder σ) (now : Timestamp) (r : Request) (state : σ) : Responded σ :=
  h.forMethod r.method now r ⟨.empty, none⟩ state

/-! ### Requests in a row -/

namespace Request

/-- The complete requests at the front of the bytes, one behind the other, up to the first that asks
to close. -/
inductive Pipelined : Bytes → List Request → Prop where
  | done {bytes : Bytes} : (∀ (r : Request) front, r.WrittenAs front → ¬ front <+: bytes) →
      Pipelined bytes []
  | closing {r : Request} {front rest : Bytes} : r.WrittenAs front → ClosedBy r.fields →
      Pipelined (front ++ rest) [r]
  | keeping {r : Request} {front rest : Bytes} {rs : List Request} : r.WrittenAs front →
      ¬ ClosedBy r.fields → Pipelined rest rs → Pipelined (front ++ rest) (r :: rs)

variable {r : Request} {bytes rest : Bytes} {rs : List Request}

theorem pipelined_of_none (ha : ∀ r rest, Stage.idle.advance bytes ≠ .request r rest) :
    Pipelined bytes rs ↔ rs = [] := by
  constructor
  · intro h
    cases h with
    | done => rfl
    | closing hw | keeping hw =>
      exact absurd (Stage.advance_idle_eq_request_iff.2 ⟨_, hw, rfl⟩) (ha _ _)
  · rintro rfl
    refine .done fun r front hw => ?_
    rintro ⟨rest, rfl⟩
    exact ha r rest (Stage.advance_idle_eq_request_iff.2 ⟨front, hw, rfl⟩)

theorem pipelined_of_request (ha : Stage.idle.advance bytes = .request r rest) :
    Pipelined bytes rs ↔ ClosedBy r.fields ∧ rs = [r] ∨
      ¬ ClosedBy r.fields ∧ ∃ more, rs = r :: more ∧ Pipelined rest more := by
  constructor
  · intro h
    cases h with
    | done hno =>
      obtain ⟨front, hw, rfl⟩ := Stage.advance_idle_eq_request_iff.1 ha
      exact absurd (List.prefix_append front rest) (hno r front hw)
    | closing hw hclosed =>
      cases (Stage.advance_idle_eq_request_iff.2 ⟨_, hw, rfl⟩).symm.trans ha
      exact .inl ⟨hclosed, rfl⟩
    | keeping hw hkept hmore =>
      cases (Stage.advance_idle_eq_request_iff.2 ⟨_, hw, rfl⟩).symm.trans ha
      exact .inr ⟨hkept, _, rfl, hmore⟩
  · obtain ⟨front, hw, rfl⟩ := Stage.advance_idle_eq_request_iff.1 ha
    rintro (⟨hclosed, rfl⟩ | ⟨hkept, more, rfl, hmore⟩)
    · exact .closing hw hclosed
    · exact .keeping hw hkept hmore

/-- Bytes can be cut into requests in one way. -/
theorem exists_pipelined (bytes : Bytes) :
    ∃ requests, ∀ rs, Pipelined bytes rs ↔ rs = requests := by
  induction hn : bytes.length using Nat.strongRecOn generalizing bytes with
  | ind n ih =>
    cases ha : Stage.idle.advance bytes with
    | waiting | refused =>
      refine ⟨[], fun rs => pipelined_of_none fun r rest hr => ?_⟩
      cases ha.symm.trans hr
    | request r rest =>
      have hless : rest.length < n := by
        have htaken : 2 * rest.length < 2 * bytes.length + 0 := Stage.length_rest_le ha
        omega
      obtain ⟨more, hmore⟩ := ih rest.length hless rest rfl
      by_cases hclosed : ClosedBy r.fields
      · refine ⟨[r], fun rs => (pipelined_of_request ha).trans ?_⟩
        simp [hclosed]
      · refine ⟨r :: more, fun rs => (pipelined_of_request ha).trans ?_⟩
        simp [hclosed, hmore]

end Request

namespace Exchange

structure Replayed (σ : Type) where
  written : Bytes
  ending : Except HttpError Outcome
  state : σ

def Replayed.behind (written : Bytes) (d : Replayed σ) : Replayed σ :=
  { d with written := written ++ d.written }

def replay (h : Responder σ) (now : Timestamp) (stage : Stage) (input : ByteQueue) (state : σ) :
    Replayed σ :=
  let served := next h now stage input ⟨.empty, none⟩ state
  match _hr : served.result with
  | .ok .pending => ⟨[], .ok .pending, served.state⟩
  | .ok .keepAlive =>
    (replay h now served.stage served.input served.state).behind served.outbox.owed
  | .ok .close => ⟨served.outbox.owed, .ok .close, served.state⟩
  | .error e =>
    ⟨(Answer.error now (e.status?.getD .internalServerError)).flatten, .error e, served.state⟩
termination_by 2 * input.length + stage.weight
decreasing_by exact length_input_lt _hr (by decide)

section
variable {h : Responder σ} {now : Timestamp} {stage : Stage} {input : ByteQueue} {state : σ}
  {rest : Bytes} {r : Request} {served : Served σ}

theorem replay_eq (hn : next h now stage input ⟨.empty, none⟩ state = served) :
    replay h now stage input state = match served.result with
      | .ok .pending => ⟨[], .ok .pending, served.state⟩
      | .ok .keepAlive =>
        (replay h now served.stage served.input served.state).behind served.outbox.owed
      | .ok .close => ⟨served.outbox.owed, .ok .close, served.state⟩
      | .error e => ⟨(Answer.error now (e.status?.getD .internalServerError)).flatten, .error e,
          served.state⟩ := by
  subst hn
  rw [replay]
  split <;> rename_i hr <;> rw [hr]

theorem replay_of_waiting {stage' : Stage}
    (ha : stage.advance input.toList = .waiting stage' rest) :
    replay h now stage input state = ⟨[], .ok .pending, state⟩ :=
  replay_eq (next_of_waiting ha)

theorem replay_of_refused {e : HttpError} (ha : stage.advance input.toList = .refused e rest) :
    replay h now stage input state =
      ⟨(Answer.error now (e.status?.getD .internalServerError)).flatten, .error e, state⟩ :=
  replay_eq (next_of_refused ha)

theorem replay_of_declined {status : Status} (ha : stage.advance input.toList = .request r rest)
    (hr : (h.alone now r state).result = .error status) :
    replay h now stage input state = ⟨(Answer.error now status).flatten,
      .error (.responder status), (h.alone now r state).state⟩ :=
  replay_eq (next_of_declined ha hr)

theorem replay_of_closing (ha : stage.advance input.toList = .request r rest)
    (hr : (h.alone now r state).result = .ok ()) (hclose : r.asksToClose = true) :
    replay h now stage input state =
      ⟨(h.alone now r state).outbox.owed, .ok .close, (h.alone now r state).state⟩ := by
  have hn := next_of_answered ha hr
  rw [if_pos hclose] at hn
  exact replay_eq hn

theorem replay_of_keeping (ha : stage.advance input.toList = .request r rest)
    (hr : (h.alone now r state).result = .ok ()) (hkeep : ¬ r.asksToClose = true) :
    replay h now stage input state =
      (replay h now .idle (leave input rest) (h.alone now r state).state).behind
        (h.alone now r state).outbox.owed := by
  have hn := next_of_answered ha hr
  rw [if_neg hkeep] at hn
  exact replay_eq hn

end

/-- Only the place where reading stops matters. -/
theorem replay_congr (h : Responder σ) (now : Timestamp) {stage stage' : Stage}
    {input input' : ByteQueue} (state : σ)
    (hs : stage.advance input.toList = stage'.advance input'.toList) :
    replay h now stage input state = replay h now stage' input' state := by
  cases ha : stage.advance input.toList with
  | waiting s rest => rw [replay_of_waiting ha, replay_of_waiting (hs.symm.trans ha)]
  | refused e rest => rw [replay_of_refused ha, replay_of_refused (hs.symm.trans ha)]
  | request r rest =>
    have ha' := hs.symm.trans ha
    cases hr : (h.alone now r state).result with
    | error status => rw [replay_of_declined ha hr, replay_of_declined ha' hr]
    | ok u =>
      by_cases hclose : r.asksToClose = true
      · rw [replay_of_closing ha hr hclose, replay_of_closing ha' hr hclose]
      · rw [replay_of_keeping ha hr hclose, replay_of_keeping ha' hr hclose]
        have hleft : Stage.idle.advance (leave input rest).toList
            = Stage.idle.advance (leave input' rest).toList := by
          rw [toList_leave_request ha, toList_leave_request ha']
        rw [replay_congr h now _ hleft]
termination_by 2 * input.length + stage.weight
decreasing_by
  exact length_leave_request ha

/-- The responder is called for the requests up to the first that it declines. -/
theorem calls_replay (h : Responder σ) (now : Timestamp) (input : ByteQueue)
    (s : σ × Responder.Calls) {requests : List Request}
    (hp : Request.Pipelined input.toList requests) :
    ∃ taken, taken <+: requests ∧
      (replay h.recorded now .idle input s).state.2 = s.2 ++ taken.map (fun r => (r.method, r)) ∧
      ((∀ status, (replay h.recorded now .idle input s).ending ≠ .error (.responder status)) →
        taken = requests) := by
  have hcall (s : σ × Responder.Calls) (r : Request) :
      (h.recorded.alone now r s).state.2 = s.2 ++ [(r.method, r)] := by
    rw [Responder.alone, Responder.recorded, Responder.forMethod_noted]
    rfl
  generalize hb : input.toList = bytes at hp
  induction hp generalizing input s with
  | done hno =>
    subst hb
    refine ⟨[], List.nil_prefix, ?_, fun _ => rfl⟩
    rw [List.map_nil, List.append_nil]
    cases ha : Stage.idle.advance input.toList with
    | waiting stage rest => rw [replay_of_waiting ha]
    | refused e rest => rw [replay_of_refused ha]
    | request r rest =>
      obtain ⟨front, hw, hcut⟩ := Stage.advance_idle_eq_request_iff.1 ha
      exact absurd ⟨rest, hcut.symm⟩ (hno r front hw)
  | @closing r front rest hw hclosed =>
    have ha := Stage.advance_idle_eq_request_iff.2 ⟨front, hw, hb⟩
    have hclose := Request.asksToClose_iff.2 hclosed
    refine ⟨[r], List.prefix_rfl, ?_, fun _ => rfl⟩
    cases hr : (h.recorded.alone now r s).result with
    | error status =>
      rw [replay_of_declined ha hr]
      exact hcall s r
    | ok u =>
      rw [replay_of_closing ha hr hclose]
      exact hcall s r
  | @keeping r front rest rs hw hkept _ ih =>
    have ha := Stage.advance_idle_eq_request_iff.2 ⟨front, hw, hb⟩
    have hkeep := mt Request.asksToClose_iff.1 hkept
    cases hr : (h.recorded.alone now r s).result with
    | error status =>
      rw [replay_of_declined ha hr]
      exact ⟨[r], ⟨rs, rfl⟩, hcall s r, fun hnot => absurd rfl (hnot status)⟩
    | ok u =>
      obtain ⟨taken, hprefix, hcalls, hall⟩ := ih (leave input rest)
        (h.recorded.alone now r s).state (toList_leave_request ha)
      rw [replay_of_keeping ha hr hkeep]
      refine ⟨r :: taken, List.cons_prefix_cons.2 ⟨rfl, hprefix⟩, ?_, fun hnot => ?_⟩
      · refine hcalls.trans ?_
        rw [hcall, List.append_assoc]
        rfl
      · rw [hall hnot]

def atOnce (h : Responder σ) (now : Timestamp) (bytes : Bytes) (state : σ) : Replayed σ :=
  replay h now .idle (.append .empty bytes) state

theorem calls_atOnce (h : Responder σ) (now : Timestamp) (bytes : Bytes) (state : σ) :
    ∃ requests taken, (∀ rs, Request.Pipelined bytes rs ↔ rs = requests) ∧ taken <+: requests ∧
      (atOnce h.recorded now bytes (state, [])).state.2 = taken.map (fun r => (r.method, r)) ∧
      ((∀ status, (atOnce h.recorded now bytes (state, [])).ending ≠ .error (.responder status)) →
        taken = requests) := by
  have hbytes : (ByteQueue.append .empty bytes).toList = bytes := by
    rw [ByteQueue.toList_append ByteQueue.wellFormed_empty, ByteQueue.toList_empty,
      List.nil_append]
  obtain ⟨requests, hrequests⟩ := Request.exists_pipelined bytes
  obtain ⟨taken, hprefix, hcalls, hall⟩ := calls_replay h now (.append .empty bytes) (state, [])
    (hbytes.symm ▸ (hrequests requests).2 rfl)
  exact ⟨requests, taken, hrequests, hprefix, hcalls, hall⟩

end Exchange

end HttpOrigin
