import HttpOrigin.Exchange
import HttpOrigin.Proofs.Reading

/-! What one exchange comes to, read off the place where reading stops, and responders that keep a
record of their calls. -/
namespace HttpOrigin

variable {σ : Type}

namespace Responder

variable {α : Type} (note : Method → Timestamp → Request → Outbox → Responded σ → α)

def noting (m : Method) (respond : Timestamp → Request → Outbox → σ → Responded σ)
    (now : Timestamp) (r : Request) (outbox : Outbox) (s : σ × List α) : Responded (σ × List α) :=
  let responded := respond now r outbox s.1
  ⟨responded.result, responded.outbox, responded.state,
    s.2 ++ [note m now r outbox responded]⟩

/-- Answers as `h` does and takes a note of every call. -/
def noted (h : Responder σ) : Responder (σ × List α) where
  get := noting note .get h.get
  head := noting note .head h.head
  post := noting note .post h.post

theorem forMethod_noted (h : Responder σ) (m : Method) (now : Timestamp) (r : Request)
    (outbox : Outbox) (s : σ × List α) :
    (h.noted note).forMethod m now r outbox s = noting note m (h.forMethod m) now r outbox s := by
  cases m <;> rfl

abbrev Calls := List (Method × Request)

def recorded (h : Responder σ) : Responder (σ × Calls) := h.noted fun m _ r _ _ => (m, r)

end Responder

namespace Exchange

theorem toList_leave {input : ByteQueue} {rest : Bytes} (h : rest <:+ input.toList) :
    (leave input rest).toList = rest := by
  obtain ⟨consumed, h⟩ := h
  rw [leave, ByteQueue.toList_skip, ← ByteQueue.length_toList, ← h, List.length_append,
    Nat.add_sub_cancel, List.drop_left]

/-- What reading leaves of a queue, as a list. -/
theorem toList_leave_rest (stage : Stage) (input : ByteQueue) :
    (leave input (stage.advance input.toList).rest).toList = (stage.advance input.toList).rest :=
  toList_leave (stage.rest_advance_suffix input.toList)

theorem toList_leave_waiting {stage stage' : Stage} {input : ByteQueue} {rest : Bytes}
    (ha : stage.advance input.toList = .waiting stage' rest) :
    (leave input rest).toList = rest := by
  have hrest := toList_leave_rest stage input
  rwa [ha, Stage.Stop.rest] at hrest

theorem toList_leave_request {stage : Stage} {input : ByteQueue} {r : Request} {rest : Bytes}
    (ha : stage.advance input.toList = .request r rest) : (leave input rest).toList = rest := by
  have hrest := toList_leave_rest stage input
  rwa [ha, Stage.Stop.rest] at hrest

theorem length_leave_request {stage : Stage} {input : ByteQueue} {r : Request} {rest : Bytes}
    (ha : stage.advance input.toList = .request r rest) :
    2 * (leave input rest).length < 2 * input.length + stage.weight := by
  have hlen := Stage.length_rest_le ha
  rw [ByteQueue.length_toList] at hlen
  rwa [← ByteQueue.length_toList, toList_leave_request ha]

theorem wellFormed_leave {input : ByteQueue} (h : input.WellFormed) (rest : Bytes) :
    (leave input rest).WellFormed := by
  refine h.skip ?_
  omega

section
variable {h : Responder σ} {now : Timestamp} {stage : Stage} {input : ByteQueue} {outbox : Outbox}
  {state : σ} {rest : Bytes}

theorem next_of_waiting {stage' : Stage} (ha : stage.advance input.toList = .waiting stage' rest) :
    next h now stage input outbox state
      = ⟨.ok .pending, stage', leave input rest, outbox, state⟩ := by
  simp only [next, ha]

theorem next_of_refused {e : HttpError} (ha : stage.advance input.toList = .refused e rest) :
    next h now stage input outbox state = ⟨.error e, .idle, leave input rest, outbox, state⟩ := by
  simp only [next, ha]

theorem next_of_declined {r : Request} {status : Status}
    (ha : stage.advance input.toList = .request r rest)
    (hr : (h.forMethod r.method now r outbox state).result = .error status) :
    next h now stage input outbox state = ⟨.error (.responder status), .idle, leave input rest,
      (h.forMethod r.method now r outbox state).outbox,
      (h.forMethod r.method now r outbox state).state⟩ := by
  simp only [next, ha, answer, hr]

theorem next_of_answered {r : Request} (ha : stage.advance input.toList = .request r rest)
    (hr : (h.forMethod r.method now r outbox state).result = .ok ()) :
    next h now stage input outbox state =
      ⟨.ok (if r.asksToClose then .close else .keepAlive), .idle, leave input rest,
        (h.forMethod r.method now r outbox state).outbox,
        (h.forMethod r.method now r outbox state).state⟩ := by
  simp only [next, ha, answer, hr]

end

end Exchange

end HttpOrigin
