import HttpOrigin.Responder
import HttpOrigin.RequestReader

/-! One exchange: the next request of the input is read and answered. -/
namespace HttpOrigin.Exchange

inductive Outcome where
  | pending
  | keepAlive
  | close
  deriving DecidableEq, Repr

structure Served (σ : Type) where
  result : Except HttpError Outcome
  stage : Stage
  input : ByteQueue
  outbox : Outbox
  state : σ

variable {σ : Type}

def answer (h : Responder σ) (now : Timestamp) (r : Request) (input : ByteQueue) (outbox : Outbox)
    (state : σ) : Served σ :=
  let responded := h.forMethod r.method now r outbox state
  { result := match responded.result with
      | .ok () => .ok (if r.asksToClose then .close else .keepAlive)
      | .error status => .error (.responder status)
    stage := .idle
    input
    outbox := responded.outbox
    state := responded.state }

def leave (input : ByteQueue) (rest : Bytes) : ByteQueue := input.skip (input.length - rest.length)

/-- Reads on and answers at most one request. After an error the reader is idle. -/
def next (h : Responder σ) (now : Timestamp) (stage : Stage) (input : ByteQueue) (outbox : Outbox)
    (state : σ) : Served σ :=
  match stage.advance input.toList with
  | .waiting stage rest => ⟨.ok .pending, stage, leave input rest, outbox, state⟩
  | .refused e rest => ⟨.error e, .idle, leave input rest, outbox, state⟩
  | .request r rest => answer h now r (leave input rest) outbox state

/-- An answered request has left less to be read. -/
theorem length_input_lt {h : Responder σ} {now : Timestamp} {stage : Stage} {input : ByteQueue}
    {outbox : Outbox} {state : σ} {outcome : Outcome}
    (hr : (next h now stage input outbox state).result = .ok outcome) (ho : outcome ≠ .pending) :
    2 * (next h now stage input outbox state).input.length
        + (next h now stage input outbox state).stage.weight
      < 2 * input.length + stage.weight := by
  unfold next at hr ⊢
  split at hr
  · simp_all
  · simp at hr
  · rename_i r rest hadv
    have := Stage.length_rest_le hadv
    rw [ByteQueue.length_toList] at this
    simp only [answer, leave, ByteQueue.length, ByteQueue.skip, ByteQueue.dataSize, Stage.idle,
      Stage.weight] at *
    omega

end HttpOrigin.Exchange
