import HttpOrigin.ByteQueue.Basic
import HttpOrigin.FileStream
import HttpOrigin.Timestamp
import HttpOrigin.Wire.Request

/-! What answers requests. -/
namespace HttpOrigin

structure Outbox where
  output : ByteQueue
  stream : Option FileStream
  deriving DecidableEq

/-- What a call of a responder leaves behind; its error is the status of the answer owed instead. -/
structure Responded (σ : Type) where
  result : Except Status Unit
  outbox : Outbox
  state : σ

structure Responder (σ : Type) where
  get : Timestamp → Request → Outbox → σ → Responded σ
  head : Timestamp → Request → Outbox → σ → Responded σ
  post : Timestamp → Request → Outbox → σ → Responded σ

def Responder.forMethod {σ : Type} (h : Responder σ) :
    Method → Timestamp → Request → Outbox → σ → Responded σ
  | .get => h.get
  | .head => h.head
  | .post => h.post

end HttpOrigin
