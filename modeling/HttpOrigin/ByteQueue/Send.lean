import HttpOrigin.ByteQueue.Basic
import HttpOrigin.Transport.Script

/-! Emptying a queue into a descriptor for as long as it takes something. -/
namespace HttpOrigin.ByteQueue

structure Sent where
  result : Except TransportError Nat
  queue : ByteQueue
  written : Bytes
  unused : List Acceptance

/-- Offers all unconsumed bytes, again and again, and does not write when there are none. A call
that was interrupted is made again; one that would block ends the send; one that takes no bytes, or
fails otherwise, is its error. -/
def sendLoop (b : ByteQueue) (sent : Nat) (written : Bytes) (script : List Acceptance) : Sent :=
  if b.isEmpty then ⟨.ok sent, b, written, script⟩
  else match script with
    | [] => ⟨.ok sent, b, written, []⟩
    | item :: rest =>
      match item.taken b.length with
      | .ok 0 => ⟨.error (.io .nothingAccepted), b, written, rest⟩
      | .ok n => sendLoop (b.skip n) (sent + n) (written ++ b.toList.take n) rest
      | .error .wouldBlock => ⟨.ok sent, b, written, rest⟩
      | .error .interrupted => sendLoop b sent written rest
      | .error f => ⟨.error (.io f), b, written, rest⟩

def send (b : ByteQueue) (script : List Acceptance) : Sent :=
  let s := sendLoop b 0 [] script
  match s.result with
  | .ok _ => { s with queue := s.queue.trim }
  | .error _ => s

end HttpOrigin.ByteQueue
