import HttpOrigin.ByteQueue.Basic
import HttpOrigin.Transport.Script

/-! Filling a queue from a descriptor for as long as it has something to give. -/
namespace HttpOrigin.ByteQueue

inductive Receipt where
  | stillOpen (received : Nat)
  | ended (received : Nat)
  deriving DecidableEq, Repr

def Receipt.received : Receipt → Nat
  | stillOpen n | ended n => n

def Receipt.isEnd : Receipt → Bool
  | stillOpen _ => false
  | ended _ => true

structure Received where
  result : Except TransportError Receipt
  queue : ByteQueue
  unread : List Arrival

def withRoom (b : ByteQueue) : ByteQueue := if b.dataSize == b.capacity then b.grow else b

/-- Reads into the whole free tail, again and again. A call that was interrupted is made again;
one that would block or brings no bytes ends the receive, and any other failure is its error. -/
def receiveLoop (b : ByteQueue) (received : Nat) (script : List Arrival) : Received :=
  match h : Arrival.read b.withRoom.free script with
  | (.ok [], rest) => ⟨.ok (.ended received), b.withRoom, rest⟩
  | (.ok (c :: cs), rest) =>
    receiveLoop (b.withRoom.push (c :: cs)).loosen (received + (cs.length + 1)) rest
  | (.error .wouldBlock, rest) => ⟨.ok (.stillOpen received), b.withRoom, rest⟩
  | (.error .interrupted, rest) => receiveLoop b.withRoom received rest
  | (.error f, rest) => ⟨.error (.io f), b.withRoom, rest⟩
termination_by Arrival.weight script
decreasing_by
  · exact Arrival.weight_lt_of_read_ok h
  · exact Arrival.weight_lt_of_read_interrupted h

def receive (b : ByteQueue) (script : List Arrival) : Received := receiveLoop b.trim 0 script

end HttpOrigin.ByteQueue
