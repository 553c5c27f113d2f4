import HttpOrigin.Proofs.Conservation
import HttpOrigin.Proofs.Transfer

/-! The answers that the calls of an event get. An event meets more than that, as a script may hold
what no call came to; but with the answers alone as its script it comes to the same. -/
namespace HttpOrigin

namespace Arrival

def ofAnswer : Except Fault Bytes → Arrival
  | .ok data => .bytes data
  | .error f => .fault f

theorem read_ofAnswer {space : Nat} {script rest : List Arrival} {answer : Except Fault Bytes}
    (h : read space script = (answer, rest)) (more : List Arrival) :
    read space (ofAnswer answer :: more) = (answer, more) := by
  cases answer with
  | error f => rfl
  | ok data =>
    have hfits : data.length ≤ space := by
      cases script with
      | nil => cases h
      | cons a script =>
        cases a with
        | fault f => cases h
        | bytes arrived =>
          rw [read] at h
          split at h
          · cases h
            assumption
          · cases h
            exact List.length_take_le space arrived
    rw [ofAnswer, read, if_pos hfits]

end Arrival

namespace Acceptance

def ofAnswer : Except Fault Nat → Acceptance
  | .ok n => .upTo n
  | .error f => .fault f

theorem taken_ofAnswer {item : Acceptance} {offered : Nat} {answer : Except Fault Nat}
    (h : item.taken offered = answer) : (ofAnswer answer).taken offered = answer := by
  cases answer with
  | ok n => rw [ofAnswer, taken, Nat.min_eq_left (le_of_taken h)]
  | error f => rfl

theorem write_ofAnswer (offered : Nat) (script more : List Acceptance) :
    write offered (ofAnswer (write offered script).1 :: more)
      = ((write offered script).1, more) := by
  cases script with
  | nil => rfl
  | cons item rest => rw [write, write, taken_ofAnswer rfl]

end Acceptance

/-! ### Receiving and sending -/

namespace ByteQueue

def receiveAnswers (b : ByteQueue) (script : List Arrival) : List (Except Fault Bytes) :=
  match _h : Arrival.read b.withRoom.free script with
  | (.ok [], _) => [.ok []]
  | (.ok (c :: cs), rest) =>
    .ok (c :: cs) :: receiveAnswers (b.withRoom.push (c :: cs)).loosen rest
  | (.error .interrupted, rest) => .error .interrupted :: receiveAnswers b.withRoom rest
  | (.error f, _) => [.error f]
termination_by Arrival.weight script
decreasing_by
  · exact Arrival.weight_lt_of_read_ok _h
  · exact Arrival.weight_lt_of_read_interrupted _h

def sendAnswers (b : ByteQueue) (script : List Acceptance) : List (Except Fault Nat) :=
  if b.isEmpty then []
  else match script with
    | [] => [.error .wouldBlock]
    | item :: rest =>
      match item.taken b.length with
      | .ok (n + 1) => .ok (n + 1) :: sendAnswers (b.skip (n + 1)) rest
      | .error .interrupted => .error .interrupted :: sendAnswers b rest
      | answer => [answer]

section
variable {b : ByteQueue} {script rest : List Arrival} {answer : Except Fault Bytes}

theorem receiveAnswers_eq : Arrival.read b.withRoom.free script = (answer, rest) →
    b.receiveAnswers script = answer :: match answer with
      | .ok (c :: cs) => receiveAnswers (b.withRoom.push (c :: cs)).loosen rest
      | .error .interrupted => receiveAnswers b.withRoom rest
      | _ => [] := by
  intro h
  rw [receiveAnswers]
  split
  · rename_i hread
    cases hread.symm.trans h
    rfl
  · rename_i hread
    cases hread.symm.trans h
    rfl
  · rename_i hread
    cases hread.symm.trans h
    rfl
  · rename_i f _ hagain hread
    cases hread.symm.trans h
    cases f <;> first | exact absurd rfl hagain | rfl

theorem receiveLoop_eq (n : Nat) : Arrival.read b.withRoom.free script = (answer, rest) →
    receiveLoop b n script = match answer with
      | .ok [] => ⟨.ok (.ended n), b.withRoom, rest⟩
      | .ok (c :: cs) =>
        receiveLoop (b.withRoom.push (c :: cs)).loosen (n + (cs.length + 1)) rest
      | .error .wouldBlock => ⟨.ok (.stillOpen n), b.withRoom, rest⟩
      | .error .interrupted => receiveLoop b.withRoom n rest
      | .error f => ⟨.error (.io f), b.withRoom, rest⟩ := by
  intro h
  rw [receiveLoop]
  split
  · rename_i hread
    cases hread.symm.trans h
    rfl
  · rename_i hread
    cases hread.symm.trans h
    rfl
  · rename_i hread
    cases hread.symm.trans h
    rfl
  · rename_i hread
    cases hread.symm.trans h
    rfl
  · rename_i f _ hblock hagain hread
    cases hread.symm.trans h
    cases f <;> first | exact absurd rfl hblock | exact absurd rfl hagain | rfl

end

theorem receiveLoop_answers (b : ByteQueue) (n : Nat) (script : List Arrival) :
    receiveLoop b n ((b.receiveAnswers script).map Arrival.ofAnswer)
      = { receiveLoop b n script with unread := [] } := by
  fun_induction receiveLoop b n script with
  | case1 b n script rest h =>
    rw [receiveAnswers_eq h, List.map_cons, receiveLoop_eq n (Arrival.read_ofAnswer h _)]
    rfl
  | case2 b n script c cs rest h ih =>
    rw [receiveAnswers_eq h, List.map_cons, receiveLoop_eq n (Arrival.read_ofAnswer h _)]
    exact ih
  | case3 b n script rest h =>
    rw [receiveAnswers_eq h, List.map_cons, receiveLoop_eq n (Arrival.read_ofAnswer h _)]
    rfl
  | case4 b n script rest h ih =>
    rw [receiveAnswers_eq h, List.map_cons, receiveLoop_eq n (Arrival.read_ofAnswer h _)]
    exact ih
  | case5 b n script f rest hblock hagain h =>
    rw [receiveAnswers_eq h, List.map_cons, receiveLoop_eq n (Arrival.read_ofAnswer h _)]
    cases f <;> first | exact absurd rfl hblock | exact absurd rfl hagain | rfl

theorem receive_answers (b : ByteQueue) (script : List Arrival) :
    b.receive ((b.trim.receiveAnswers script).map .ofAnswer)
      = { b.receive script with unread := [] } :=
  b.trim.receiveLoop_answers 0 script

section
variable {b : ByteQueue} {item : Acceptance} {answer : Except Fault Nat}

theorem sendAnswers_cons (hb : ¬ b.isEmpty = true) (rest : List Acceptance) :
    item.taken b.length = answer → b.sendAnswers (item :: rest) = answer :: match answer with
      | .ok (n + 1) => sendAnswers (b.skip (n + 1)) rest
      | .error .interrupted => sendAnswers b rest
      | _ => [] := by
  intro h
  rw [sendAnswers, if_neg hb, h]
  split <;> simp_all

theorem sendLoop_cons (hb : ¬ b.isEmpty = true) (n : Nat) (written : Bytes)
    (rest : List Acceptance) :
    item.taken b.length = answer → sendLoop b n written (item :: rest) = match answer with
      | .ok 0 => ⟨.error (.io .nothingAccepted), b, written, rest⟩
      | .ok k => sendLoop (b.skip k) (n + k) (written ++ b.toList.take k) rest
      | .error .wouldBlock => ⟨.ok n, b, written, rest⟩
      | .error .interrupted => sendLoop b n written rest
      | .error f => ⟨.error (.io f), b, written, rest⟩ := by
  intro h
  cases answer with
  | ok k => cases k <;> simp only [sendLoop, if_neg hb, h]
  | error f => cases f <;> simp only [sendLoop, if_neg hb, h]

end

theorem sendLoop_answers (b : ByteQueue) (n : Nat) (written : Bytes)
    (script more : List Acceptance) :
    sendLoop b n written ((b.sendAnswers script).map Acceptance.ofAnswer ++ more)
      = { sendLoop b n written script with unused := more } := by
  fun_induction sendLoop b n written script with
  | case1 script b n written hempty =>
    rw [sendAnswers.eq_def, if_pos hempty, sendLoop.eq_def, if_pos hempty]
    rfl
  | case2 b n written hfull =>
    rw [sendAnswers, if_neg hfull, List.map_singleton, List.singleton_append,
      sendLoop_cons hfull n written more rfl]
    rfl
  | case3 b n written hfull item rest htaken =>
    rw [sendAnswers_cons hfull rest htaken, List.map_cons, List.cons_append,
      sendLoop_cons hfull n written _ (Acceptance.taken_ofAnswer htaken)]
    rfl
  | case4 b n written hfull item rest k hk htaken ih =>
    rw [sendAnswers_cons hfull rest htaken, List.map_cons, List.cons_append,
      sendLoop_cons hfull n written _ (Acceptance.taken_ofAnswer htaken)]
    cases k with
    | zero => exact absurd rfl hk
    | succ k => exact ih
  | case5 b n written hfull item rest htaken =>
    rw [sendAnswers_cons hfull rest htaken, List.map_cons, List.cons_append,
      sendLoop_cons hfull n written _ (Acceptance.taken_ofAnswer htaken)]
    rfl
  | case6 b n written hfull item rest htaken ih =>
    rw [sendAnswers_cons hfull rest htaken, List.map_cons, List.cons_append,
      sendLoop_cons hfull n written _ (Acceptance.taken_ofAnswer htaken)]
    exact ih
  | case7 b n written hfull item rest f hblock hagain htaken =>
    rw [sendAnswers_cons hfull rest htaken, List.map_cons, List.cons_append,
      sendLoop_cons hfull n written _ (Acceptance.taken_ofAnswer htaken)]
    cases f <;> first | exact absurd rfl hblock | exact absurd rfl hagain | rfl

end ByteQueue

/-! ### A file -/

namespace FileStream

def offer? (s : FileStream) : Option Nat :=
  match s.source with
  | none => none
  | some source =>
    if s.offset < s.chunk.length then some s.pending
    else match Arrival.read chunkSize source with
      | (.ok [], _) | (.error _, _) => none
      | (.ok data, _) => some data.length

def stepAnswers (s : FileStream) (script : List Acceptance) : List (Except Fault Nat) :=
  s.offer?.toList.map fun offered => (Acceptance.write offered script).1

theorem sendStaged_answer (s : FileStream) (r : Readiness) (script : List Acceptance) :
    s.sendStaged r [.ofAnswer (Acceptance.write s.pending script).1]
      = { s.sendStaged r script with unused := [] } := by
  rw [sendStaged, sendStaged, Acceptance.write_ofAnswer]
  cases Acceptance.write s.pending script with
  | mk answer rest =>
    cases answer with
    | ok n => cases n <;> rfl
    | error f =>
      cases hf : f.isHard <;> simp [hf, finish]

theorem step_answers (s : FileStream) (r : Readiness) (script : List Acceptance) :
    s.step r ((s.stepAnswers script).map Acceptance.ofAnswer)
      = { s.step r script with unused := [] } := by
  cases hs : s.source with
  | none => simp [step, stepAnswers, offer?, hs]
  | some source =>
    by_cases hstaged : s.offset < s.chunk.length
    · have hanswer : s.stepAnswers script = [(Acceptance.write s.pending script).1] := by
        simp [stepAnswers, offer?, hs, hstaged]
      rw [hanswer, List.map_singleton, step, step, hs]
      simp only [if_pos hstaged]
      exact s.sendStaged_answer r script
    · cases hread : Arrival.read chunkSize source with
      | mk answer rest =>
        cases answer with
        | ok data =>
          cases data with
          | nil => simp [step, stepAnswers, offer?, hs, hstaged, hread, finish]
          | cons b bs =>
            have hanswer : s.stepAnswers script
                = [(Acceptance.write (bs.length + 1) script).1] := by
              simp [stepAnswers, offer?, hs, hstaged, hread]
            rw [hanswer, List.map_singleton, step, step, hs]
            simp only [if_neg hstaged, hread]
            exact sendStaged_answer
              { s with source := some rest, chunk := b :: bs, offset := 0 } r script
        | error f =>
          cases hf : f.isHard <;>
            simp [step, stepAnswers, offer?, hs, hstaged, hread, hf, finish]

end FileStream

/-! ### Events -/

namespace Client
variable {σ : Type} (c : Client)

def readAnswers (script : List Arrival) : List (Except Fault Bytes) :=
  if c.awaitsInput then c.input.trim.receiveAnswers script else []

def writeAnswers (script : List Acceptance) : List (Except Fault Nat) :=
  c.output.sendAnswers script ++ match (c.flush script).result, c.stream with
    | .ok _, some stream =>
      if (c.flush script).queue.isEmpty then stream.stepAnswers (c.flush script).unused else []
    | _, _ => []

/-- The event with nothing to meet but the answers that its calls got. -/
def Event.answered : Event → Event
  | readable now script => readable now ((c.readAnswers script).map .ofAnswer)
  | writable now script r => writable now ((c.writeAnswers script).map .ofAnswer) r

theorem flush_answers (script more : List Acceptance) :
    c.flush ((c.output.sendAnswers script).map .ofAnswer ++ more)
      = { c.flush script with unused := more } := by
  rw [flush, flush]
  cases hempty : c.output.isEmpty with
  | true => simp [ByteQueue.sendAnswers.eq_def, hempty]
  | false =>
    simp only [Bool.false_eq_true, if_false]
    rw [ByteQueue.send, ByteQueue.send, ByteQueue.sendLoop_answers]
    dsimp only
    split <;> rfl

theorem transferIn_answered (script : List Arrival) :
    c.transferIn ((c.readAnswers script).map .ofAnswer) = c.transferIn script := by
  rw [transferIn, transferIn, readAnswers]
  cases c.awaitsInput with
  | false => rfl
  | true => simp only [if_true, ByteQueue.receive_answers]

theorem transferOut_answered (script : List Acceptance) (r : Readiness) :
    c.transferOut ((c.writeAnswers script).map .ofAnswer) r = c.transferOut script r := by
  rw [transferOut, transferOut, writeAnswers, List.map_append, flush_answers]
  dsimp only
  cases (c.flush script).result with
  | error e => rfl
  | ok n =>
    cases c.stream with
    | none => rfl
    | some stream =>
      cases (c.flush script).queue.isEmpty with
      | false => rfl
      | true =>
        simp only [if_true]
        rw [transferStream, transferStream, FileStream.step_answers]

theorem transfer_answered (e : Event) : c.transfer (e.answered c) = c.transfer e := by
  cases e with
  | readable now script => exact c.transferIn_answered script
  | writable now script r => exact c.transferOut_answered script r

/-- The answers settle what an event comes to. -/
theorem react_answered (h : Responder σ) (state : σ) (e : Event) :
    c.react h state (e.answered c) = c.react h state e := by
  have hnow : (e.answered c).now = e.now := by cases e <;> rfl
  rw [react_eq, react_eq, transfer_answered, hnow]

end Client

end HttpOrigin
