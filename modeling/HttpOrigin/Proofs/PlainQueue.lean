import HttpOrigin.ByteQueue.Line
import HttpOrigin.Proofs.Conservation
import Mathlib.Data.List.TakeWhile

/-! A byte queue seen from outside is a plain list of bytes: appends go to the tail, everything else
takes from the head. The list machine below knows nothing of memory, so no growth, no move and no
cut of the memory can show in a reply or in the content. -/
namespace HttpOrigin

namespace ByteQueue

inductive Op where
  | append (bytes : Bytes)
  | truncate (n : Nat)
  | take (n : Nat)
  | readLine
  | receive (script : List Arrival)
  | send (script : List Acceptance)

inductive Reply where
  | done
  | taken (bytes : Option Bytes)
  | line (result : Except TransportError (Option String))
  | received (result : Except TransportError Receipt) (unread : List Arrival)
  | sent (result : Except TransportError Nat) (written : Bytes) (unused : List Acceptance)

def perform (b : ByteQueue) : Op → Reply × ByteQueue
  | .append bytes => (.done, b.append bytes)
  | .truncate n => (.done, b.truncate n)
  | .take n => match b.take? n with
    | some (bytes, b') => (.taken (some bytes), b')
    | none => (.taken none, b)
  | .readLine => (.line b.readLine.1, b.readLine.2)
  | .receive script =>
    (.received (b.receive script).result (b.receive script).unread, (b.receive script).queue)
  | .send script =>
    (.sent (b.send script).result (b.send script).written (b.send script).unused,
      (b.send script).queue)

def run (b : ByteQueue) : List Op → List Reply × ByteQueue
  | [] => ([], b)
  | op :: ops =>
    let (reply, b) := b.perform op
    let (replies, b) := b.run ops
    (reply :: replies, b)

end ByteQueue

/-! ### The list machine -/

namespace PlainQueue
open ByteQueue (Op Reply Receipt)

def take (q : Bytes) (n : Nat) : Option Bytes × Bytes :=
  if q.length < n then (none, q) else (some (q.take n), q.drop n)

def readLine (q : Bytes) : Except TransportError (Option String) × Bytes :=
  match q.findIdx? (· == Bytes.lf) with
  | none => (if q.length > maxLine + 1 then .error (.lineTooLong maxLine) else .ok none, q)
  | some i =>
    let stop := if 0 < i ∧ q[i - 1]? = some Bytes.cr then i - 1 else i
    if stop > maxLine then (.error (.lineTooLong maxLine), q)
    else (.ok (some (Text.decode (q.take stop))), q.drop (i + 1))

/-- Takes every chunk whole; no size of a read occurs. -/
def receive (q : Bytes) (n : Nat) :
    List Arrival → Except TransportError Receipt × Bytes × List Arrival
  | [] => (.ok (.stillOpen n), q, [])
  | .bytes [] :: rest => (.ok (.ended n), q, rest)
  | .bytes data :: rest => receive (q ++ data) (n + data.length) rest
  | .fault .wouldBlock :: rest => (.ok (.stillOpen n), q, rest)
  | .fault .interrupted :: rest => receive q n rest
  | .fault f :: rest => (.error (.io f), q, rest)

theorem receive_chunk {data : Bytes} (q : Bytes) (n : Nat) (rest : List Arrival) (hd : data ≠ []) :
    receive q n (.bytes data :: rest) = receive (q ++ data) (n + data.length) rest := by
  cases data with
  | nil => exact absurd rfl hd
  | cons c cs => rfl

structure Sent where
  result : Except TransportError Nat
  left : Bytes
  written : Bytes
  unused : List Acceptance

def send (q : Bytes) (n : Nat) (written : Bytes) (script : List Acceptance) : Sent :=
  match q, script with
  | [], _ => ⟨.ok n, [], written, script⟩
  | q, [] => ⟨.ok n, q, written, []⟩
  | q, item :: rest =>
    match item.taken q.length with
    | .ok 0 => ⟨.error (.io .nothingAccepted), q, written, rest⟩
    | .ok k => send (q.drop k) (n + k) (written ++ q.take k) rest
    | .error .wouldBlock => ⟨.ok n, q, written, rest⟩
    | .error .interrupted => send q n written rest
    | .error f => ⟨.error (.io f), q, written, rest⟩

theorem send_offer {q : Bytes} (hq : q ≠ []) (n : Nat) (written : Bytes) (item : Acceptance)
    (rest : List Acceptance) :
    send q n written (item :: rest) = match item.taken q.length with
      | .ok 0 => ⟨.error (.io .nothingAccepted), q, written, rest⟩
      | .ok k => send (q.drop k) (n + k) (written ++ q.take k) rest
      | .error .wouldBlock => ⟨.ok n, q, written, rest⟩
      | .error .interrupted => send q n written rest
      | .error f => ⟨.error (.io f), q, written, rest⟩ := by
  cases q with
  | nil => exact absurd rfl hq
  | cons c cs => rfl

def perform (q : Bytes) : Op → Reply × Bytes
  | .append bytes => (.done, q ++ bytes)
  | .truncate n => (.done, q.take n)
  | .take n => (.taken (take q n).1, (take q n).2)
  | .readLine => (.line (readLine q).1, (readLine q).2)
  | .receive script => (.received (receive q 0 script).1 (receive q 0 script).2.2,
      (receive q 0 script).2.1)
  | .send script => (.sent (send q 0 [] script).result (send q 0 [] script).written
      (send q 0 [] script).unused, (send q 0 [] script).left)

def run (q : Bytes) : List Op → List Reply × Bytes
  | [] => ([], q)
  | op :: ops =>
    let (reply, q) := perform q op
    let (replies, q) := run q ops
    (reply :: replies, q)

end PlainQueue

namespace ByteQueue

/-! ### Lines -/

theorem dropReturn_take {q : Bytes} {i : Nat} (hi : i < q.length) :
    Line.dropReturn (q.take i)
      = q.take (if 0 < i ∧ q[i - 1]? = some Bytes.cr then i - 1 else i) := by
  have hlast : (q.take i).getLast? = some Bytes.cr ↔ 0 < i ∧ q[i - 1]? = some Bytes.cr := by
    have hsome : q[i - 1]? = some q[i - 1] := List.getElem?_eq_getElem (by omega)
    rw [List.getLast?_take, hsome]
    by_cases hzero : i = 0
    · simp [hzero]
    · simp [hzero, Nat.pos_of_ne_zero hzero]
  by_cases hcr : 0 < i ∧ q[i - 1]? = some Bytes.cr
  · rw [Line.dropReturn, if_pos (hlast.2 hcr), if_pos hcr, List.dropLast_take hi]
  · rw [Line.dropReturn, if_neg (mt hlast.1 hcr), if_neg hcr]

theorem scan_of_findIdx?_none {q : Bytes} (h : q.findIdx? (· == Bytes.lf) = none) :
    Line.scan q = if q.length > maxLine + 1 then .tooLong else .incomplete := by
  have hnone : q.dropWhile (· ≠ Bytes.lf) = [] := by
    rw [List.dropWhile_eq_nil_iff]
    intro c hc
    have := List.findIdx?_eq_none_iff.1 h c hc
    simpa using this
  rw [Line.scan, hnone]

theorem scan_of_findIdx?_some {q : Bytes} {i : Nat} (h : q.findIdx? (· == Bytes.lf) = some i) :
    let stop := if 0 < i ∧ q[i - 1]? = some Bytes.cr then i - 1 else i
    i < q.length ∧ stop ≤ i ∧
      Line.scan q = if stop > maxLine then .tooLong else .line (q.take stop) (q.drop (i + 1)) := by
  intro stop
  obtain ⟨hi, hidx⟩ := List.findIdx?_eq_some_iff_findIdx_eq.1 h
  have hstop : stop ≤ i := by
    dsimp only [stop]
    split <;> omega
  have hp : (fun c : UInt8 => !decide (c ≠ Bytes.lf)) = (· == Bytes.lf) := by
    funext c
    by_cases hc : c = Bytes.lf <;> simp [hc]
  have htake : q.takeWhile (· ≠ Bytes.lf) = q.take i := by
    rw [List.takeWhile_eq_take_findIdx_not, hp, hidx]
  have hdrop : q.dropWhile (· ≠ Bytes.lf) = q[i] :: q.drop (i + 1) := by
    rw [List.dropWhile_eq_drop_findIdx_not, hp, hidx]
    exact List.drop_eq_getElem_cons hi
  have hlength : (q.take stop).length = stop := by
    rw [List.length_take]
    omega
  have htext : Line.dropReturn (q.take i) = q.take stop := dropReturn_take hi
  refine ⟨hi, hstop, ?_⟩
  rw [Line.scan, hdrop, htake]
  simp only [htext, hlength]

theorem readLine_refines (b : ByteQueue) :
    b.readLine.1 = (PlainQueue.readLine b.toList).1 ∧
      b.readLine.2.toList = (PlainQueue.readLine b.toList).2 := by
  cases h : b.toList.findIdx? (· == Bytes.lf) with
  | none =>
    rw [readLine, scan_of_findIdx?_none h, PlainQueue.readLine, h]
    by_cases hlong : b.toList.length > maxLine + 1 <;> simp only [hlong, if_true, if_false] <;> simp
  | some i =>
    obtain ⟨hi, hstop, hscan⟩ := scan_of_findIdx?_some h
    have hrest : b.length - (b.toList.drop (i + 1)).length = i + 1 := by
      rw [List.length_drop, length_toList] at *
      omega
    rw [readLine, hscan, PlainQueue.readLine, h]
    dsimp only
    generalize (if 0 < i ∧ b.toList[i - 1]? = some Bytes.cr then i - 1 else i) = stop
    by_cases hlong : stop > maxLine
    · simp only [if_pos hlong, and_self]
    · simp only [if_neg hlong, hrest, toList_skip, and_self]

/-! ### Receiving and sending -/

/-- A read that brings a part of a chunk leaves the rest of it for the next read. -/
theorem receive_of_read_ok {space n : Nat} {script rest : List Arrival} {data : Bytes} (q : Bytes)
    (hd : data ≠ []) (h : Arrival.read space script = (.ok data, rest)) :
    PlainQueue.receive q n script = PlainQueue.receive (q ++ data) (n + data.length) rest := by
  cases script with
  | nil => cases h
  | cons a script =>
    cases a with
    | fault f => cases h
    | bytes arrived =>
      rw [Arrival.read] at h
      by_cases hfits : arrived.length ≤ space
      · rw [if_pos hfits] at h
        cases h
        exact PlainQueue.receive_chunk q n rest hd
      · rw [if_neg hfits] at h
        cases h
        have hlong : arrived ≠ [] := by
          rintro rfl
          exact hfits (Nat.zero_le space)
        have hleft : arrived.drop space ≠ [] := by
          rw [ne_eq, List.drop_eq_nil_iff]
          exact hfits
        have hlength : n + (arrived.take space).length + (arrived.drop space).length
            = n + arrived.length := by
          rw [Nat.add_assoc, ← List.length_append, List.take_append_drop]
        rw [PlainQueue.receive_chunk q n script hlong,
          PlainQueue.receive_chunk _ _ script hleft, List.append_assoc, List.take_append_drop,
          hlength]

theorem receive_of_read_error {space n : Nat} {script rest : List Arrival} {f : Fault} (q : Bytes)
    (h : Arrival.read space script = (.error f, rest)) :
    PlainQueue.receive q n script = match f with
      | .wouldBlock => (.ok (.stillOpen n), q, rest)
      | .interrupted => PlainQueue.receive q n rest
      | f => (.error (.io f), q, rest) := by
  cases script with
  | nil =>
    cases h
    rfl
  | cons a script =>
    cases a with
    | fault f =>
      cases h
      cases f <;> rfl
    | bytes arrived =>
      rw [Arrival.read] at h
      split at h <;> cases h

theorem receive_of_end {space n : Nat} {script rest : List Arrival} (q : Bytes) (hs : 0 < space)
    (h : Arrival.read space script = (.ok [], rest)) :
    PlainQueue.receive q n script = (.ok (.ended n), q, rest) := by
  cases script with
  | nil => cases h
  | cons a script =>
    cases a with
    | fault f => cases h
    | bytes arrived =>
      rw [Arrival.read] at h
      split at h
      · cases h
        rfl
      · rename_i hlong
        obtain ⟨htake, -⟩ := Prod.mk.inj h
        have hnil := congrArg List.length (Except.ok.inj htake)
        rw [List.length_take, List.length_nil] at hnil
        omega

/-- What is left of a script never depends on the sizes of the free tails that were offered. -/
theorem receiveLoop_refines {b : ByteQueue} (hw : b.WellFormed) (n : Nat) (script : List Arrival) :
    ((receiveLoop b n script).result, (receiveLoop b n script).queue.toList,
      (receiveLoop b n script).unread) = PlainQueue.receive b.toList n script := by
  fun_induction receiveLoop b n script with
  | case1 b n script rest h =>
    rw [receive_of_end b.toList (free_withRoom_pos hw) h, toList_withRoom]
  | case2 b n script c cs rest h ih =>
    obtain ⟨hfits, -⟩ := Arrival.content_of_read_ok h
    have hpushed : (b.withRoom.push (c :: cs)).loosen.toList = b.toList ++ (c :: cs) := by
      rw [toList_loosen, toList_push hw.withRoom.1, toList_withRoom]
    rw [ih (hw.withRoom.push hfits).loosen, hpushed,
      receive_of_read_ok b.toList (List.cons_ne_nil c cs) h, List.length_cons]
  | case3 b n script rest h =>
    rw [receive_of_read_error b.toList h, toList_withRoom]
  | case4 b n script rest h ih =>
    rw [ih hw.withRoom, receive_of_read_error b.toList h, toList_withRoom]
  | case5 b n script f rest hblock hagain h =>
    rw [receive_of_read_error b.toList h, toList_withRoom]
    cases f <;> first | exact absurd rfl hblock | exact absurd rfl hagain | rfl

theorem receive_refines {b : ByteQueue} (hw : b.WellFormed) (script : List Arrival) :
    ((b.receive script).result, (b.receive script).queue.toList, (b.receive script).unread)
      = PlainQueue.receive b.toList 0 script := by
  have h := receiveLoop_refines hw.trim 0 script
  rwa [toList_trim] at h

def Sent.plain (s : Sent) : PlainQueue.Sent := ⟨s.result, s.queue.toList, s.written, s.unused⟩

theorem sendLoop_refines {b : ByteQueue} (hw : b.WellFormed) (n : Nat) (written : Bytes)
    (script : List Acceptance) :
    (sendLoop b n written script).plain = PlainQueue.send b.toList n written script := by
  have hfull : ∀ {b : ByteQueue}, b.WellFormed → ¬ b.isEmpty = true → b.toList ≠ [] := by
    intro b hw hfull hnil
    exact hfull ((isEmpty_iff hw).2 hnil)
  fun_induction sendLoop b n written script with
  | case1 script b n written hempty =>
    have hnil := (isEmpty_iff hw).1 hempty
    rw [Sent.plain, hnil, PlainQueue.send]
  | case2 b n written hempty =>
    rw [PlainQueue.send]
    · rfl
    · exact hfull hw hempty
  | case3 b n written hempty item rest htaken =>
    rw [PlainQueue.send_offer (hfull hw hempty), length_toList, htaken]
    rfl
  | case4 b n written hempty item rest k hk htaken ih =>
    rw [ih (hw.skip (Acceptance.le_of_taken htaken)), PlainQueue.send_offer (hfull hw hempty),
      length_toList, htaken, toList_skip]
    cases k with
    | zero => exact absurd rfl hk
    | succ k => rfl
  | case5 b n written hempty item rest htaken =>
    rw [PlainQueue.send_offer (hfull hw hempty), length_toList, htaken]
    rfl
  | case6 b n written hempty item rest htaken ih =>
    rw [ih hw, PlainQueue.send_offer (hfull hw hempty), length_toList, htaken]
  | case7 b n written hempty item rest f hblock hagain htaken =>
    rw [PlainQueue.send_offer (hfull hw hempty), length_toList, htaken]
    cases f <;> first | exact absurd rfl hblock | exact absurd rfl hagain | rfl

theorem send_refines {b : ByteQueue} (hw : b.WellFormed) (script : List Acceptance) :
    (b.send script).plain = PlainQueue.send b.toList 0 [] script := by
  rw [← sendLoop_refines hw, send]
  split
  · simp only [Sent.plain, toList_trim]
  · rfl

/-! ### Whole runs -/

theorem WellFormed.perform {b : ByteQueue} (hw : b.WellFormed) (op : Op) :
    (b.perform op).2.WellFormed := by
  cases op with
  | append bytes => exact hw.append bytes
  | truncate n => exact hw.truncate n
  | take n =>
    rw [ByteQueue.perform, take?]
    by_cases hshort : b.length < n
    · simp only [if_pos hshort]
      exact hw
    · simp only [if_neg hshort]
      exact hw.skip (Nat.le_of_not_lt hshort)
  | readLine =>
    change b.readLine.2.WellFormed
    rw [readLine]
    split
    · exact hw
    · exact hw
    · exact hw.skip (Nat.sub_le ..)
  | receive script => exact (receive_conserves hw script).1
  | send script => exact (send_conserves hw script).1

theorem perform_refines {b : ByteQueue} (hw : b.WellFormed) (op : Op) :
    (b.perform op).1 = (PlainQueue.perform b.toList op).1 ∧
      (b.perform op).2.toList = (PlainQueue.perform b.toList op).2 := by
  cases op with
  | append bytes => exact ⟨rfl, toList_append hw bytes⟩
  | truncate n => exact ⟨rfl, toList_truncate b n⟩
  | take n =>
    rw [perform, take?, PlainQueue.perform, PlainQueue.take, length_toList]
    by_cases hshort : b.length < n
    · simp only [if_pos hshort, and_self]
    · simp only [if_neg hshort, toList_skip, and_self]
  | readLine =>
    obtain ⟨hresult, hleft⟩ := readLine_refines b
    rw [perform, PlainQueue.perform, hresult]
    exact ⟨rfl, hleft⟩
  | receive script =>
    rw [perform, PlainQueue.perform, ← receive_refines hw script]
    exact ⟨rfl, rfl⟩
  | send script =>
    rw [perform, PlainQueue.perform, ← send_refines hw script]
    exact ⟨rfl, rfl⟩

theorem run_refines {b : ByteQueue} (hw : b.WellFormed) (ops : List Op) :
    (b.run ops).2.WellFormed ∧ (b.run ops).1 = (PlainQueue.run b.toList ops).1 ∧
      (b.run ops).2.toList = (PlainQueue.run b.toList ops).2 := by
  induction ops generalizing b with
  | nil => exact ⟨hw, rfl, rfl⟩
  | cons op ops ih =>
    obtain ⟨hreply, hcontent⟩ := perform_refines hw op
    obtain ⟨hleft, hreplies, hlist⟩ := ih (hw.perform op)
    rw [hcontent] at hreplies hlist
    simp only [run, PlainQueue.run]
    rw [hreply, hreplies]
    exact ⟨hleft, rfl, hlist⟩

/-- After any calls on a new queue, failed ones included, the consumed part lies within the data and
the data within the memory; all replies so far are those of a plain list, and so is the content; and
what the queue will reply to any further calls depends on that content alone. -/
theorem replies_eq_plain (ops further : List Op) :
    let b := (run .empty ops).2
    let q := (PlainQueue.run [] ops).2
    (b.position ≤ b.dataSize ∧ b.dataSize ≤ b.capacity) ∧
      (run .empty ops).1 = (PlainQueue.run [] ops).1 ∧
      b.toList = q ∧ b.length = q.length ∧ b.isEmpty = q.isEmpty ∧
      (b.run further).1 = (PlainQueue.run b.toList further).1 ∧
      (b.run further).2.toList = (PlainQueue.run b.toList further).2 := by
  intro b q
  obtain ⟨hw, hreplies, hcontent⟩ := run_refines wellFormed_empty ops
  obtain ⟨-, hfurther, hlist⟩ := run_refines hw further
  have hq : b.toList = q := hcontent
  have hlength : b.length = q.length := by rw [← length_toList, hq]
  have hempty : b.isEmpty = q.isEmpty := by
    rw [Bool.eq_iff_iff, isEmpty_iff hw, List.isEmpty_iff]
    exact iff_of_eq (congrArg (· = []) hq)
  exact ⟨hw, hreplies, hq, hlength, hempty, hfurther, hlist⟩

end ByteQueue

end HttpOrigin
