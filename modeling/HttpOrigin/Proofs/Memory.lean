import HttpOrigin.Proofs.Sending
import Mathlib.Algebra.Group.Nat.Defs
import Mathlib.Logic.Function.Iterate

/-! The memory of a queue. It never falls to half a chunk, some of it is free at any time, and slack
of more than a chunk is halved each time the memory is looked after, which alone never makes it grow
again. -/
namespace HttpOrigin.ByteQueue

/-! ### Giving memory back -/

theorem WellFormed.slack_eq {b : ByteQueue} (hw : b.WellFormed) :
    b.slack = b.capacity - b.length := by
  have := hw.1
  have := hw.2
  simp only [slack, free, length]
  omega

theorem isTight_eq_false_iff {b : ByteQueue} :
    b.isTight = false ↔ b.dataSize + chunkSize / 2 ≤ b.capacity := by
  simp [isTight]

/-- More slack than a chunk is halved, the bytes then stand at the start of the memory and do not
fill it so far that it had to grow; with less slack nothing changes. -/
def Relieved (b b' : ByteQueue) : Prop :=
  if chunkSize < b.capacity - b.length then
    b'.position = 0 ∧ b'.capacity = b.length + (b.capacity - b.length + 1) / 2 ∧
      b'.toList = b.toList ∧ b'.isTight = false
  else b' = b

theorem trim_of_slack_le {b : ByteQueue} (h : b.slack ≤ chunkSize) : b.trim = b :=
  if_neg (by omega)

theorem dataSize_halveSlack {b : ByteQueue} (hw : b.WellFormed) :
    b.halveSlack.dataSize = b.length := by
  have := hw.1
  simp only [halveSlack, dataSize, length, Array.size_extract] at *
  omega

theorem WellFormed.relieved_trim {b : ByteQueue} (hw : b.WellFormed) : Relieved b b.trim := by
  rw [Relieved, ← hw.slack_eq]
  by_cases hslack : chunkSize < b.slack
  · have hdata := dataSize_halveSlack hw
    have hsize := hw.slack_eq
    have hcapacity : b.halveSlack.capacity = b.length + (b.slack + 1) / 2 := by
      have := hw.2
      simp only [halveSlack, length] at *
      omega
    rw [if_pos hslack, ByteQueue.trim, if_pos hslack]
    refine ⟨rfl, hcapacity, toList_halveSlack b, ?_⟩
    rw [isTight_eq_false_iff, hdata, hcapacity]
    simp only [chunkSize] at *
    omega
  · rw [if_neg hslack]
    exact trim_of_slack_le (by omega)

theorem WellFormed.slack_trim {b : ByteQueue} (hw : b.WellFormed) (h : chunkSize < b.slack) :
    b.trim.slack = (b.slack + 1) / 2 := by
  have hrelieved := hw.relieved_trim
  rw [Relieved, ← hw.slack_eq, if_pos h] at hrelieved
  obtain ⟨-, hcapacity, hlist, -⟩ := hrelieved
  have hlength : b.trim.length = b.length := by rw [← length_toList, hlist, length_toList]
  rw [hw.trim.slack_eq, hlength, hcapacity]
  omega

/-- Halving with what is over counted to the larger half, done once and then `n` times. -/
theorem ceil_half_ceil (s n : Nat) :
    ((s + 1) / 2 + 2 ^ n - 1) / 2 ^ n = (s + 2 ^ (n + 1) - 1) / 2 ^ (n + 1) := by
  have hpos : 0 < 2 ^ n := Nat.two_pow_pos n
  have hpow : 2 ^ (n + 1) = 2 * 2 ^ n := Nat.pow_succ'
  have hhalf : (s + 2 * 2 ^ n - 1) / 2 = (s + 1) / 2 + 2 ^ n - 1 := by omega
  rw [hpow, ← Nat.div_div_eq_div_mul, hhalf]

theorem slack_iterate_trim {b : ByteQueue} (hw : b.WellFormed) (n : Nat) :
    (trim^[n] b).WellFormed ∧ (trim^[n] b).toList = b.toList ∧
      (trim^[n] b).slack ≤ max chunkSize ((b.slack + 2 ^ n - 1) / 2 ^ n) := by
  induction n generalizing b with
  | zero =>
    refine ⟨hw, rfl, ?_⟩
    rw [Nat.pow_zero, Nat.add_sub_cancel, Nat.div_one]
    exact Nat.le_max_right ..
  | succ n ih =>
    obtain ⟨hwn, hlist, hslack⟩ := ih hw.trim
    rw [Function.iterate_succ_apply]
    refine ⟨hwn, hlist.trans (toList_trim b), ?_⟩
    by_cases hmore : chunkSize < b.slack
    · rwa [hw.slack_trim hmore, ceil_half_ceil] at hslack
    · -- The slack no longer shrinks, but it is within the first bound already.
      have hkeep : b.trim = b := trim_of_slack_le (by omega)
      rw [hkeep, Function.iterate_fixed hkeep]
      omega

/-! ### Room at the tail -/

/-- What is free behind the bytes after some came into a memory that was so large: half a chunk if
that was a chunk at least, and always half a chunk or a third of what the memory is now. -/
structure HasTail (capacity : Nat) (b : ByteQueue) : Prop where
  grown : capacity ≤ b.capacity
  half : chunkSize ≤ capacity → chunkSize / 2 ≤ b.free
  third : min (chunkSize / 2) (b.capacity / 3) ≤ b.free
  quarter : chunkSize / 4 ≤ b.free

theorem HasTail.of_le {capacity capacity' : Nat} {b : ByteQueue} (h : b.HasTail capacity)
    (hle : capacity' ≤ capacity) : b.HasTail capacity' :=
  ⟨hle.trans h.grown, fun hchunk => h.half (hchunk.trans hle), h.third, h.quarter⟩

structure Ample (b : ByteQueue) : Prop where
  wellFormed : b.WellFormed
  capacity : chunkSize / 2 < b.capacity
  free : chunkSize / 4 ≤ b.free

theorem ample_empty : Ample empty := ⟨wellFormed_empty, by decide, by decide⟩

/-- One growth by half makes a third of the memory free, even if nothing was. -/
theorem hasTail_loosen {b : ByteQueue} (hw : b.WellFormed) (hc : chunkSize / 2 < b.capacity) :
    b.loosen.HasTail b.capacity := by
  have hfull := hw.2
  by_cases htight : b.capacity < b.dataSize + chunkSize / 2
  · -- The bytes lie within the old memory, so all that was added is free.
    have hgrown : b.loosen = b.grow := if_pos (decide_eq_true htight)
    rw [hgrown]
    constructor <;> simp only [grow, enlarged, free, dataSize, chunkSize] at * <;> omega
  · have hsame : b.loosen = b := if_neg (by simpa [isTight] using htight)
    rw [hsame]
    constructor <;> simp only [free, chunkSize] at * <;> omega

theorem ample_loosen {b : ByteQueue} (hw : b.WellFormed) (hc : chunkSize / 2 < b.capacity) :
    b.loosen.Ample := by
  have htail := hasTail_loosen hw hc
  exact ⟨hw.loosen, hc.trans_le htail.grown, htail.quarter⟩

section
variable {b : ByteQueue}

theorem Ample.trim (ha : b.Ample) : b.trim.Ample := by
  have hrelieved := ha.wellFormed.relieved_trim
  by_cases hmore : chunkSize < b.capacity - b.length
  · rw [Relieved, if_pos hmore] at hrelieved
    obtain ⟨-, hcapacity, -, hloose⟩ := hrelieved
    rw [isTight_eq_false_iff] at hloose
    simp only [chunkSize] at *
    refine ⟨ha.wellFormed.trim, ?_, ?_⟩
    · simp only [chunkSize]
      omega
    · simp only [ByteQueue.free, chunkSize]
      omega
  · rw [Relieved, if_neg hmore] at hrelieved
    rwa [hrelieved]

theorem Ample.skip (ha : b.Ample) {n : Nat} (hn : n ≤ b.length) : (b.skip n).Ample :=
  ⟨ha.wellFormed.skip hn, ha.capacity, ha.free⟩

theorem Ample.truncate (ha : b.Ample) (n : Nat) : (b.truncate n).Ample := by
  have hw := ha.wellFormed.truncate n
  by_cases hshort : n < b.length
  · have hcut : b.truncate n = { b with data := b.data.take (b.position + n) } := if_pos hshort
    rw [hcut] at hw ⊢
    refine ⟨hw, ha.capacity, Nat.le_trans ha.free ?_⟩
    simp only [ByteQueue.free, dataSize, Array.take_eq_extract, Array.size_extract]
    omega
  · have hsame : b.truncate n = b := if_neg hshort
    rwa [hsame]

theorem le_capacityFor_self (needed capacity : Nat) : capacity ≤ capacityFor needed capacity := by
  fun_induction capacityFor needed capacity with
  | case1 => exact Nat.le_refl _
  | case2 capacity _ ih => exact Nat.le_trans (Nat.le_of_lt (lt_enlarged capacity)) ih

/-- What an append writes into. -/
theorem Ample.filled (ha : b.Ample) (bytes : Bytes) :
    ((b.trim.reserve bytes.length).push bytes).WellFormed ∧
      b.trim.capacity ≤ ((b.trim.reserve bytes.length).push bytes).capacity := by
  have hroom : bytes.length ≤ (b.trim.reserve bytes.length).free := by
    have := le_capacityFor (b.trim.dataSize + bytes.length) b.trim.capacity
    simp only [ByteQueue.free, reserve, dataSize] at *
    omega
  exact ⟨(ha.trim.wellFormed.reserve bytes.length).push hroom,
    le_capacityFor_self (b.trim.dataSize + bytes.length) b.trim.capacity⟩

theorem Ample.hasTail_append (ha : b.Ample) (bytes : Bytes) :
    (b.append bytes).HasTail b.trim.capacity := by
  obtain ⟨hw, hgrown⟩ := ha.filled bytes
  exact (hasTail_loosen hw (ha.trim.capacity.trans_le hgrown)).of_le hgrown

theorem Ample.append (ha : b.Ample) (bytes : Bytes) : (b.append bytes).Ample := by
  obtain ⟨hw, hgrown⟩ := ha.filled bytes
  exact ample_loosen hw (ha.trim.capacity.trans_le hgrown)

theorem Ample.withRoom (ha : b.Ample) : b.withRoom = b := by
  have hfree := ha.free
  refine if_neg ?_
  simp only [ByteQueue.free, chunkSize, beq_iff_eq] at *
  omega

theorem length_push (hw : b.WellFormed) (bytes : Bytes) :
    (b.push bytes).length = b.length + bytes.length := by
  rw [← length_toList, toList_push hw.1, List.length_append, length_toList]

/-- A receive that brings nothing leaves the memory as it is; one that brings something ends with
room at the tail. -/
theorem Ample.receiveLoop_cases (ha : b.Ample) (n : Nat) (script : List Arrival) :
    ((receiveLoop b n script).queue = b ∧
      ∀ receipt, (receiveLoop b n script).result = .ok receipt → receipt.received = n) ∨
    (b.length < (receiveLoop b n script).queue.length ∧
      (receiveLoop b n script).queue.HasTail b.capacity ∧ (receiveLoop b n script).queue.Ample ∧
      ∀ receipt, (receiveLoop b n script).result = .ok receipt → n < receipt.received) := by
  -- Some memory is free at any time, so a read is never preceded by a growth.
  fun_induction receiveLoop b n script with
  | case1 b n script rest h =>
    refine .inl ⟨ha.withRoom, fun receipt hr => ?_⟩
    cases hr
    rfl
  | case2 b n script c cs rest h ih =>
    obtain ⟨hfits, -⟩ := Arrival.content_of_read_ok h
    rw [ha.withRoom] at hfits ih ⊢
    have hpushed := ha.wellFormed.push hfits
    have htail : (b.push (c :: cs)).loosen.HasTail b.capacity := hasTail_loosen hpushed ha.capacity
    have hample : (b.push (c :: cs)).loosen.Ample := ample_loosen hpushed ha.capacity
    have hlength : (b.push (c :: cs)).loosen.length = b.length + (cs.length + 1) := by
      rw [← length_toList, toList_loosen, length_toList, length_push ha.wellFormed,
        List.length_cons]
    obtain ⟨hqueue, hbrought⟩ | ⟨hmore, htail', hample', hbrought⟩ := ih hample
    · refine .inr ⟨?_, ?_, ?_, fun receipt hr => ?_⟩
      · rw [hqueue, hlength]
        omega
      · rwa [hqueue]
      · rwa [hqueue]
      · rw [hbrought receipt hr]
        omega
    · refine .inr ⟨by omega, htail'.of_le htail.grown, hample', fun receipt hr => ?_⟩
      have := hbrought receipt hr
      omega
  | case3 b n script rest h =>
    refine .inl ⟨ha.withRoom, fun receipt hr => ?_⟩
    cases hr
    rfl
  | case4 b n script rest h ih =>
    rw [ha.withRoom] at ih ⊢
    exact ih ha
  | case5 b n script f rest hblock hagain h =>
    refine .inl ⟨ha.withRoom, fun receipt hr => ?_⟩
    cases hr

theorem Ample.receive (ha : b.Ample) (script : List Arrival) : (b.receive script).queue.Ample := by
  obtain ⟨hqueue, -⟩ | ⟨-, -, hample, -⟩ := ha.trim.receiveLoop_cases 0 script
  · rw [ByteQueue.receive, hqueue]
    exact ha.trim
  · exact hample

theorem Ample.send (ha : b.Ample) (script : List Acceptance) : (b.send script).queue.Ample := by
  have hs := sends_sendLoop ha.wellFormed 0 [] script
  have hloop : (sendLoop b 0 [] script).queue.Ample := by
    rw [hs.queue]
    refine ha.skip ?_
    rw [← length_toList]
    exact hs.greedy.length_accepted_le
  unfold ByteQueue.send
  dsimp only
  split
  · exact hloop.trim
  · exact hloop

theorem Ample.perform (ha : b.Ample) (op : Op) : (b.perform op).2.Ample := by
  cases op with
  | append bytes => exact ha.append bytes
  | truncate n => exact ha.truncate n
  | take n =>
    rw [ByteQueue.perform, take?]
    by_cases hshort : b.length < n
    · simp only [if_pos hshort]
      exact ha
    · simp only [if_neg hshort]
      exact ha.skip (Nat.le_of_not_lt hshort)
  | readLine =>
    change b.readLine.2.Ample
    rw [readLine]
    split
    · exact ha
    · exact ha
    · exact ha.skip (Nat.sub_le ..)
  | receive script => exact ha.receive script
  | send script => exact ha.send script

theorem Ample.run (ha : b.Ample) (ops : List Op) : (b.run ops).2.Ample := by
  induction ops generalizing b with
  | nil => exact ha
  | cons op ops ih => exact ih (ha.perform op)

end

/-- However the memory was grown and given back before, there is room at the tail after bytes were
put in, and after bytes were received, whether the receive failed then or not: half a chunk if the
memory was not less than a chunk as they came in, and else a third of it if that is less, which is a
quarter of a chunk at least. -/
theorem hasTail_of_bytes_in (ops : List Op) :
    let b := (run .empty ops).2
    (∀ bytes, (b.append bytes).HasTail b.trim.capacity) ∧
    ∀ script, b.length < (b.receive script).queue.length →
      (b.receive script).queue.HasTail b.trim.capacity := by
  intro b
  have ha : b.Ample := ample_empty.run ops
  refine ⟨ha.hasTail_append, fun script hmore => ?_⟩
  obtain ⟨hqueue, -⟩ | ⟨-, htail, -⟩ := ha.trim.receiveLoop_cases 0 script
  · rw [receive, hqueue, ← length_toList, ← length_toList, toList_trim] at hmore
    omega
  · exact htail

theorem append_of_fits {b : ByteQueue} (hw : b.WellFormed) {bytes : Bytes}
    (hslack : b.slack ≤ chunkSize) (hfits : bytes.length ≤ b.free) :
    b.append bytes = (b.push bytes).loosen := by
  have hkeep : b.reserve bytes.length = b := by
    have := hw.2
    rw [reserve, capacityFor, if_pos (by simp only [free] at hfits; omega)]
  rw [append, trim_of_slack_le hslack, hkeep]

/-- A memory that was cut below a chunk and then filled to its end. -/
theorem refilled {x y : Bytes} (hx : x.length = 4097) (hy : y.length = 6144) :
    (run .empty [.append x, .send [.everything], .append y]).2 = ⟨y.toArray, 0, 9216⟩ := by
  have hfilled : empty.append x = ⟨x.toArray, 0, 12288⟩ := by
    rw [append_of_fits wellFormed_empty (by decide) (by rw [hx]; decide)]
    simp [push, empty, loosen, isTight, dataSize, grow, enlarged, chunkSize, hx]
  have hdrained : (send ⟨x.toArray, 0, 12288⟩ [.everything]).queue = ⟨#[], 0, 6144⟩ := by
    simp [send, sendLoop, isEmpty, dataSize, Acceptance.taken, length, skip, trim, slack, free,
      chunkSize, halveSlack, hx]
  have hrefilled : append ⟨#[], 0, 6144⟩ y = ⟨y.toArray, 0, 9216⟩ := by
    rw [append_of_fits (by decide) (by decide) (by rw [hy]; decide)]
    simp [push, loosen, isTight, dataSize, grow, enlarged, chunkSize, hy]
  calc (run .empty [.append x, .send [.everything], .append y]).2
      = ((empty.append x).send [.everything]).queue.append y := rfl
    _ = ⟨y.toArray, 0, 9216⟩ := by rw [hfilled, hdrained, hrefilled]

/-- No more than a third of a memory of nine eighths of a chunk is free. -/
theorem free_of_refilled :
    (run .empty [.append (List.replicate 4097 0), .send [.everything],
      .append (List.replicate 6144 0)]).2.free < chunkSize / 2 := by
  rw [refilled List.length_replicate List.length_replicate]
  simp only [free, dataSize, List.size_toArray, List.length_replicate, chunkSize]
  omega

/-! ### Calls that move nothing -/

def Reply.isIdle : Reply → Bool
  | .received (.ok receipt) _ => receipt.received == 0
  | .sent (.ok n) _ _ => n == 0
  | _ => false

/-- A send that does not fail looks after the memory when its last byte is taken. -/
theorem queue_send_of_ok {b : ByteQueue} (hw : b.WellFormed) {script : List Acceptance} {n : Nat}
    (h : (b.send script).result = .ok n) :
    n ≤ b.length ∧ (b.send script).queue = (b.skip n).trim := by
  obtain ⟨hresult, -, -, -, hqueue⟩ := send_eq_sendLoop b script
  have hs := sends_sendLoop hw 0 [] script
  have hn : ((b.sendCalls script).flatMap WriteCall.accepted).length = n := by
    rw [hresult, hs.result, Nat.zero_add] at h
    cases hfail : (b.sendCalls script).findSome? WriteCall.failure with
    | some f =>
      rw [hfail] at h
      cases h
    | none =>
      rw [hfail] at h
      cases h
      rfl
  constructor
  · rw [← hn, ← length_toList]
    exact hs.greedy.length_accepted_le
  · rw [hqueue n h, hs.queue, hn]

section
variable {b : ByteQueue}

theorem Ample.perform_of_isIdle (ha : b.Ample) {op : Op} (h : (b.perform op).1.isIdle = true) :
    (b.perform op).2 = b.trim := by
  cases op with
  | append bytes => cases h
  | truncate n => cases h
  | take n =>
    rw [ByteQueue.perform] at h
    split at h <;> cases h
  | readLine => cases h
  | receive script =>
    change (b.receive script).queue = b.trim
    cases hr : (b.receive script).result with
    | error e => simp [ByteQueue.perform, hr, Reply.isIdle] at h
    | ok receipt =>
      have hzero : receipt.received = 0 := by simpa [ByteQueue.perform, hr, Reply.isIdle] using h
      obtain ⟨hqueue, -⟩ | ⟨-, -, -, hbrought⟩ := ha.trim.receiveLoop_cases 0 script
      · exact hqueue
      · have := hbrought receipt hr
        omega
  | send script =>
    change (b.send script).queue = b.trim
    cases hr : (b.send script).result with
    | error e => simp [ByteQueue.perform, hr, Reply.isIdle] at h
    | ok n =>
      have hzero : n = 0 := by simpa [ByteQueue.perform, hr, Reply.isIdle] using h
      subst hzero
      exact (queue_send_of_ok ha.wellFormed hr).2

theorem Ample.run_of_isIdle (ha : b.Ample) {calls : List Op}
    (h : ∀ reply ∈ (b.run calls).1, reply.isIdle = true) :
    (b.run calls).2 = ByteQueue.trim^[calls.length] b := by
  induction calls generalizing b with
  | nil => rfl
  | cons op calls ih =>
    have hcons : (b.run (op :: calls)).1 = (b.perform op).1 :: ((b.perform op).2.run calls).1 := rfl
    rw [hcons, List.forall_mem_cons] at h
    have hop := ha.perform_of_isIdle h.1
    rw [hop] at h
    rw [List.length_cons, Function.iterate_succ_apply, ← ih ha.trim h.2, ← hop]
    rfl

end

/-- A memory that has just been halved is not made larger again for nothing. -/
theorem append_nil_of_slack {b : ByteQueue} (hw : b.WellFormed)
    (h : chunkSize < b.capacity - b.length) : b.append [] = b.trim := by
  have hrelieved := hw.relieved_trim
  rw [Relieved, if_pos h] at hrelieved
  obtain ⟨-, -, -, hloose⟩ := hrelieved
  have hsame : b.trim.loosen = b.trim := if_neg (by simp [hloose])
  have hfull := hw.trim.2
  have hkeep : b.trim.reserve 0 = b.trim := by rw [reserve, Nat.add_zero, capacityFor, if_pos hfull]
  rw [append, List.length_nil, hkeep, push, Array.append_empty, hsame]

/-- The memory is never as small as half a chunk. Where it is looked after, at the start of an
append and of a receive and at the end of a send that does not fail, slack of more than a chunk is
halved and nothing else changes, and the memory does not have to grow for that. Each call that moves
nothing and does not fail halves the slack again until it is no more than a chunk, and from then on
changes nothing at all. -/
theorem slack_given_back (ops : List Op) :
    let b := (run .empty ops).2
    chunkSize / 2 < b.capacity ∧
    (∀ bytes, ∃ b', Relieved b b' ∧
      b.append bytes = ((b'.reserve bytes.length).push bytes).loosen ∧
      (chunkSize < b.capacity - b.length → b.append [] = b')) ∧
    (∀ script, ∃ b', Relieved b b' ∧ b.receive script = receiveLoop b' 0 script) ∧
    (∀ script n, (b.send script).result = .ok n → Relieved (b.skip n) (b.send script).queue) ∧
    ∀ calls, (∀ reply ∈ (b.run calls).1, reply.isIdle = true) →
      let b' := (b.run calls).2
      let slack := b.capacity - b.length
      b'.capacity - b'.length
        ≤ max chunkSize ((slack + 2 ^ calls.length - 1) / 2 ^ calls.length) ∧
      b'.toList = b.toList ∧ (slack ≤ chunkSize → b' = b) := by
  intro b
  have ha : b.Ample := ample_empty.run ops
  have hw := ha.wellFormed
  refine ⟨ha.capacity, fun bytes => ⟨b.trim, hw.relieved_trim, rfl, append_nil_of_slack hw⟩,
    fun script => ⟨b.trim, hw.relieved_trim, rfl⟩, fun script n hn => ?_, fun calls hidle => ?_⟩
  · obtain ⟨hle, hqueue⟩ := queue_send_of_ok hw hn
    rw [hqueue]
    exact (hw.skip hle).relieved_trim
  · obtain ⟨hleft, hlist, hslack⟩ := slack_iterate_trim hw calls.length
    have hrun := ha.run_of_isIdle hidle
    rw [hleft.slack_eq, hw.slack_eq] at hslack
    intro b' slack
    have hb' : b' = trim^[calls.length] b := hrun
    rw [hb']
    refine ⟨hslack, hlist, fun hfew => ?_⟩
    have hkeep : b.trim = b := trim_of_slack_le (hw.slack_eq ▸ hfew)
    exact Function.iterate_fixed hkeep calls.length

end HttpOrigin.ByteQueue
