import HttpOrigin.ByteQueue.Receive
import HttpOrigin.ByteQueue.Send
import HttpOrigin.FileStream

/-! Moving bytes neither loses nor reorders any: what a receive adds to a queue is what it takes off
the front of the script, and what a send or a file writes is what it takes off its own front. -/
namespace HttpOrigin

namespace Arrival

def content : List Arrival → Bytes
  | [] => []
  | .fault _ :: rest => content rest
  | .bytes [] :: _ => []
  | .bytes (c :: cs) :: rest => c :: cs ++ content rest

def isSteady : Arrival → Bool
  | bytes _ => true
  | fault f => !f.isHard

def Steady (script : List Arrival) : Prop := ∀ a ∈ script, a.isSteady = true

section
variable {space : Nat} {script rest : List Arrival}

theorem content_bytes_cons (data : Bytes) (rest : List Arrival) (hd : data ≠ []) :
    content (.bytes data :: rest) = data ++ content rest := by
  cases data with
  | nil => exact absurd rfl hd
  | cons c cs => rfl

theorem Steady.tail {a : Arrival} (hs : Steady (a :: script)) : Steady script :=
  fun b hb => hs b (List.mem_cons_of_mem a hb)

/-- A read that brings bytes takes them off the front; one that brings none has met the end. -/
theorem content_of_read_ok {data : Bytes} (h : read space script = (.ok data, rest)) :
    data.length ≤ space ∧ (Steady script → Steady rest) ∧
      (data ≠ [] → content script = data ++ content rest) ∧
      (data = [] → 0 < space → content script = []) := by
  cases script with
  | nil => cases h
  | cons a script =>
    cases a with
    | fault f => cases h
    | bytes arrived =>
      rw [read] at h
      split at h
      · rename_i hfits
        cases h
        refine ⟨hfits, Steady.tail, content_bytes_cons _ _, ?_⟩
        rintro rfl -
        rfl
      · rename_i hlong
        have hleft : arrived.drop space ≠ [] := by
          intro hnil
          have := congrArg List.length hnil
          rw [List.length_drop, List.length_nil] at this
          omega
        have harrived : arrived ≠ [] := by
          rintro rfl
          exact hleft List.drop_nil
        cases h
        refine ⟨List.length_take_le space arrived, ?_, fun _ => ?_, fun hnil hs => ?_⟩
        · intro hs b hb
          obtain rfl | hb := List.mem_cons.1 hb
          · rfl
          · exact hs.tail b hb
        · rw [content_bytes_cons _ _ hleft, content_bytes_cons _ _ harrived, ← List.append_assoc,
            List.take_append_drop]
        · cases List.take_eq_nil_iff.1 hnil with
          | inl h0 => omega
          | inr h0 => exact absurd h0 harrived

theorem content_of_read_error {f : Fault} (h : read space script = (.error f, rest)) :
    content script = content rest ∧ (Steady script → Steady rest ∧ f.isHard = false) := by
  cases script with
  | nil =>
    cases h
    exact ⟨rfl, fun hs => ⟨hs, rfl⟩⟩
  | cons a script =>
    cases a with
    | fault f =>
      cases h
      refine ⟨rfl, fun hs => ⟨hs.tail, ?_⟩⟩
      simpa [isSteady] using hs (.fault f) (List.mem_cons_self ..)
    | bytes arrived =>
      rw [read] at h
      split at h <;> cases h

/-- A read leaves the end of the stream where it is, or meets it. -/
theorem end_of_read_ok {data : Bytes} (h : read space script = (.ok data, rest))
    (he : endOfStream ∈ script) : data = [] ∨ endOfStream ∈ rest := by
  cases script with
  | nil => cases h
  | cons a script =>
    cases a with
    | fault f => cases h
    | bytes arrived =>
      rw [read] at h
      split at h
      · cases h
        cases List.mem_cons.1 he with
        | inl heq =>
          cases heq
          exact .inl rfl
        | inr he => exact .inr he
      · rename_i hlong
        cases h
        cases List.mem_cons.1 he with
        | inl heq =>
          cases heq
          exact absurd (Nat.zero_le space) hlong
        | inr he => exact .inr (List.mem_cons_of_mem _ he)

theorem end_of_read_error {f : Fault} (h : read space script = (.error f, rest))
    (he : endOfStream ∈ script) : endOfStream ∈ rest := by
  cases script with
  | nil => cases he
  | cons a script =>
    cases a with
    | fault f =>
      cases h
      cases List.mem_cons.1 he with
      | inl heq => cases heq
      | inr he => exact he
    | bytes arrived =>
      rw [read] at h
      split at h <;> cases h

end

end Arrival

namespace Acceptance

def isGentle : Acceptance → Bool
  | upTo count => 0 < count
  | everything => true
  | fault f => !f.isHard

def Gentle (script : List Acceptance) : Prop := ∀ a ∈ script, a.isGentle = true

theorem Gentle.tail {a : Acceptance} {script : List Acceptance} (hg : Gentle (a :: script)) :
    Gentle script :=
  fun b hb => hg b (List.mem_cons_of_mem a hb)

/-- A gentle write of some bytes takes at least one, or has to be made again or later. -/
theorem taken_of_isGentle {a : Acceptance} (ha : a.isGentle = true) {offered : Nat}
    (ho : 0 < offered) :
    a.taken offered ≠ .ok 0 ∧ ∀ f, a.taken offered = .error f → f.isHard = false := by
  cases a with
  | upTo count =>
    have hcount : 0 < count := of_decide_eq_true ha
    constructor
    · intro hzero
      rw [taken, Except.ok.injEq] at hzero
      omega
    · intro f hf
      cases hf
  | everything =>
    constructor
    · intro hzero
      rw [taken, Except.ok.injEq] at hzero
      omega
    · intro f hf
      cases hf
  | fault f =>
    constructor
    · intro hzero
      cases hzero
    · intro f' hf
      cases hf
      simpa [isGentle] using ha

end Acceptance

namespace ByteQueue

theorem isEmpty_iff {b : ByteQueue} (hw : b.WellFormed) : b.isEmpty = true ↔ b.toList = [] := by
  rw [← List.length_eq_zero_iff, length_toList, isEmpty, beq_iff_eq, length]
  have := hw.1
  omega

/-! ### Receiving -/

@[simp] theorem toList_withRoom (b : ByteQueue) : b.withRoom.toList = b.toList := by
  unfold withRoom
  split <;> rfl

theorem WellFormed.withRoom {b : ByteQueue} (hw : b.WellFormed) : b.withRoom.WellFormed := by
  unfold ByteQueue.withRoom
  split
  · exact ⟨hw.1, Nat.le_trans hw.2 (Nat.le_of_lt (lt_enlarged b.capacity))⟩
  · exact hw

theorem free_withRoom_pos {b : ByteQueue} (hw : b.WellFormed) : 0 < b.withRoom.free := by
  have hle := hw.2
  have hlt := lt_enlarged b.capacity
  unfold withRoom
  split
  · simp only [free, grow, dataSize] at *
    omega
  · rename_i hne
    simp only [free, beq_iff_eq] at *
    omega

theorem WellFormed.push {b : ByteQueue} (hw : b.WellFormed) {bytes : Bytes}
    (hb : bytes.length ≤ b.free) : (b.push bytes).WellFormed := by
  have := hw.1
  have := hw.2
  simp only [WellFormed, ByteQueue.push, free, dataSize, Array.size_append,
    List.size_toArray] at *
  omega

/-- A receive puts the front of what was to arrive behind the queue. After the end of the stream
nothing more is to arrive. -/
theorem receiveLoop_conserves {b : ByteQueue} (hw : b.WellFormed) (n : Nat)
    (script : List Arrival) :
    (receiveLoop b n script).queue.WellFormed ∧
      (Arrival.Steady script → Arrival.Steady (receiveLoop b n script).unread ∧
        ∃ receipt, (receiveLoop b n script).result = .ok receipt) ∧
      b.toList ++ Arrival.content script = (receiveLoop b n script).queue.toList ++
        match (receiveLoop b n script).result with
        | .ok (.ended _) => []
        | _ => Arrival.content (receiveLoop b n script).unread := by
  fun_induction receiveLoop b n script with
  | case1 b n script rest h =>
    obtain ⟨-, hsteady, -, hend⟩ := Arrival.content_of_read_ok h
    refine ⟨hw.withRoom, fun hs => ⟨hsteady hs, _, rfl⟩, ?_⟩
    rw [hend rfl (free_withRoom_pos hw), toList_withRoom]
  | case2 b n script c cs rest h ih =>
    obtain ⟨hfits, hsteady, hcontent, -⟩ := Arrival.content_of_read_ok h
    obtain ⟨hleft, hok, hlist⟩ := ih (hw.withRoom.push hfits).loosen
    refine ⟨hleft, fun hs => hok (hsteady hs), ?_⟩
    rw [← hlist, hcontent (List.cons_ne_nil c cs), toList_loosen, toList_push hw.withRoom.1,
      toList_withRoom, List.append_assoc]
  | case3 b n script rest h =>
    obtain ⟨hcontent, hsteady⟩ := Arrival.content_of_read_error h
    refine ⟨hw.withRoom, fun hs => ⟨(hsteady hs).1, _, rfl⟩, ?_⟩
    rw [hcontent, toList_withRoom]
  | case4 b n script rest h ih =>
    obtain ⟨hcontent, hsteady⟩ := Arrival.content_of_read_error h
    obtain ⟨hleft, hok, hlist⟩ := ih hw.withRoom
    refine ⟨hleft, fun hs => hok (hsteady hs).1, ?_⟩
    rw [← hlist, hcontent, toList_withRoom]
  | case5 b n script f rest hblock hagain h =>
    obtain ⟨hcontent, hsteady⟩ := Arrival.content_of_read_error h
    refine ⟨hw.withRoom, fun hs => ?_, ?_⟩
    · have hsoft := (hsteady hs).2
      cases f <;> first | exact absurd rfl hblock | exact absurd rfl hagain | cases hsoft
    · rw [hcontent, toList_withRoom]

theorem receive_conserves {b : ByteQueue} (hw : b.WellFormed) (script : List Arrival) :
    (b.receive script).queue.WellFormed ∧
      (Arrival.Steady script → Arrival.Steady (b.receive script).unread ∧
        ∃ receipt, (b.receive script).result = .ok receipt) ∧
      b.toList ++ Arrival.content script = (b.receive script).queue.toList ++
        match (b.receive script).result with
        | .ok (.ended _) => []
        | _ => Arrival.content (b.receive script).unread := by
  have := receiveLoop_conserves hw.trim 0 script
  rwa [toList_trim] at this

theorem end_of_receiveLoop (b : ByteQueue) (n : Nat) {script : List Arrival}
    (he : .endOfStream ∈ script) :
    .endOfStream ∈ (receiveLoop b n script).unread ∨
      ∃ k, (receiveLoop b n script).result = .ok (.ended k) := by
  fun_induction receiveLoop b n script with
  | case1 b n script rest h => exact .inr ⟨n, rfl⟩
  | case2 b n script c cs rest h ih =>
    cases Arrival.end_of_read_ok h he with
    | inl hnil => cases hnil
    | inr hrest => exact ih hrest
  | case3 b n script rest h => exact .inl (Arrival.end_of_read_error h he)
  | case4 b n script rest h ih => exact ih (Arrival.end_of_read_error h he)
  | case5 b n script f rest hblock hagain h => exact .inl (Arrival.end_of_read_error h he)

/-- The end of the stream is still to come after a receive that did not meet it. -/
theorem end_of_receive (b : ByteQueue) {script : List Arrival} (he : .endOfStream ∈ script) :
    .endOfStream ∈ (b.receive script).unread ∨ ∃ k, (b.receive script).result = .ok (.ended k) :=
  end_of_receiveLoop b.trim 0 he

/-! ### Sending -/

theorem length_pos_of_not_isEmpty {b : ByteQueue} (hw : b.WellFormed) (he : ¬ b.isEmpty = true) :
    0 < b.length := by
  rw [isEmpty_iff hw, ← List.length_eq_zero_iff, length_toList] at he
  exact Nat.pos_of_ne_zero he

/-- A send takes what it writes off the front of the queue. -/
theorem sendLoop_conserves {b : ByteQueue} (hw : b.WellFormed) (n : Nat) (written : Bytes)
    (script : List Acceptance) :
    (sendLoop b n written script).queue.WellFormed ∧
      (Acceptance.Gentle script → Acceptance.Gentle (sendLoop b n written script).unused ∧
        ∃ n', (sendLoop b n written script).result = .ok n') ∧
      (sendLoop b n written script).written ++ (sendLoop b n written script).queue.toList
        = written ++ b.toList := by
  fun_induction sendLoop b n written script with
  | case1 script b n written hempty => exact ⟨hw, fun hg => ⟨hg, n, rfl⟩, rfl⟩
  | case2 b n written hfull => exact ⟨hw, fun hg => ⟨hg, n, rfl⟩, rfl⟩
  | case3 b n written hfull item rest htaken =>
    refine ⟨hw, fun hg => ?_, rfl⟩
    exact absurd htaken (Acceptance.taken_of_isGentle (hg item (List.mem_cons_self ..))
      (length_pos_of_not_isEmpty hw hfull)).1
  | case4 b n written hfull item rest k hk htaken ih =>
    obtain ⟨hleft, hgentle, hlist⟩ := ih (hw.skip (Acceptance.le_of_taken htaken))
    refine ⟨hleft, fun hg => hgentle hg.tail, ?_⟩
    rw [hlist, toList_skip, List.append_assoc, List.take_append_drop]
  | case5 b n written hfull item rest htaken =>
    exact ⟨hw, fun hg => ⟨hg.tail, n, rfl⟩, rfl⟩
  | case6 b n written hfull item rest htaken ih =>
    obtain ⟨hleft, hgentle, hlist⟩ := ih hw
    exact ⟨hleft, fun hg => hgentle hg.tail, hlist⟩
  | case7 b n written hfull item rest f hblock hagain htaken =>
    refine ⟨hw, fun hg => ?_, rfl⟩
    have hsoft := (Acceptance.taken_of_isGentle (hg item (List.mem_cons_self ..))
      (length_pos_of_not_isEmpty hw hfull)).2 f htaken
    cases f <;> first | exact absurd rfl hblock | exact absurd rfl hagain | cases hsoft

theorem send_conserves {b : ByteQueue} (hw : b.WellFormed) (script : List Acceptance) :
    (b.send script).queue.WellFormed ∧
      (Acceptance.Gentle script → Acceptance.Gentle (b.send script).unused ∧
        ∃ n, (b.send script).result = .ok n) ∧
      (b.send script).written ++ (b.send script).queue.toList = b.toList := by
  obtain ⟨hleft, hgentle, hlist⟩ := sendLoop_conserves hw 0 [] script
  unfold send
  dsimp only
  split
  · exact ⟨hleft.trim, hgentle, by rw [toList_trim]; exact hlist⟩
  · exact ⟨hleft, hgentle, hlist⟩

end ByteQueue

/-! ### Files -/

namespace FileStream

def remaining (s : FileStream) : Bytes := s.staged ++ s.source.elim [] Arrival.content

def Flowing (s : FileStream) : Prop := ∃ source, s.source = some source ∧ Arrival.Steady source

/-- Refused by a hard fault or by taking nothing, moved along, or kept for later. -/
theorem sendStaged_cases {s : FileStream} (hf : s.Flowing) (r : Readiness)
    {script : List Acceptance} (hp : 0 < s.pending) :
    (∃ e, (s.sendStaged r script).result = .error e ∧ (s.sendStaged r script).written = [] ∧
      ¬ Acceptance.Gentle script) ∨
    (s.sendStaged r script).result = .ok .more ∧ (s.sendStaged r script).stream.Flowing ∧
      (s.sendStaged r script).written ++ (s.sendStaged r script).stream.remaining
        = s.remaining := by
  obtain ⟨source, hsource, hsteady⟩ := hf
  have hkept : s.Flowing := ⟨source, hsource, hsteady⟩
  cases script with
  | nil => exact .inr ⟨rfl, hkept, rfl⟩
  | cons item rest =>
    cases htaken : item.taken s.pending with
    | error f =>
      cases hard : f.isHard with
      | true =>
        refine .inl ⟨.io f, ?_⟩
        simp only [sendStaged, Acceptance.write, htaken, hard, finish, if_true]
        refine ⟨trivial, trivial, fun hg => ?_⟩
        have hsoft := (Acceptance.taken_of_isGentle (hg item (List.mem_cons_self ..)) hp).2 f htaken
        rw [hard] at hsoft
        cases hsoft
      | false =>
        refine .inr ?_
        simp only [sendStaged, Acceptance.write, htaken, hard, Bool.false_eq_true, if_false]
        exact ⟨trivial, hkept, rfl⟩
    | ok n =>
      cases n with
      | zero =>
        refine .inl ⟨.io .nothingAccepted, ?_⟩
        simp only [sendStaged, Acceptance.write, htaken, finish]
        refine ⟨trivial, trivial, fun hg => ?_⟩
        exact absurd htaken (Acceptance.taken_of_isGentle (hg item (List.mem_cons_self ..)) hp).1
      | succ n =>
        refine .inr ?_
        simp only [sendStaged, Acceptance.write, htaken]
        refine ⟨trivial, ⟨source, hsource, hsteady⟩, ?_⟩
        rw [remaining, remaining, staged, staged, ← List.append_assoc, ← List.drop_drop,
          List.take_append_drop]

/-- Everything a step can do to a flowing file: fail and write nothing, write the front of what
remains, or complete with nothing left to send. -/
theorem step_cases {s : FileStream} (hf : s.Flowing) (r : Readiness) (script : List Acceptance) :
    (∃ e, (s.step r script).result = .error e ∧ (s.step r script).written = [] ∧
      ¬ Acceptance.Gentle script) ∨
    ((s.step r script).result = .ok .more ∧ (s.step r script).stream.Flowing ∧
      (s.step r script).written ++ (s.step r script).stream.remaining = s.remaining) ∨
    (s.step r script).result = .ok .complete ∧ (s.step r script).written = [] ∧
      s.remaining = [] := by
  obtain ⟨source, hsource, hsteady⟩ := hf
  by_cases hstaged : s.offset < s.chunk.length
  · have hstep : s.step r script = s.sendStaged r script := by
      simp only [step, hsource, hstaged, if_true]
    have hpending : 0 < s.pending := Nat.sub_pos_of_lt hstaged
    rw [hstep]
    exact (sendStaged_cases ⟨source, hsource, hsteady⟩ r hpending).imp_right .inl
  · have hnone : s.staged = [] := List.drop_eq_nil_of_le (Nat.le_of_not_lt hstaged)
    have hremaining : s.remaining = Arrival.content source := by
      rw [remaining, hnone, hsource]
      rfl
    rw [hremaining]
    cases hread : Arrival.read chunkSize source with
    | mk result rest =>
      cases result with
      | error f =>
        obtain ⟨hcontent, hsoft⟩ := Arrival.content_of_read_error hread
        obtain ⟨hrest, hsoft⟩ := hsoft hsteady
        refine .inr (.inl ?_)
        simp only [step, hsource, hstaged, if_false, hread, hsoft, Bool.false_eq_true]
        refine ⟨trivial, ⟨rest, rfl, hrest⟩, ?_⟩
        rw [hcontent]
        exact congrArg (· ++ Arrival.content rest) hnone
      | ok data =>
        obtain ⟨-, hrest, hcontent, hend⟩ := Arrival.content_of_read_ok hread
        cases data with
        | nil =>
          refine .inr (.inr ?_)
          simp only [step, hsource, hstaged, if_false, hread, finish]
          exact ⟨trivial, trivial, hend rfl (by decide)⟩
        | cons b bs =>
          let refilled : FileStream :=
            { s with source := some rest, chunk := b :: bs, offset := 0 }
          have hstep : s.step r script = refilled.sendStaged r script := by
            simp only [step, hsource, hstaged, if_false, hread, refilled]
          have hrefilled : refilled.remaining = Arrival.content source :=
            (hcontent (List.cons_ne_nil b bs)).symm
          rw [hstep, ← hrefilled]
          exact (sendStaged_cases (s := refilled) ⟨rest, rfl, hrest hsteady⟩ r
            (Nat.zero_lt_succ bs.length)).imp_right .inl

end FileStream

end HttpOrigin
