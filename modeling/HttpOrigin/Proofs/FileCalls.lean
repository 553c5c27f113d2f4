import HttpOrigin.Proofs.Conservation
import HttpOrigin.Proofs.Descriptors

/-! A file on its way to a socket, told by the calls that are made for it: reads of the file, writes
to the socket and the one that closes the file. A step is run again as a machine that keeps a log of
them, and the log of any steps and closes says what was read, what was sent and when it ended. -/
namespace HttpOrigin.FileStream

/-! ### Open and closed -/

section
variable {s : FileStream}

theorem source_of_closed (hs : s.isOpen = false) : s.source = none := by simpa [isOpen] using hs

theorem close_of_open (hs : s.isOpen = true) (r : Readiness) :
    s.close r = (true, { s with source := none }, r.disarm s.fd .read) := by
  obtain ⟨source, hsource⟩ := Option.isSome_iff_exists.1 hs
  rw [close, hsource]

theorem close_of_closed (hs : s.isOpen = false) (r : Readiness) : s.close r = (false, s, r) := by
  rw [close, source_of_closed hs]

end

/-! ### Calls -/

inductive Call where
  | read (answer : Except Fault Bytes)
  | write (offered : Bytes) (answer : Except Fault Nat)
  | close

namespace Call

def isRead : Call → Bool
  | read _ => true
  | write _ _ | close => false

def isWrite : Call → Bool
  | write _ _ => true
  | read _ | close => false

def isClose : Call → Bool
  | close => true
  | read _ | write _ _ => false

def received : Call → Bytes
  | read (.ok data) => data
  | read (.error _) | write _ _ | close => []

def sent : Call → Bytes
  | write offered (.ok n) => offered.take n
  | write _ (.error _) | read _ | close => []

/-- The file has to be closed after this: it has ended, a side failed, or nothing was taken. -/
def ends : Call → Bool
  | read (.ok data) => data.isEmpty
  | write _ (.ok n) => n == 0
  | read (.error f) | write _ (.error f) => f.isHard
  | close => false

end Call

/-! ### The machine -/

/-- All that the calls of a step touch, and the calls made so far. -/
structure Machine where
  stream : FileStream
  readiness : Readiness
  script : List Acceptance
  calls : List Call := []

namespace Machine

def read (m : Machine) (source : List Arrival) : Except Fault Bytes × Machine :=
  let (answer, rest) := Arrival.read chunkSize source
  (answer, { m with
    stream := { m.stream with source := some rest }, calls := m.calls ++ [.read answer] })

def stage (m : Machine) (data : Bytes) : Machine :=
  { m with stream := { m.stream with chunk := data, offset := 0 } }

def write (m : Machine) : Except Fault Nat × Machine :=
  let (answer, rest) := Acceptance.write m.stream.pending m.script
  (answer, { m with script := rest, calls := m.calls ++ [.write m.stream.staged answer] })

def advance (m : Machine) (n : Nat) : Machine :=
  { m with stream := { m.stream with offset := m.stream.offset + n } }

def close (m : Machine) : Machine :=
  let (closed, stream, readiness) := m.stream.close m.readiness
  { m with stream, readiness, calls := if closed then m.calls ++ [.close] else m.calls }

def send (m : Machine) : Except TransportError Progress × Machine :=
  match m.write with
  | (.ok 0, m) => (.error (.io .nothingAccepted), m.close)
  | (.ok n, m) => (.ok .more, m.advance n)
  | (.error f, m) => if f.isHard then (.error (.io f), m.close) else (.ok .more, m)

def step (m : Machine) : Except TransportError Progress × Machine :=
  match m.stream.source with
  | none => (.ok .complete, m)
  | some source =>
    if m.stream.offset < m.stream.chunk.length then m.send
    else match m.read source with
      | (.ok [], m) => (.ok .complete, m.close)
      | (.ok data, m) => (m.stage data).send
      | (.error f, m) => if f.isHard then (.error (.io f), m.close) else (.ok .more, m)

end Machine

def machine (s : FileStream) (r : Readiness) (script : List Acceptance) : Machine :=
  { stream := s, readiness := r, script }

def calls (s : FileStream) (r : Readiness) (script : List Acceptance) : List Call :=
  (s.machine r script).step.2.calls

def Machine.toStep (p : Except TransportError Progress × Machine) : Step :=
  ⟨p.1, p.2.stream, p.2.calls.flatMap Call.sent, p.2.script, p.2.readiness⟩

theorem sendStaged_eq_toStep {m : Machine} (hm : m.calls.flatMap Call.sent = []) :
    m.stream.sendStaged m.readiness m.script = Machine.toStep m.send := by
  rw [sendStaged, Machine.send, Machine.write]
  cases Acceptance.write m.stream.pending m.script with
  | mk answer rest =>
    cases answer with
    | ok n =>
      cases n with
      | zero =>
        cases hs : m.stream.source <;>
          simp [Machine.toStep, Machine.close, finish, FileStream.close, Call.sent, hm, hs]
      | succ n => simp [Machine.toStep, Machine.advance, Call.sent, hm]
    | error f =>
      cases hf : f.isHard with
      | true =>
        cases hs : m.stream.source <;>
          simp [Machine.toStep, Machine.close, finish, FileStream.close, Call.sent, hm, hs, hf]
      | false => simp [Machine.toStep, Call.sent, hm, hf]

/-- The machine does what the step does. -/
theorem step_eq_toStep (s : FileStream) (r : Readiness) (script : List Acceptance) :
    s.step r script = Machine.toStep (s.machine r script).step := by
  cases hs : s.source with
  | none => simp [step, Machine.step, Machine.toStep, machine, hs]
  | some source =>
    by_cases hstaged : s.offset < s.chunk.length
    · have hsend := sendStaged_eq_toStep (m := s.machine r script) rfl
      simpa [step, Machine.step, machine, hs, hstaged] using hsend
    · cases hread : Arrival.read chunkSize source with
      | mk answer rest =>
        cases answer with
        | ok data =>
          cases data with
          | nil =>
            simp [step, Machine.step, Machine.toStep, Machine.read, Machine.close, finish,
              FileStream.close, Call.sent, machine, hs, hstaged, hread]
          | cons b bs =>
            have hsend := sendStaged_eq_toStep
              (m := ((s.machine r script).read source).2.stage (b :: bs))
              (by simp [Machine.read, Machine.stage, machine, Call.sent])
            simpa [step, Machine.step, Machine.read, Machine.stage, machine, hs, hstaged, hread]
              using hsend
        | error f =>
          cases hf : f.isHard <;>
            simp [step, Machine.step, Machine.toStep, Machine.read, Machine.close, finish,
              FileStream.close, Call.sent, machine, hs, hstaged, hread, hf]

/-! ### What a step can do -/

inductive Loaded (s : FileStream) : List Call → FileStream → Prop where
  | kept : s.offset < s.chunk.length → Loaded s [] s
  | refilled {source : List Arrival} {data : Bytes} {rest : List Arrival} :
      s.source = some source → s.chunk.length ≤ s.offset →
      Arrival.read chunkSize source = (.ok data, rest) → data ≠ [] →
      Loaded s [.read (.ok data)] { s with source := some rest, chunk := data, offset := 0 }

def endOfRead : Except Fault Bytes → Except TransportError Progress
  | .ok _ => .ok .complete
  | .error f => .error (.io f)

/-- Everything a step of an open file can do: its calls, its result, and what is left of the file
and of the interest. -/
inductive Course (s : FileStream) (r : Readiness) :
    List Call → Except TransportError Progress → FileStream → Readiness → Prop where
  | waits {source : List Arrival} {f : Fault} {rest : List Arrival} :
      s.source = some source → s.chunk.length ≤ s.offset →
      Arrival.read chunkSize source = (.error f, rest) → f.isHard = false →
      Course s r [.read (.error f)] (.ok .more) { s with source := some rest } r
  | ended {source : List Arrival} {answer : Except Fault Bytes} {rest : List Arrival} :
      s.source = some source → s.chunk.length ≤ s.offset →
      Arrival.read chunkSize source = (answer, rest) → (Call.read answer).ends = true →
      Course s r [.read answer, .close] (endOfRead answer) { s with source := none }
        (r.disarm s.fd .read)
  | sends {before : List Call} {s' : FileStream} {answer : Except Fault Nat} {n : Nat} :
      Loaded s before s' → (Call.write s'.staged answer).ends = false → n ≤ s'.pending →
      (Call.write s'.staged answer).sent = s'.staged.take n →
      Course s r (before ++ [.write s'.staged answer]) (.ok .more)
        { s' with offset := s'.offset + n } r
  | refused {before : List Call} {s' : FileStream} {answer : Except Fault Nat}
      {e : TransportError} :
      Loaded s before s' → (Call.write s'.staged answer).ends = true →
      (Call.write s'.staged answer).sent = [] →
      Course s r (before ++ [.write s'.staged answer, .close]) (.error e)
        { s' with source := none } (r.disarm s.fd .read)

theorem Loaded.isOpen {s s' : FileStream} {before : List Call} (h : Loaded s before s')
    (hs : s.isOpen = true) : s'.isOpen = true := by
  cases h with
  | kept _ => exact hs
  | refilled _ _ _ _ => rfl

theorem Loaded.fd {s s' : FileStream} {before : List Call} (h : Loaded s before s') :
    s'.fd = s.fd := by
  cases h with
  | kept _ => rfl
  | refilled _ _ _ _ => rfl

theorem Machine.close_of_open {m : Machine} (hm : m.stream.isOpen = true) :
    m.close = { m with
      stream := { m.stream with source := none }
      readiness := m.readiness.disarm m.stream.fd .read
      calls := m.calls ++ [.close] } := by
  rw [Machine.close, FileStream.close_of_open hm]
  rfl

theorem le_of_write {offered n : Nat} {script rest : List Acceptance}
    (h : Acceptance.write offered script = (.ok n, rest)) : n ≤ offered := by
  cases script with
  | nil => cases h
  | cons item more =>
    rw [Acceptance.write, Prod.mk.injEq] at h
    exact Acceptance.le_of_taken h.1

theorem course_send {s : FileStream} {m : Machine} (hm : Loaded s m.calls m.stream)
    (hs : s.isOpen = true) :
    Course s m.readiness m.send.2.calls m.send.1 m.send.2.stream m.send.2.readiness := by
  cases hw : Acceptance.write m.stream.pending m.script with
  | mk answer rest =>
    let next : Machine :=
      { m with script := rest, calls := m.calls ++ [.write m.stream.staged answer] }
    have hopen : next.stream.isOpen = true := hm.isOpen hs
    cases answer with
    | ok n =>
      cases n with
      | zero =>
        have hsend : m.send = (.error (.io .nothingAccepted), next.close) := by
          simp [Machine.send, Machine.write, hw, next]
        rw [hsend, Machine.close_of_open hopen, hm.fd]
        simpa [next] using Course.refused hm rfl rfl
      | succ n =>
        have hsend : m.send = (.ok .more, next.advance (n + 1)) := by
          simp [Machine.send, Machine.write, hw, next]
        have htaken : n + 1 ≤ m.stream.pending := le_of_write hw
        rw [hsend]
        exact .sends hm rfl htaken rfl
    | error f =>
      cases hf : f.isHard with
      | true =>
        have hsend : m.send = (.error (.io f), next.close) := by
          simp [Machine.send, Machine.write, hw, hf, next]
        have hends : (Call.write m.stream.staged (.error f)).ends = true := hf
        rw [hsend, Machine.close_of_open hopen, hm.fd]
        simpa [next] using Course.refused hm hends rfl
      | false =>
        have hsend : m.send = (.ok .more, next) := by
          simp [Machine.send, Machine.write, hw, hf, next]
        rw [hsend]
        exact .sends (n := 0) hm hf (Nat.zero_le _) rfl

theorem course_machine {s : FileStream} (hs : s.isOpen = true) (r : Readiness)
    (script : List Acceptance) :
    let p := (s.machine r script).step
    Course s r p.2.calls p.1 p.2.stream p.2.readiness := by
  obtain ⟨source, hsource⟩ := Option.isSome_iff_exists.1 hs
  by_cases hstaged : s.offset < s.chunk.length
  · have hstep : (s.machine r script).step = (s.machine r script).send := by
      simp [Machine.step, machine, hsource, hstaged]
    rw [hstep]
    exact course_send (m := s.machine r script) (.kept hstaged) hs
  · have hsent : s.chunk.length ≤ s.offset := Nat.le_of_not_lt hstaged
    cases hread : Arrival.read chunkSize source with
    | mk answer rest =>
      let next : Machine := { s.machine r script with
        stream := { s with source := some rest }, calls := [.read answer] }
      have hcall : (s.machine r script).read source = (answer, next) := by
        simp [Machine.read, machine, hread, next]
      have hstep : (s.machine r script).step = match (answer, next) with
          | (.ok [], m) => (.ok .complete, m.close)
          | (.ok data, m) => (m.stage data).send
          | (.error f, m) => if f.isHard then (.error (.io f), m.close) else (.ok .more, m) := by
        rw [← hcall, Machine.step]
        simp [machine, hsource, hstaged]
      rw [hstep]
      cases answer with
      | ok data =>
        cases data with
        | nil =>
          dsimp only
          rw [Machine.close_of_open rfl]
          exact .ended hsource hsent hread rfl
        | cons b bs =>
          exact course_send (m := next.stage (b :: bs))
            (.refilled hsource hsent hread (List.cons_ne_nil b bs)) hs
      | error f =>
        cases hf : f.isHard with
        | true =>
          dsimp only
          rw [hf, if_pos rfl, Machine.close_of_open rfl]
          exact .ended hsource hsent hread hf
        | false =>
          dsimp only
          rw [hf]
          exact .waits hsource hsent hread hf

theorem course_step {s : FileStream} (hs : s.isOpen = true) (r : Readiness)
    (script : List Acceptance) :
    Course s r (s.calls r script) (s.step r script).result (s.step r script).stream
      (s.step r script).readiness := by
  rw [step_eq_toStep]
  exact course_machine hs r script

theorem step_of_closed {s : FileStream} (hs : s.isOpen = false) (r : Readiness)
    (script : List Acceptance) :
    s.calls r script = [] ∧ s.step r script = ⟨.ok .complete, s, [], script, r⟩ := by
  have hsource := source_of_closed hs
  constructor
  · simp [calls, Machine.step, machine, hsource]
  · simp [step, hsource]

section
variable {s s' : FileStream} {before made : List Call}

theorem Loaded.calls (h : Loaded s before s') :
    before.countP Call.isRead ≤ 1 ∧ before.countP Call.isWrite = 0 ∧
      before.countP Call.isClose = 0 ∧ before.any Call.ends = false := by
  cases h with
  | kept _ => simp
  | refilled _ _ _ hdata => simpa [Call.isRead, Call.isWrite, Call.isClose, Call.ends] using hdata

variable {r r' : Readiness} {result : Except TransportError Progress}

theorem Course.few (h : Course s r made result s' r') :
    made.countP Call.isRead ≤ 1 ∧ made.countP Call.isWrite ≤ 1 := by
  cases h with
  | waits _ _ _ _ => simp [List.countP_cons, Call.isRead, Call.isWrite]
  | ended _ _ _ _ => simp [List.countP_cons, Call.isRead, Call.isWrite]
  | sends hl _ _ _ =>
    obtain ⟨hreads, hwrites, -, -⟩ := hl.calls
    rw [List.countP_append, List.countP_append, hwrites]
    exact ⟨hreads, Nat.le_refl 1⟩
  | refused hl _ _ =>
    obtain ⟨hreads, hwrites, -, -⟩ := hl.calls
    rw [List.countP_append, List.countP_append, hwrites]
    exact ⟨hreads, Nat.le_refl 1⟩

/-- A step closes the file when a call ends it, and only then. -/
theorem Course.closes (h : Course s r made result s' r') (hs : s.isOpen = true) :
    s'.isOpen = (!made.any Call.ends) ∧
      made.countP Call.isClose = (if made.any Call.ends then 1 else 0) ∧
      r' = (if made.any Call.ends then r.disarm s.fd .read else r) := by
  cases h with
  | waits _ _ _ hsoft => simp [Call.ends, Call.isClose, hsoft, isOpen]
  | ended _ _ _ hends => simp [List.countP_cons, hends, Call.isClose, isOpen]
  | @sends before mid answer n hl hends _ _ =>
    obtain ⟨-, -, hcloses, hgoes⟩ := hl.calls
    have hnone : (before ++ [Call.write mid.staged answer]).any Call.ends = false := by
      rw [List.any_append, hgoes, List.any_cons, hends]
      rfl
    rw [hnone, List.countP_append, hcloses]
    exact ⟨hl.isOpen hs, rfl, rfl⟩
  | @refused before mid answer e hl hends _ =>
    obtain ⟨-, -, hcloses, hgoes⟩ := hl.calls
    have hsome : (before ++ [Call.write mid.staged answer, Call.close]).any Call.ends = true := by
      rw [List.any_append, hgoes, List.any_cons, hends]
      rfl
    rw [hsome, List.countP_append, hcloses]
    exact ⟨rfl, rfl, rfl⟩

theorem Course.isOpen_iff (h : Course s r made result s' r') (hs : s.isOpen = true) :
    s'.isOpen = true ↔ ∀ call ∈ made, call.ends = false := by
  rw [(h.closes hs).1]
  simp

theorem Course.fd (h : Course s r made result s' r') : s'.fd = s.fd := by
  cases h with
  | waits _ _ _ _ => rfl
  | ended _ _ _ _ => rfl
  | sends hl _ _ _ => exact hl.fd
  | refused hl _ _ => exact hl.fd

/-- As long as the file stays open there is more to come, and the interest stays. -/
theorem Course.more (h : Course s r made result s' r') (hopen : s'.isOpen = true) :
    result = .ok .more ∧ r' = r := by
  cases h with
  | waits _ _ _ _ => exact ⟨rfl, rfl⟩
  | ended _ _ _ _ => cases hopen
  | sends _ _ _ _ => exact ⟨rfl, rfl⟩
  | refused _ _ _ => cases hopen

/-- All is sent when a read brings nothing. -/
theorem Course.complete_iff (h : Course s r made result s' r') :
    result = .ok .complete ↔ made = [.read (.ok []), .close] := by
  cases h with
  | waits _ _ _ _ => simp
  | @ended source answer rest _ _ _ hends =>
    cases answer with
    | ok data => simpa [endOfRead, Call.ends] using hends
    | error f => simp [endOfRead]
  | sends hl _ _ _ =>
    cases hl with
    | kept _ => simp
    | refilled _ _ _ _ => simp
  | refused hl _ _ =>
    cases hl with
    | kept _ => simp
    | refilled _ _ _ _ => simp

end

/-! ### What was read and sent -/

/-- The calls made for a file so far, against what the file was when it was opened. -/
structure Faithful (source : List Arrival) (s : FileStream) (made : List Call) : Prop where
  offset : s.offset ≤ s.chunk.length
  chunk : s.chunk.length ≤ chunkSize
  conserved : s.isOpen = true →
    made.flatMap Call.sent ++ s.staged = made.flatMap Call.received
  content : ∀ rest, s.source = some rest →
    made.flatMap Call.received ++ Arrival.content rest = Arrival.content source

theorem faithful_ofSource (fd : Fd) (source : List Arrival) :
    Faithful source (ofSource fd source) [] where
  offset := Nat.le_refl 0
  chunk := Nat.zero_le chunkSize
  conserved := fun _ => rfl
  content := by
    rintro rest ⟨⟩
    rfl

section
variable {source : List Arrival} {s s' : FileStream} {made before : List Call}

theorem staged_eq_nil (h : s.chunk.length ≤ s.offset) : s.staged = [] := List.drop_eq_nil_of_le h

theorem Faithful.loaded (hf : Faithful source s made) (h : Loaded s before s')
    (hs : s.isOpen = true) : Faithful source s' (made ++ before) := by
  cases h with
  | kept _ =>
    rw [List.append_nil]
    exact hf
  | @refilled now data rest hsource hsent hread hdata =>
    obtain ⟨hfits, -, hcontent, -⟩ := Arrival.content_of_read_ok hread
    refine ⟨Nat.zero_le _, hfits, fun _ => ?_, ?_⟩
    · have hsame := hf.conserved hs
      rw [staged_eq_nil hsent, List.append_nil] at hsame
      rw [List.flatMap_append, List.flatMap_append, hsame]
      simp [Call.sent, Call.received, staged]
    · rintro rest' ⟨⟩
      rw [← hf.content now hsource, hcontent hdata, List.flatMap_append]
      simp [Call.received]

/-- A closed file owes nothing, whatever calls closed it. -/
theorem Faithful.closed (hf : Faithful source s made) (made' : List Call) :
    Faithful source { s with source := none } made' where
  offset := hf.offset
  chunk := hf.chunk
  conserved := fun hopen => by cases hopen
  content := fun _ hrest => by cases hrest

theorem Faithful.course {r r' : Readiness} {result : Except TransportError Progress}
    (hf : Faithful source s before) (h : Course s r made result s' r') (hs : s.isOpen = true) :
    Faithful source s' (before ++ made) := by
  cases h with
  | @waits now f rest hsource _ hread _ =>
    refine ⟨hf.offset, hf.chunk, fun _ => ?_, ?_⟩
    · rw [List.flatMap_append, List.flatMap_append]
      simpa [Call.sent, Call.received, staged] using hf.conserved hs
    · rintro rest' ⟨⟩
      rw [← hf.content now hsource, (Arrival.content_of_read_error hread).1, List.flatMap_append]
      simp [Call.received]
  | ended _ _ _ _ => exact hf.closed _
  | @sends loading mid answer n hl _ hn hsent =>
    have hmid := hf.loaded hl hs
    rw [← List.append_assoc]
    refine ⟨?_, hmid.chunk, fun _ => ?_, ?_⟩
    · have hoffset := hmid.offset
      rw [pending] at hn
      dsimp only
      omega
    · have hrest : staged { mid with offset := mid.offset + n } = mid.staged.drop n :=
        List.drop_drop.symm
      have hnothing : (before ++ loading ++ [Call.write mid.staged answer]).flatMap Call.received
          = (before ++ loading).flatMap Call.received := by
        simp [Call.received]
      rw [hnothing, ← hmid.conserved (hl.isOpen hs), hrest, List.flatMap_append,
        List.flatMap_singleton, hsent, List.append_assoc, List.take_append_drop]
    · intro rest hrest
      rw [← hmid.content rest hrest]
      simp [Call.received]
  | refused hl _ _ => exact (hf.loaded hl hs).closed _

/-- When a step finds all sent, all of the file was sent. -/
theorem Faithful.complete {r r' : Readiness} {result : Except TransportError Progress}
    (hf : Faithful source s before) (h : Course s r made result s' r') (hs : s.isOpen = true)
    (hdone : result = .ok .complete) :
    s.staged = [] ∧ before.flatMap Call.sent = Arrival.content source := by
  cases h with
  | waits _ _ _ _ => cases hdone
  | @ended now answer rest hsource hsent hread hends =>
    cases answer with
    | error f => cases hdone
    | ok data =>
      have hdata : data = [] := by simpa [Call.ends] using hends
      obtain ⟨-, -, -, hend⟩ := Arrival.content_of_read_ok hread
      have hsame := hf.conserved hs
      have hall := hf.content now hsource
      rw [staged_eq_nil hsent, List.append_nil] at hsame
      rw [hend hdata (by decide), List.append_nil] at hall
      exact ⟨staged_eq_nil hsent, hsame.trans hall⟩
  | sends _ _ _ _ => cases hdone
  | refused _ _ _ => cases hdone

end

/-! ### Histories -/

inductive Op where
  | step (script : List Acceptance) (r : Readiness)
  | close (r : Readiness)

def Op.isClose : Op → Bool
  | close _ => true
  | step _ _ => false

structure History where
  stream : FileStream
  calls : List Call := []

namespace History

def perform (w : History) : Op → History
  | .step script r =>
    ⟨(w.stream.step r script).stream, w.calls ++ w.stream.calls r script⟩
  | .close r =>
    let (closed, stream, _) := w.stream.close r
    ⟨stream, w.calls ++ if closed then [.close] else []⟩

def run (w : History) (ops : List Op) : History := ops.foldl perform w

theorem perform_of_closed {w : History} (hw : w.stream.isOpen = false) (op : Op) :
    w.perform op = w := by
  cases op with
  | step script r =>
    obtain ⟨hcalls, hstep⟩ := step_of_closed hw r script
    rw [perform, hcalls, hstep, List.append_nil]
  | close r => simp [perform, close_of_closed hw]

theorem perform_close_of_open {w : History} (hw : w.stream.isOpen = true) (r : Readiness) :
    w.perform (.close r) = ⟨{ w.stream with source := none }, w.calls ++ [.close]⟩ := by
  rw [perform, close_of_open hw]
  rfl

/-- The file is open as long as nothing has ended it, and it is closed once. -/
structure Ended (w : History) (ops : List Op) : Prop where
  isOpen : w.stream.isOpen = (!ops.any Op.isClose && !w.calls.any Call.ends)
  closes : w.calls.countP Call.isClose = if w.stream.isOpen then 0 else 1

theorem ended_ofSource (fd : Fd) (source : List Arrival) :
    Ended { stream := ofSource fd source } [] where
  isOpen := rfl
  closes := rfl

theorem Ended.perform {w : History} {ops : List Op} (he : w.Ended ops) (op : Op) :
    (w.perform op).Ended (ops ++ [op]) := by
  cases hopen : w.stream.isOpen with
  | false =>
    have hnone : (!(ops ++ [op]).any Op.isClose && !w.calls.any Call.ends) = false := by
      have := he.isOpen
      rw [hopen] at this
      rw [List.any_append, Bool.not_or, Bool.and_right_comm, ← this, Bool.false_and]
    rw [perform_of_closed hopen]
    exact ⟨hopen.trans hnone.symm, he.closes⟩
  | true =>
    have hgoes := he.isOpen
    have hcount := he.closes
    rw [hopen] at hgoes hcount
    obtain ⟨hops, hcalls⟩ := (Bool.and_eq_true_iff).1 hgoes.symm
    cases op with
    | step script r =>
      obtain ⟨hstill, hcloses, -⟩ := (course_step hopen r script).closes hopen
      constructor
      · rw [History.perform, hstill, List.any_append, List.any_append, Bool.not_or, Bool.not_or,
          hops, hcalls]
        simp [Op.isClose]
      · rw [History.perform, hstill, List.countP_append, hcount, hcloses]
        cases (w.stream.calls r script).any Call.ends <;> rfl
    | close r =>
      rw [perform_close_of_open hopen]
      constructor
      · simp [Op.isClose, FileStream.isOpen]
      · rw [List.countP_append, hcount]
        rfl

theorem Ended.run {w : History} {before : List Op} (he : w.Ended before) (ops : List Op) :
    (w.run ops).Ended (before ++ ops) := by
  induction ops generalizing w before with
  | nil =>
    rw [List.append_nil]
    exact he
  | cons op ops ih =>
    have := ih (he.perform op)
    rwa [List.append_assoc] at this

theorem faithful_perform {source : List Arrival} {w : History}
    (hf : Faithful source w.stream w.calls) (op : Op) :
    Faithful source (w.perform op).stream (w.perform op).calls := by
  cases hopen : w.stream.isOpen with
  | false =>
    rw [perform_of_closed hopen]
    exact hf
  | true =>
    cases op with
    | step script r => exact hf.course (course_step hopen r script) hopen
    | close r =>
      rw [perform_close_of_open hopen]
      exact hf.closed _

theorem faithful_run {source : List Arrival} {w : History}
    (hf : Faithful source w.stream w.calls) (ops : List Op) :
    Faithful source (w.run ops).stream (w.run ops).calls := by
  induction ops generalizing w with
  | nil => exact hf
  | cons op ops ih => exact ih (faithful_perform hf op)

theorem fd_perform (w : History) (op : Op) : (w.perform op).stream.fd = w.stream.fd := by
  cases hopen : w.stream.isOpen with
  | false => rw [perform_of_closed hopen]
  | true =>
    cases op with
    | step script r => exact (course_step hopen r script).fd
    | close r => rw [perform_close_of_open hopen]

theorem fd_run (w : History) (ops : List Op) : (w.run ops).stream.fd = w.stream.fd := by
  induction ops generalizing w with
  | nil => rfl
  | cons op ops ih => exact (ih (w.perform op)).trans (w.fd_perform op)

end History

/-! ### The interest -/

structure Releases (fd : Fd) (r r' : Readiness) : Prop where
  ready : r'.ready = r.ready
  others : ∀ gd : Fd, gd ≠ fd → r'.armed[gd]? = r.armed[gd]?
  own : ∀ kind, r'.isArmed fd kind = (r.isArmed fd kind && kind != .read)

theorem releases_disarm (fd : Fd) (r : Readiness) : Releases fd r (r.disarm fd .read) where
  ready := rfl
  others gd hg := Readiness.armed_disarm_of_ne gd .read (Ne.symm hg)
  own kind := by
    rw [Readiness.isArmed_disarm]
    cases kind <;> simp

theorem Course.closed {s s' : FileStream} {r r' : Readiness} {made : List Call}
    {result : Except TransportError Progress} (h : Course s r made result s' r')
    (hs : s.isOpen = true) (hclosed : s'.isOpen = false) :
    made.countP Call.isClose = 1 ∧ Releases s.fd r r' := by
  obtain ⟨hstill, hcloses, hreadiness⟩ := h.closes hs
  have hsome : made.any Call.ends = true := by simpa [hstill] using hclosed
  rw [hsome] at hcloses hreadiness
  rw [hreadiness]
  exact ⟨hcloses, releases_disarm s.fd r⟩

/-! ### The statement -/

/-- After any steps and closes of a file, the next one included: a step makes at most one read and
one write; as long as the file is open, what was sent and what is staged are what was read; a step
is complete at the end of the file and then all of it was sent; whatever ends the file closes it
there, once, and takes back its read interest alone; and then nothing more is done. -/
theorem sent_append_staged (fd : Fd) (source : List Arrival) (ops : List Op) :
    let w := History.run { stream := ofSource fd source } ops
    let s := w.stream
    (s.offset ≤ s.chunk.length ∧ s.chunk.length ≤ chunkSize) ∧
    (s.isOpen = true →
      w.calls.flatMap Call.sent ++ s.staged = w.calls.flatMap Call.received) ∧
    (s.isOpen = true ↔
      (∀ op ∈ ops, op.isClose = false) ∧ ∀ call ∈ w.calls, call.ends = false) ∧
    w.calls.countP Call.isClose = (if s.isOpen then 0 else 1) ∧
    (∀ r script,
      let made := s.calls r script
      let step := s.step r script
      made.countP Call.isRead ≤ 1 ∧ made.countP Call.isWrite ≤ 1 ∧
      step = Machine.toStep (s.machine r script).step ∧
      (s.isOpen = true →
        (step.stream.isOpen = true ↔ ∀ call ∈ made, call.ends = false) ∧
        (step.stream.isOpen = true → step.result = .ok .more ∧ step.readiness = r) ∧
        (step.stream.isOpen = false →
          made.countP Call.isClose = 1 ∧ Releases fd r step.readiness) ∧
        (step.result = .ok .complete ↔ made = [.read (.ok []), .close]) ∧
        (step.result = .ok .complete →
          s.staged = [] ∧ w.calls.flatMap Call.sent = Arrival.content source)) ∧
      (s.isOpen = false → made = [] ∧ step = ⟨.ok .complete, s, [], script, r⟩)) ∧
    ∀ r,
      (s.isOpen = true → (s.close r).1 = true ∧ (s.close r).2.1.isOpen = false ∧
        Releases fd r (s.close r).2.2) ∧
      (s.isOpen = false → s.close r = (false, s, r)) := by
  intro w s
  have hf : Faithful source s w.calls := History.faithful_run (faithful_ofSource fd source) ops
  have he : w.Ended ops := (History.ended_ofSource fd source).run ops
  have hfd : s.fd = fd := History.fd_run _ ops
  refine ⟨⟨hf.offset, hf.chunk⟩, hf.conserved, ?_, he.closes, ?_, ?_⟩
  · rw [he.isOpen]
    simp
  · intro r script made step
    have hmachine := step_eq_toStep s r script
    cases hopen : s.isOpen with
    | false =>
      obtain ⟨hmade, hstep⟩ : made = [] ∧ step = _ := step_of_closed hopen r script
      rw [hmade]
      exact ⟨Nat.zero_le 1, Nat.zero_le 1, hmachine, nofun, fun _ => ⟨rfl, hstep⟩⟩
    | true =>
      have hcourse : Course s r made step.result step.stream step.readiness :=
        course_step hopen r script
      have hclosed : step.stream.isOpen = false →
          made.countP Call.isClose = 1 ∧ Releases fd r step.readiness := by
        rw [← hfd]
        exact hcourse.closed hopen
      exact ⟨hcourse.few.1, hcourse.few.2, hmachine,
        fun _ => ⟨hcourse.isOpen_iff hopen, hcourse.more, hclosed, hcourse.complete_iff,
          hf.complete hcourse hopen⟩,
        nofun⟩
  · intro r
    constructor
    · intro hopen
      rw [close_of_open hopen, hfd]
      exact ⟨rfl, rfl, releases_disarm fd r⟩
    · intro hclosed
      exact close_of_closed hclosed r

end HttpOrigin.FileStream
