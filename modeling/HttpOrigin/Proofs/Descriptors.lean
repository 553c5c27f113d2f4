import HttpOrigin.Proofs.Coherence

/-! Descriptors and the interest in them. A file being sent is never armed, so closing it, which
takes its read interest back, leaves the interest of every other descriptor alone. -/
namespace HttpOrigin

namespace Readiness

variable (r : Readiness) (fd gd : Fd)

theorem armedFor_eq : r.armedFor fd = r.armed[fd]?.getD {} :=
  Std.TreeMap.getD_eq_getD_getElem?

theorem armed_setArmed (a : Interest) :
    (r.setArmed fd a).armed[gd]?
      = if fd = gd then (if a.isEmpty then none else some a) else r.armed[gd]? := by
  rw [setArmed]
  cases ha : a.isEmpty with
  | true => simp [Std.TreeMap.getElem?_erase]
  | false => simp [Std.TreeMap.getElem?_insert]

theorem armed_discard :
    (r.discard fd).armed[gd]? = if fd = gd then none else r.armed[gd]? := by
  simp [discard, Std.TreeMap.getElem?_erase]

variable {r fd}

theorem armed_arm_of_none (k : Direction) (h : r.armed[fd]? = none) :
    (r.arm fd k).armed[gd]?
      = if fd = gd then some (Interest.set {} true k) else r.armed[gd]? := by
  have hnothing : r.armedFor fd = {} := by rw [armedFor_eq, h, Option.getD_none]
  rw [arm, armed_setArmed, hnothing]
  cases k <;> rfl

/-- Disarming what has no entry changes nothing. -/
theorem armed_disarm_of_none (k : Direction) (h : r.armed[fd]? = none) :
    (r.disarm fd k).armed[gd]? = r.armed[gd]? := by
  have hnothing : r.armedFor fd = {} := by rw [armedFor_eq, h, Option.getD_none]
  have hempty : (Interest.set {} false k).isEmpty = true := by cases k <;> rfl
  rw [disarm, armed_setArmed, hnothing, hempty]
  by_cases hg : fd = gd
  · subst hg
    simp [h]
  · simp [hg]

theorem armed_arm_of_ne (k : Direction) (h : fd ≠ gd) :
    (r.arm fd k).armed[gd]? = r.armed[gd]? := by
  rw [arm, armed_setArmed, if_neg h]

theorem armed_disarm_of_ne (k : Direction) (h : fd ≠ gd) :
    (r.disarm fd k).armed[gd]? = r.armed[gd]? := by
  rw [disarm, armed_setArmed, if_neg h]

/-- Nothing has changed, but that the read interest in this descriptor may have been taken back. -/
def Disarms (r : Readiness) (fd? : Option Fd) (r' : Readiness) : Prop :=
  r' = r ∨ ∃ fd ∈ fd?, r' = r.disarm fd .read

theorem Disarms.armed {fd? : Option Fd} {r' : Readiness} (h : r.Disarms fd? r')
    (hnone : ∀ fd ∈ fd?, r.armed[fd]? = none) (gd : Fd) : r'.armed[gd]? = r.armed[gd]? := by
  obtain rfl | ⟨fd, hfd, rfl⟩ := h
  · rfl
  · exact armed_disarm_of_none gd .read (hnone fd hfd)

theorem Disarms.armed_eq_none {fd? : Option Fd} {r' : Readiness} {gd : Fd} (h : r.Disarms fd? r')
    (hnone : r.armed[gd]? = none) : r'.armed[gd]? = none := by
  obtain rfl | ⟨fd, -, rfl⟩ := h
  · exact hnone
  · by_cases hfd : fd = gd
    · subst hfd
      rw [armed_disarm_of_none fd .read hnone, hnone]
    · rw [armed_disarm_of_ne gd .read hfd, hnone]

end Readiness

namespace FileStream

def openFd? (s : FileStream) : Option Fd := s.source.map fun _ => s.fd

section
variable (s : FileStream) (r : Readiness) (script : List Acceptance)

theorem disarms_close : r.Disarms s.openFd? (s.close r).2.2 := by
  rw [close]
  cases hs : s.source with
  | none => exact .inl rfl
  | some source => exact .inr ⟨s.fd, by simp [openFd?, hs], rfl⟩

theorem disarms_finish (result : Except TransportError Progress) :
    r.Disarms s.openFd? (s.finish r script result).readiness := s.disarms_close r

theorem disarms_sendStaged : r.Disarms s.openFd? (s.sendStaged r script).readiness := by
  unfold sendStaged
  split
  · exact s.disarms_finish r _ _
  · exact .inl rfl
  · split
    · exact s.disarms_finish r _ _
    · exact .inl rfl

theorem disarms_step : r.Disarms s.openFd? (s.step r script).readiness := by
  cases hs : s.source with
  | none => exact .inl (by simp only [step, hs])
  | some source =>
    -- A read leaves the file open under its number.
    have hread : ∀ rest chunk offset,
        openFd? { s with source := some rest, chunk, offset } = s.openFd? := by
      intro rest chunk offset
      simp [openFd?, hs]
    simp only [step, hs]
    split
    · exact s.disarms_sendStaged r script
    · split
      · exact hread _ _ _ ▸ disarms_finish _ r script _
      · exact hread _ _ _ ▸ disarms_sendStaged _ r script
      · split
        · exact hread _ _ _ ▸ disarms_finish _ r script _
        · exact .inl rfl

end

end FileStream

namespace Client

variable {σ : Type}

def file? (c : Client) : Option Fd := c.stream.bind FileStream.openFd?

def Unarmed (c : Client) (r : Readiness) : Prop := ∀ fd ∈ c.file?, r.armed[fd]? = none

def interest (c : Client) : Interest := ⟨c.awaitsInput, c.hasOutput⟩

theorem Coherent.interest_isEmpty {c : Client} (hc : c.Coherent) :
    c.interest.isEmpty = c.isOver := by
  rw [Bool.eq_iff_iff, hc.isOver_iff]
  simp [interest, Interest.isEmpty]

/-! ### The socket's number -/

theorem fd_serve (h : Responder σ) (now : Timestamp) (c : Client) (state : σ) :
    (serve h now c state).1.fd = c.fd := by
  induction c, state using serve_induction h now with
  | stopped c state hs => rw [serve_of_not_serving hs]
  | waiting c state stage rest hs ha => rw [serve_of_waiting hs ha]
  | refused c state e rest hs ha =>
    rw [serve_of_refused hs ha]
    rfl
  | declined c state r rest status hs ha hr =>
    rw [serve_of_declined hs ha hr]
    rfl
  | closing c state r rest hs ha hr hclose =>
    rw [serve_of_closing hs ha hr hclose]
    rfl
  | keeping c state r rest hs ha hr hkeep ih =>
    rw [serve_of_keeping hs ha hr hkeep]
    exact ih

theorem fd_transfer (c : Client) (e : Event) : (c.transfer e).client.fd = c.fd := by
  cases e with
  | readable now script =>
    obtain ⟨-, ht⟩ | ⟨e, -, -, ht⟩ | ⟨receipt, -, -, ht⟩ := c.transferIn_cases script <;>
      rw [transfer, ht]
  | writable now script r =>
    obtain ⟨output, stream, phase, ht⟩ := c.transferOut_frame script r
    rw [transfer, ht]

theorem fd_react (h : Responder σ) (c : Client) (state : σ) (e : Event) :
    (c.react h state e).client.fd = c.fd := by
  rw [react_eq, Transfer.resume]
  cases (c.transfer e).serves with
  | true =>
    have hserve := fd_serve h e.now (c.transfer e).client state
    exact hserve.trans (c.fd_transfer e)
  | false => exact c.fd_transfer e

/-! ### Interest while bytes are sent -/

theorem readiness_advanceStream (h : Responder σ) (now : Timestamp) (c : Client)
    (stream : FileStream) (script : List Acceptance) (r : Readiness) (state : σ) :
    (advanceStream h now c stream script r state).readiness = (stream.step r script).readiness := by
  rw [advanceStream]
  cases (stream.step r script).result with
  | error e => rfl
  | ok progress => cases progress <;> rfl

theorem file?_of_stream {c : Client} {stream : FileStream} (hs : c.stream = some stream) :
    c.file? = stream.openFd? := by
  rw [file?, hs, Option.bind_some]

theorem disarms_deliver (h : Responder σ) (now : Timestamp) (c : Client)
    (script : List Acceptance) (r : Readiness) (state : σ) :
    r.Disarms c.file? (c.deliver h now script r state).readiness := by
  rw [deliver, ← flush]
  cases (c.flush script).result with
  | error e => exact .inl rfl
  | ok sent =>
    cases hs : c.stream with
    | none => exact .inl rfl
    | some stream =>
      cases hempty : (c.flush script).queue.isEmpty with
      | false => exact .inl (by simp)
      | true =>
        simp only [if_true, readiness_advanceStream, file?_of_stream hs]
        exact stream.disarms_step r _

theorem disarms_release (c : Client) (r : Readiness) :
    ∃ r', r.Disarms c.file? r' ∧ (c.release r).2 = r'.discard c.fd := by
  unfold release
  split
  · rename_i stream hs
    rw [file?_of_stream hs]
    exact ⟨_, stream.disarms_close r, rfl⟩
  · exact ⟨r, .inl rfl, rfl⟩

theorem armed_arm (c : Client) (r : Readiness) (gd : Fd) :
    (c.arm r).armed[gd]? =
      if c.fd = gd then (if c.interest.isEmpty then none else some c.interest)
      else r.armed[gd]? := by
  have hset : c.arm r = (r.setArmed c.fd ((r.armedFor c.fd).set c.awaitsInput .read)).setArmed c.fd
      (((r.armedFor c.fd).set c.awaitsInput .read).set c.hasOutput .write) := by
    rw [arm]
    cases c.awaitsInput <;> cases c.hasOutput <;> simp [Readiness.arm, Readiness.disarm]
  have hboth : ((r.armedFor c.fd).set c.awaitsInput .read).set c.hasOutput .write = c.interest :=
    rfl
  rw [hset, hboth, Readiness.armed_setArmed, Readiness.armed_setArmed]
  split <;> rfl

theorem armed_release {c : Client} {r : Readiness} (hc : c.Unarmed r) (gd : Fd) :
    (c.release r).2.armed[gd]? = if c.fd = gd then none else r.armed[gd]? := by
  obtain ⟨r', hr, hrelease⟩ := c.disarms_release r
  rw [hrelease, Readiness.armed_discard, hr.armed hc]

end Client

end HttpOrigin
