import HttpOrigin.Proofs.Serving
import HttpOrigin.Proofs.Transfer

/-! No connection gets stuck. Whatever responder answers and whatever the socket does, a connection
that waits for nothing is over, one that is over waits for nothing, and the end of the peer's bytes
is never forgotten. -/
namespace HttpOrigin.Client

variable {σ : Type}

/-- Everything that is done to a connection before it is released. -/
inductive Call where
  | event (e : Event)
  | refuse (now : Timestamp) (status : Status)

def Call.perform (h : Responder σ) (p : Client × σ) : Call → Client × σ
  | .event e =>
    let reaction := p.1.react h p.2 e
    (reaction.client, reaction.state)
  | .refuse now status => (p.1.refuse now status, p.2)

def performAll (h : Responder σ) (p : Client × σ) (calls : List Call) : Client × σ :=
  calls.foldl (Call.perform h) p

def Call.meetsEnd (c : Client) : Call → Bool
  | .event (.readable _ script) =>
    c.awaitsInput && match (c.input.receive script).result with
      | .ok receipt => receipt.isEnd
      | .error _ => false
  | _ => false

def endSeen (h : Responder σ) (p : Client × σ) : List Call → Bool
  | [] => false
  | call :: calls => call.meetsEnd p.1 || endSeen h (call.perform h p) calls

def Paired (c : Client) : Prop := c.phase = .streaming ↔ c.stream.isSome = true

structure Coherent (c : Client) : Prop where
  paired : c.Paired
  ending : c.peerDone = true → c.closing = true ∨ c.phase = .streaming

theorem coherent_fresh (fd : Fd) : Coherent { fd } where
  paired := by simp [Paired]
  ending := by simp

theorem Coherent.isOver_iff {c : Client} (hc : c.Coherent) :
    c.isOver = true ↔ c.awaitsInput = false ∧ c.hasOutput = false := by
  have hpair := hc.paired
  have hend := hc.ending
  unfold Paired at hpair
  cases hphase : c.phase <;> cases hclosing : c.closing <;> cases hdone : c.peerDone <;>
    cases hstream : c.stream <;> simp_all [isOver, awaitsInput, hasOutput]

theorem coherent_refuse (c : Client) (now : Timestamp) (status : Status) :
    (c.refuse now status).Coherent where
  paired := by simp [Paired, refuse]
  ending := fun _ => .inl rfl

theorem Paired.stream_none {c : Client} (hc : c.Paired) (hidle : c.phase = .idle) :
    c.stream = none := by
  rw [← Option.not_isSome_iff_eq_none]
  intro hs
  have := hc.2 hs
  rw [hidle] at this
  cases this

/-- The phase that goes with a file, or with none. -/
theorem paired_of_phase {c : Client}
    (hphase : c.phase = if c.stream.isSome then .streaming else .idle) : c.Paired := by
  cases hs : c.stream <;> simp [Paired, hphase, hs]

theorem coherent_serve (h : Responder σ) (now : Timestamp) (c : Client) (state : σ)
    (hc : c.Paired) : (serve h now c state).1.Coherent := by
  induction c, state using serve_induction h now with
  | stopped c state hs =>
    rw [serve_of_not_serving hs]
    refine ⟨hc, fun _ => ?_⟩
    cases hphase : c.phase with
    | streaming => exact .inr rfl
    | idle => exact .inl (by simpa [Serving, hphase] using hs)
  | waiting c state stage rest hs ha =>
    rw [serve_of_waiting hs ha]
    exact ⟨hc, .inl⟩
  | refused c state e rest hs ha =>
    rw [serve_of_refused hs ha]
    exact coherent_refuse _ _ _
  | declined c state r rest status hs ha hr =>
    rw [serve_of_declined hs ha hr]
    exact coherent_refuse _ _ _
  | closing c state r rest hs ha hr hclose =>
    rw [serve_of_closing hs ha hr hclose]
    exact ⟨paired_of_phase rfl, fun _ => .inl rfl⟩
  | keeping c state r rest hs ha hr hkeep ih =>
    rw [serve_of_keeping hs ha hr hkeep]
    exact ih (paired_of_phase rfl)

theorem paired_transferStream {c : Client} {stream : FileStream} (hc : c.Paired)
    (hs : c.stream = some stream) (script : List Acceptance) (r : Readiness) :
    (c.transferStream stream script r).client.Paired := by
  have hphase : c.phase = .streaming := hc.2 (by rw [hs, Option.isSome_some])
  obtain ⟨e, -, ht⟩ | ⟨-, ht⟩ | ⟨-, ht⟩ := c.transferStream_cases stream script r
  · rw [ht]
    exact ⟨fun _ => rfl, fun _ => hphase⟩
  · rw [ht]
    exact ⟨fun _ => rfl, fun _ => hphase⟩
  · rw [ht]
    simp [Paired]

theorem paired_transfer {c : Client} (hc : c.Paired) (e : Event) :
    (c.transfer e).client.Paired := by
  cases e with
  | readable now script =>
    obtain ⟨-, ht⟩ | ⟨e, -, -, ht⟩ | ⟨receipt, -, -, ht⟩ := c.transferIn_cases script <;>
      rw [transfer, ht] <;> exact hc
  | writable now script r =>
    obtain ⟨e, -, ht⟩ | ⟨n, -, -, ht⟩ | ⟨n, stream, -, hs, -, ht⟩ := c.transferOut_cases script r
    · rw [transfer, ht]
      exact hc
    · rw [transfer, ht]
      exact hc
    · rw [transfer, ht]
      exact paired_transferStream (c := { c with output := (c.flush script).queue }) hc hs _ _

/-- Bytes that move without requests being served change no more than input, output and file. -/
theorem flags_transfer {c : Client} {e : Event} (hq : (c.transfer e).serves = false) :
    (c.transfer e).client.peerDone = c.peerDone ∧ (c.transfer e).client.closing = c.closing ∧
      (c.transfer e).client.phase = c.phase := by
  cases e with
  | readable now script =>
    obtain ⟨-, ht⟩ | ⟨e, -, -, ht⟩ | ⟨receipt, -, -, ht⟩ := c.transferIn_cases script <;>
      simp_all [transfer]
  | writable now script r =>
    obtain ⟨e, -, ht⟩ | ⟨n, -, -, ht⟩ | ⟨n, stream, -, hs, -, ht⟩ := c.transferOut_cases script r
    · simp_all [transfer]
    · simp_all [transfer]
    · obtain ⟨e, -, hm⟩ | ⟨-, hm⟩ | ⟨-, hm⟩ := transferStream_cases
        { c with output := (c.flush script).queue } stream (c.flush script).unused r <;>
        simp_all [transfer, Transfer.behind]

theorem Coherent.react {c : Client} (hc : c.Coherent) (h : Responder σ) (state : σ) (e : Event) :
    (c.react h state e).client.Coherent := by
  have hpaired := paired_transfer hc.paired e
  rw [react_eq, Transfer.resume]
  cases hq : (c.transfer e).serves with
  | true => exact coherent_serve h e.now _ state hpaired
  | false =>
    obtain ⟨hdone, hclosing, hphase⟩ := flags_transfer hq
    refine ⟨hpaired, ?_⟩
    change (c.transfer e).client.peerDone = true → (c.transfer e).client.closing = true ∨
      (c.transfer e).client.phase = .streaming
    rw [hdone, hclosing, hphase]
    exact hc.ending

theorem Coherent.perform {p : Client × σ} (hc : p.1.Coherent) (h : Responder σ) (call : Call) :
    (call.perform h p).1.Coherent := by
  cases call with
  | event e => exact hc.react h p.2 e
  | refuse now status => exact coherent_refuse p.1 now status

theorem Coherent.performAll {p : Client × σ} (hc : p.1.Coherent) (h : Responder σ)
    (calls : List Call) : (Client.performAll h p calls).1.Coherent := by
  induction calls generalizing p with
  | nil => exact hc
  | cons call calls ih => exact ih (hc.perform h call)

/-! ### The end of the peer's bytes -/

theorem peerDone_serve (h : Responder σ) (now : Timestamp) (c : Client) (state : σ) :
    (serve h now c state).1.peerDone = c.peerDone := by
  induction c, state using serve_induction h now with
  | stopped c state hs => rw [serve_of_not_serving hs]
  | waiting c state stage rest hs ha => rw [serve_of_waiting hs ha]
  | refused c state e rest hs ha =>
    rw [serve_of_refused hs ha]
    rfl
  | declined c state r rest status hs ha hr =>
    rw [serve_of_declined hs ha hr]
    rfl
  | closing c state r rest hs ha hr hclose =>
    rw [serve_of_closing hs ha hr hclose]
    rfl
  | keeping c state r rest hs ha hr hkeep ih =>
    rw [serve_of_keeping hs ha hr hkeep]
    exact ih

theorem peerDone_react (h : Responder σ) (c : Client) (state : σ) (e : Event) :
    (c.react h state e).client.peerDone = (c.transfer e).client.peerDone := by
  rw [react_eq, Transfer.resume]
  cases (c.transfer e).serves with
  | true => exact peerDone_serve h e.now _ state
  | false => rfl

theorem peerDone_perform (h : Responder σ) (p : Client × σ) (call : Call) :
    (call.perform h p).1.peerDone = (p.1.peerDone || call.meetsEnd p.1) := by
  obtain ⟨c, state⟩ := p
  cases call with
  | refuse now status => exact (Bool.or_false _).symm
  | event e =>
    change (c.react h state e).client.peerDone = _
    rw [peerDone_react]
    cases e with
    | writable now script r =>
      obtain ⟨output, stream, phase, ht⟩ := c.transferOut_frame script r
      rw [transfer, ht]
      exact (Bool.or_false _).symm
    | readable now script =>
      rw [transfer, Call.meetsEnd]
      obtain ⟨ha, ht⟩ | ⟨e, ha, hr, ht⟩ | ⟨receipt, ha, hr, ht⟩ := c.transferIn_cases script
      · simp [ht, ha]
      · simp [ht, ha, hr]
      · have hopen : c.peerDone = false := by
          simp only [awaitsInput, Bool.and_eq_true, Bool.not_eq_true'] at ha
          exact ha.2
        simp [ht, ha, hr, hopen]

theorem peerDone_performAll (h : Responder σ) (p : Client × σ) (calls : List Call) :
    (performAll h p calls).1.peerDone = (p.1.peerDone || endSeen h p calls) := by
  induction calls generalizing p with
  | nil => exact (Bool.or_false _).symm
  | cons call calls ih =>
    change (performAll h (call.perform h p) calls).1.peerDone = _
    rw [ih, peerDone_perform, endSeen, Bool.or_assoc]

/-! ### What the socket is armed for -/

theorem isArmed_arm_read (c : Client) (r : Readiness) :
    (c.arm r).isArmed c.fd .read = c.awaitsInput := by
  unfold arm
  cases c.awaitsInput <;> cases c.hasOutput <;>
    simp [Readiness.isArmed_arm, Readiness.isArmed_disarm]

theorem isArmed_arm_write (c : Client) (r : Readiness) :
    (c.arm r).isArmed c.fd .write = c.hasOutput := by
  unfold arm
  cases c.hasOutput <;> simp [Readiness.isArmed_arm, Readiness.isArmed_disarm]

theorem isArmed_arm_eq_false_iff (c : Client) (r : Readiness) :
    (∀ kind, (c.arm r).isArmed c.fd kind = false) ↔
      c.awaitsInput = false ∧ c.hasOutput = false := by
  constructor
  · intro hnone
    rw [← c.isArmed_arm_read r, ← c.isArmed_arm_write r]
    exact ⟨hnone .read, hnone .write⟩
  · rintro ⟨hread, hwrite⟩ kind
    cases kind with
    | read => rw [isArmed_arm_read, hread]
    | write => rw [isArmed_arm_write, hwrite]

/-- After any calls, failed ones included: the phase is streaming exactly while there is a file, the
end of the peer's bytes leaves a file to send or a closing connection, and the connection is over
exactly when its socket is armed for nothing. -/
theorem over_iff_nothing_awaited (h : Responder σ) (fd : Fd) (state : σ) (calls : List Call) :
    let c := (performAll h ({ fd }, state) calls).1
    (c.phase = .streaming ↔ c.stream.isSome = true) ∧
      c.peerDone = endSeen h ({ fd }, state) calls ∧
      (c.peerDone = true → c.closing = true ∨ c.phase = .streaming) ∧
      (c.isOver = true ↔ c.awaitsInput = false ∧ c.hasOutput = false) ∧
      ∀ r, c.isOver = true ↔ ∀ kind, (c.arm r).isArmed c.fd kind = false := by
  intro c
  have hc : c.Coherent := (coherent_fresh fd).performAll h calls
  refine ⟨hc.paired, ?_, hc.ending, hc.isOver_iff, fun r => ?_⟩
  · exact (peerDone_performAll h _ calls).trans (Bool.false_or _)
  · rw [hc.isOver_iff, isArmed_arm_eq_false_iff]

end HttpOrigin.Client
