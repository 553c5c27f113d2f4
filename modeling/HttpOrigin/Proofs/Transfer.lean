import HttpOrigin.Proofs.Serving

/-! A readiness event of a connection taken apart: first bytes are moved, which no responder has a
part in, and then requests may be served. -/
namespace HttpOrigin.Client

variable {σ : Type}

inductive Event where
  | readable (now : Timestamp) (script : List Arrival)
  | writable (now : Timestamp) (script : List Acceptance) (r : Readiness)

def Event.now : Event → Timestamp
  | readable now _ | writable now _ _ => now

structure Reaction (σ : Type) where
  result : Except HttpError Unit
  client : Client
  written : Bytes
  state : σ

def react (h : Responder σ) (c : Client) (state : σ) : Event → Reaction σ
  | .readable now script =>
    let i := c.intake h now script state
    ⟨i.result, i.client, [], i.state⟩
  | .writable now script r =>
    let d := c.deliver h now script r state
    ⟨d.result, d.client, d.written, d.state⟩

structure Transfer where
  result : Except HttpError Unit
  client : Client
  written : Bytes
  serves : Bool

def Transfer.behind (written : Bytes) (t : Transfer) : Transfer :=
  { t with written := written ++ t.written }

def Transfer.resume (h : Responder σ) (now : Timestamp) (state : σ) (t : Transfer) : Reaction σ :=
  if t.serves then
    let served := serve h now t.client state
    ⟨t.result, served.1, t.written, served.2⟩
  else ⟨t.result, t.client, t.written, state⟩

def transferIn (c : Client) (script : List Arrival) : Transfer :=
  if c.awaitsInput then
    let received := c.input.receive script
    match received.result with
    | .error e => ⟨.error (.ofTransport e), { c with input := received.queue }, [], false⟩
    | .ok receipt =>
      ⟨.ok (), { c with input := received.queue, peerDone := receipt.isEnd }, [], true⟩
  else ⟨.ok (), c, [], false⟩

def transferStream (c : Client) (stream : FileStream) (script : List Acceptance) (r : Readiness) :
    Transfer :=
  let step := stream.step r script
  match step.result with
  | .error e =>
    ⟨.error (.ofTransport e), { c with stream := some step.stream }, step.written, false⟩
  | .ok .more => ⟨.ok (), { c with stream := some step.stream }, step.written, false⟩
  | .ok .complete => ⟨.ok (), { c with stream := none, phase := .idle }, step.written, true⟩

def flush (c : Client) (script : List Acceptance) : ByteQueue.Sent :=
  if c.output.isEmpty then ⟨.ok 0, c.output, [], script⟩ else c.output.send script

def transferOut (c : Client) (script : List Acceptance) (r : Readiness) : Transfer :=
  let sent := c.flush script
  let c := { c with output := sent.queue }
  match sent.result, c.stream with
  | .error e, _ => ⟨.error (.ofTransport e), c, sent.written, false⟩
  | .ok _, none => ⟨.ok (), c, sent.written, false⟩
  | .ok _, some stream =>
    if c.output.isEmpty then (c.transferStream stream sent.unused r).behind sent.written
    else ⟨.ok (), c, sent.written, false⟩

def transfer (c : Client) : Event → Transfer
  | .readable _ script => c.transferIn script
  | .writable _ script r => c.transferOut script r

theorem transferIn_cases (c : Client) (script : List Arrival) :
    (c.awaitsInput = false ∧ c.transferIn script = ⟨.ok (), c, [], false⟩) ∨
    (∃ e, c.awaitsInput = true ∧ (c.input.receive script).result = .error e ∧
      c.transferIn script = ⟨.error (.ofTransport e),
        { c with input := (c.input.receive script).queue }, [], false⟩) ∨
    ∃ receipt, c.awaitsInput = true ∧ (c.input.receive script).result = .ok receipt ∧
      c.transferIn script = ⟨.ok (), { c with
        input := (c.input.receive script).queue, peerDone := receipt.isEnd }, [], true⟩ := by
  unfold transferIn
  cases ha : c.awaitsInput with
  | false => simp
  | true => cases hr : (c.input.receive script).result <;> simp [hr]

theorem transferStream_cases (c : Client) (stream : FileStream) (script : List Acceptance)
    (r : Readiness) :
    (∃ e, (stream.step r script).result = .error e ∧ c.transferStream stream script r =
      ⟨.error (.ofTransport e), { c with stream := some (stream.step r script).stream },
        (stream.step r script).written, false⟩) ∨
    ((stream.step r script).result = .ok .more ∧ c.transferStream stream script r =
      ⟨.ok (), { c with stream := some (stream.step r script).stream },
        (stream.step r script).written, false⟩) ∨
    (stream.step r script).result = .ok .complete ∧ c.transferStream stream script r =
      ⟨.ok (), { c with stream := none, phase := .idle }, (stream.step r script).written,
        true⟩ := by
  unfold transferStream
  cases hs : (stream.step r script).result with
  | error e => simp [hs]
  | ok progress => cases progress <;> simp [hs]

/-- The file is moved along only when nothing stands before it. -/
theorem transferOut_cases (c : Client) (script : List Acceptance) (r : Readiness) :
    (∃ e, (c.flush script).result = .error e ∧ c.transferOut script r =
      ⟨.error (.ofTransport e), { c with output := (c.flush script).queue },
        (c.flush script).written, false⟩) ∨
    (∃ n, (c.flush script).result = .ok n ∧
      (c.stream = none ∨ (c.flush script).queue.isEmpty = false) ∧
      c.transferOut script r =
        ⟨.ok (), { c with output := (c.flush script).queue }, (c.flush script).written, false⟩) ∨
    ∃ n stream, (c.flush script).result = .ok n ∧ c.stream = some stream ∧
      (c.flush script).queue.isEmpty = true ∧
      c.transferOut script r =
        ({ c with output := (c.flush script).queue }.transferStream stream (c.flush script).unused
          r).behind (c.flush script).written := by
  unfold transferOut
  cases hf : (c.flush script).result with
  | error e => simp [hf]
  | ok sent =>
    cases hstream : c.stream with
    | none => simp [hf]
    | some stream => cases hempty : (c.flush script).queue.isEmpty <;> simp [hf, hempty]

/-- Sending leaves the input alone, how far it is read, and what is known of the peer. -/
theorem transferOut_frame (c : Client) (script : List Acceptance) (r : Readiness) :
    ∃ output stream phase, (c.transferOut script r).client = { c with output, stream, phase } := by
  obtain ⟨e, -, ht⟩ | ⟨n, -, -, ht⟩ | ⟨n, stream, -, -, -, ht⟩ := c.transferOut_cases script r
  · rw [ht]
    exact ⟨_, c.stream, c.phase, rfl⟩
  · rw [ht]
    exact ⟨_, c.stream, c.phase, rfl⟩
  · rw [ht, Transfer.behind]
    obtain ⟨e, -, hm⟩ | ⟨-, hm⟩ | ⟨-, hm⟩ := transferStream_cases
      { c with output := (c.flush script).queue } stream (c.flush script).unused r
    · rw [hm]
      exact ⟨_, _, c.phase, rfl⟩
    · rw [hm]
      exact ⟨_, _, c.phase, rfl⟩
    · rw [hm]
      exact ⟨_, none, .idle, rfl⟩

theorem deliver_stream (h : Responder σ) (now : Timestamp) (c : Client) (stream : FileStream)
    (script : List Acceptance) (r : Readiness) (state : σ) (written : Bytes) :
    let d := advanceStream h now c stream script r state
    (⟨d.result, d.client, written ++ d.written, d.state⟩ : Reaction σ)
      = ((c.transferStream stream script r).behind written).resume h now state := by
  cases hs : (stream.step r script).result with
  | error e => simp [advanceStream, transferStream, Transfer.behind, Transfer.resume, hs]
  | ok progress =>
    cases progress <;>
      simp [advanceStream, transferStream, Transfer.behind, Transfer.resume, hs]

theorem react_eq (h : Responder σ) (c : Client) (state : σ) (e : Event) :
    c.react h state e = (c.transfer e).resume h e.now state := by
  cases e with
  | readable now script =>
    by_cases ha : c.awaitsInput
    · cases hr : (c.input.receive script).result <;>
        simp [react, intake, transfer, transferIn, Transfer.resume, Event.now, ha, hr]
    · simp [react, intake, transfer, transferIn, Transfer.resume, ha]
  | writable now script r =>
    rw [react, transfer, transferOut, deliver, ← flush, Event.now]
    cases hf : (c.flush script).result with
    | error e => simp [Transfer.resume]
    | ok sent =>
      cases hstream : c.stream with
      | none => simp [Transfer.resume]
      | some stream =>
        by_cases hempty : (c.flush script).queue.isEmpty
        · simp [hempty, ← deliver_stream]
        · simp [Transfer.resume, hempty]

theorem kept_react {h : Responder σ} {P : σ → Prop}
    (hp : ∀ m now r outbox state, P state → P (h.forMethod m now r outbox state).state)
    (c : Client) {state : σ} (e : Event) (hs : P state) : P (c.react h state e).state := by
  rw [react_eq, Transfer.resume]
  split
  · exact kept_serve hp e.now _ hs
  · exact hs

end HttpOrigin.Client
