import HttpOrigin.ByteQueue.Receive
import HttpOrigin.ByteQueue.Send
import HttpOrigin.Exchange
import HttpOrigin.Wire.Answer

/-! One client: its queues, how far its next request is read, and the file it is being sent.
Answers are sent in the order of the requests: while a file is streamed nothing is read, and the
requests that have arrived meanwhile are served when it is complete. -/
namespace HttpOrigin

inductive Phase where
  | idle
  /-- Sending a file; the input is left alone. -/
  | streaming
  deriving DecidableEq, Repr

structure Client where
  fd : Fd
  input : ByteQueue := .empty
  output : ByteQueue := .empty
  stage : Stage := .idle
  stream : Option FileStream := none
  phase : Phase := .idle
  /-- The connection closes once all output is sent. -/
  closing : Bool := false
  peerDone : Bool := false
  deriving DecidableEq

namespace Client

variable {σ : Type}

def awaitsInput (c : Client) : Bool := c.phase == .idle && !c.closing && !c.peerDone

def hasOutput (c : Client) : Bool := !c.output.isEmpty || c.stream.isSome

def isOver (c : Client) : Bool := c.closing && c.output.isEmpty && c.stream.isNone

/-- Queues the answer to an error behind the output and closes after it. A file that was to be sent
is not. -/
def refuse (c : Client) (now : Timestamp) (status : Status) : Client :=
  { c with
    output := c.output.appendAll (Answer.error now status)
    stream := none
    stage := .idle
    phase := .idle
    closing := true }

def adopt (c : Client) (s : Exchange.Served σ) : Client :=
  { c with
    stage := s.stage
    input := s.input
    output := s.outbox.output
    stream := s.outbox.stream }

/-- Serves the requests of the input until one closes the connection, fails or is followed by a
file, or the input runs out. What a failing request has queued is taken back. -/
def serve (h : Responder σ) (now : Timestamp) (c : Client) (state : σ) : Client × σ :=
  if c.phase = .idle ∧ c.closing = false then
    let served := Exchange.next h now c.stage c.input ⟨c.output, c.stream⟩ state
    match _hr : served.result with
    | .ok .pending => ({ c.adopt served with closing := c.peerDone }, served.state)
    | .ok .keepAlive =>
      serve h now
        { c.adopt served with phase := if served.outbox.stream.isSome then .streaming else .idle }
        served.state
    | .ok .close =>
      ({ c.adopt served with
          phase := if served.outbox.stream.isSome then .streaming else .idle, closing := true },
        served.state)
    | .error e =>
      let output := served.outbox.output.truncate c.output.length
      (({ c.adopt served with output }).refuse now (e.status?.getD .internalServerError),
        served.state)
  else (c, state)
termination_by 2 * c.input.length + c.stage.weight
decreasing_by exact Exchange.length_input_lt _hr (by decide)

structure Intake (σ : Type) where
  result : Except HttpError Unit
  client : Client
  unread : List Arrival
  state : σ

def intake (h : Responder σ) (now : Timestamp) (c : Client) (script : List Arrival)
    (state : σ) : Intake σ :=
  if c.awaitsInput then
    let received := c.input.receive script
    match received.result with
    | .error e =>
      ⟨.error (.ofTransport e), { c with input := received.queue }, received.unread, state⟩
    | .ok receipt =>
      let (c, state) :=
        serve h now { c with input := received.queue, peerDone := receipt.isEnd } state
      ⟨.ok (), c, received.unread, state⟩
  else ⟨.ok (), c, script, state⟩

structure Delivery (σ : Type) where
  result : Except HttpError Unit
  client : Client
  written : Bytes
  unused : List Acceptance
  readiness : Readiness
  state : σ

def advanceStream (h : Responder σ) (now : Timestamp) (c : Client) (stream : FileStream)
    (script : List Acceptance) (r : Readiness) (state : σ) : Delivery σ :=
  let step := stream.step r script
  match step.result with
  | .error e =>
    ⟨.error (.ofTransport e), { c with stream := some step.stream }, step.written, step.unused,
      step.readiness, state⟩
  | .ok .more =>
    ⟨.ok (), { c with stream := some step.stream }, step.written, step.unused, step.readiness,
      state⟩
  | .ok .complete =>
    let (c, state) := serve h now { c with stream := none, phase := .idle } state
    ⟨.ok (), c, step.written, step.unused, step.readiness, state⟩

def deliver (h : Responder σ) (now : Timestamp) (c : Client) (script : List Acceptance)
    (r : Readiness) (state : σ) : Delivery σ :=
  let sent := if c.output.isEmpty then ⟨.ok 0, c.output, [], script⟩ else c.output.send script
  let c := { c with output := sent.queue }
  match sent.result, c.stream with
  | .error e, _ => ⟨.error (.ofTransport e), c, sent.written, sent.unused, r, state⟩
  | .ok _, none => ⟨.ok (), c, sent.written, sent.unused, r, state⟩
  | .ok _, some stream =>
    if c.output.isEmpty then
      let moved := advanceStream h now c stream sent.unused r state
      { moved with written := sent.written ++ moved.written }
    else ⟨.ok (), c, sent.written, sent.unused, r, state⟩

def arm (c : Client) (r : Readiness) : Readiness :=
  let r := if c.awaitsInput then r.arm c.fd .read else r.disarm c.fd .read
  if c.hasOutput then r.arm c.fd .write else r.disarm c.fd .write

def release (c : Client) (r : Readiness) : Client × Readiness :=
  match c.stream with
  | some stream => ({ c with stream := none }, (stream.close r).2.2.discard c.fd)
  | none => (c, r.discard c.fd)

end Client

end HttpOrigin
