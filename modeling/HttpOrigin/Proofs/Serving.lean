import HttpOrigin.Client
import HttpOrigin.Proofs.Exchange

/-! The requests that `serve` goes through: one equation for each way an exchange can go, and the
induction along the answered requests. -/
namespace HttpOrigin.Client

variable {σ : Type}

def Serving (c : Client) : Prop := c.phase = .idle ∧ c.closing = false

def outbox (c : Client) : Outbox := ⟨c.output, c.stream⟩

def respond (h : Responder σ) (now : Timestamp) (c : Client) (state : σ) (r : Request) :
    Responded σ :=
  h.forMethod r.method now r c.outbox state

def answered (c : Client) (rest : Bytes) (outbox : Outbox) : Client :=
  { c with
    stage := .idle
    input := Exchange.leave c.input rest
    output := outbox.output
    stream := outbox.stream
    phase := if outbox.stream.isSome then .streaming else .idle }

section
variable {h : Responder σ} {now : Timestamp} {c : Client} {state : σ} {rest : Bytes} {r : Request}
  {served : Exchange.Served σ}

theorem serve_of_not_serving (hc : ¬ c.Serving) : serve h now c state = (c, state) := by
  rw [serve]
  exact if_neg hc

theorem serve_eq (hc : c.Serving)
    (hn : Exchange.next h now c.stage c.input ⟨c.output, c.stream⟩ state = served) :
    serve h now c state = match served.result with
      | .ok .pending => ({ c.adopt served with closing := c.peerDone }, served.state)
      | .ok .keepAlive =>
        serve h now
          { c.adopt served with phase := if served.outbox.stream.isSome then .streaming else .idle }
          served.state
      | .ok .close =>
        ({ c.adopt served with
            phase := if served.outbox.stream.isSome then .streaming else .idle, closing := true },
          served.state)
      | .error e =>
        (({ c.adopt served with
            output := served.outbox.output.truncate c.output.length }).refuse now
          (e.status?.getD .internalServerError), served.state) := by
  subst hn
  rw [serve]
  refine (if_pos hc).trans ?_
  dsimp only
  split <;> rename_i hr <;> exact hr ▸ rfl

theorem serve_of_waiting {stage : Stage} (hc : c.Serving)
    (ha : c.stage.advance c.input.toList = .waiting stage rest) :
    serve h now c state = ({ c with
      stage, input := Exchange.leave c.input rest, closing := c.peerDone }, state) :=
  serve_eq hc (Exchange.next_of_waiting ha)

theorem serve_of_refused {e : HttpError} (hc : c.Serving)
    (ha : c.stage.advance c.input.toList = .refused e rest) :
    serve h now c state = (({ c with
      input := Exchange.leave c.input rest
      output := c.output.truncate c.output.length }).refuse now
        (e.status?.getD .internalServerError), state) :=
  serve_eq hc (Exchange.next_of_refused ha)

theorem serve_of_declined {status : Status} (hc : c.Serving)
    (ha : c.stage.advance c.input.toList = .request r rest)
    (hr : (c.respond h now state r).result = .error status) :
    serve h now c state = (({ c with
      input := Exchange.leave c.input rest
      output := (c.respond h now state r).outbox.output.truncate c.output.length }).refuse now
        status, (c.respond h now state r).state) :=
  serve_eq hc (Exchange.next_of_declined ha hr)

theorem serve_of_closing (hc : c.Serving)
    (ha : c.stage.advance c.input.toList = .request r rest)
    (hr : (c.respond h now state r).result = .ok ()) (hclose : r.asksToClose = true) :
    serve h now c state = ({ c.answered rest (c.respond h now state r).outbox with
      closing := true }, (c.respond h now state r).state) := by
  have hn := Exchange.next_of_answered ha hr
  rw [if_pos hclose] at hn
  exact serve_eq hc hn

theorem serve_of_keeping (hc : c.Serving)
    (ha : c.stage.advance c.input.toList = .request r rest)
    (hr : (c.respond h now state r).result = .ok ()) (hkeep : ¬ r.asksToClose = true) :
    serve h now c state = serve h now (c.answered rest (c.respond h now state r).outbox)
      (c.respond h now state r).state := by
  have hn := Exchange.next_of_answered ha hr
  rw [if_neg hkeep] at hn
  exact serve_eq hc hn

end

theorem length_input_answered {c : Client} {r : Request} {rest : Bytes}
    (ha : c.stage.advance c.input.toList = .request r rest) (outbox : Outbox) :
    2 * (c.answered rest outbox).input.length + (c.answered rest outbox).stage.weight
      < 2 * c.input.length + c.stage.weight :=
  Exchange.length_leave_request ha

/-- Induction along the requests that are answered and followed by another exchange. -/
@[elab_as_elim]
theorem serve_induction (h : Responder σ) (now : Timestamp) {motive : Client → σ → Prop}
    (stopped : ∀ c state, ¬ c.Serving → motive c state)
    (waiting : ∀ c state stage rest, c.Serving →
      c.stage.advance c.input.toList = .waiting stage rest → motive c state)
    (refused : ∀ c state e rest, c.Serving →
      c.stage.advance c.input.toList = .refused e rest → motive c state)
    (declined : ∀ c state r rest status, c.Serving →
      c.stage.advance c.input.toList = .request r rest →
      (c.respond h now state r).result = .error status → motive c state)
    (closing : ∀ c state r rest, c.Serving → c.stage.advance c.input.toList = .request r rest →
      (c.respond h now state r).result = .ok () → r.asksToClose = true → motive c state)
    (keeping : ∀ c state r rest, c.Serving → c.stage.advance c.input.toList = .request r rest →
      (c.respond h now state r).result = .ok () → ¬ r.asksToClose = true →
      motive (c.answered rest (c.respond h now state r).outbox) (c.respond h now state r).state →
      motive c state)
    (c : Client) (state : σ) : motive c state := by
  by_cases hc : c.Serving
  · cases ha : c.stage.advance c.input.toList with
    | waiting stage rest => exact waiting c state stage rest hc ha
    | refused e rest => exact refused c state e rest hc ha
    | request r rest =>
      cases hr : (c.respond h now state r).result with
      | error status => exact declined c state r rest status hc ha hr
      | ok u =>
        by_cases hclose : r.asksToClose = true
        · exact closing c state r rest hc ha hr hclose
        · exact keeping c state r rest hc ha hr hclose
            (serve_induction h now stopped waiting refused declined closing keeping _ _)
  · exact stopped c state hc
termination_by 2 * c.input.length + c.stage.weight
decreasing_by exact length_input_answered ha _

/-- What every call of the responder keeps of its state is kept by all calls that are made. -/
theorem kept_serve {h : Responder σ} {P : σ → Prop}
    (hp : ∀ m now r outbox state, P state → P (h.forMethod m now r outbox state).state)
    (now : Timestamp) (c : Client) {state : σ} (hs : P state) : P (serve h now c state).2 := by
  induction c, state using serve_induction h now with
  | stopped c state hserving =>
    rw [serve_of_not_serving hserving]
    exact hs
  | waiting c state stage rest hserving ha =>
    rw [serve_of_waiting hserving ha]
    exact hs
  | refused c state e rest hserving ha =>
    rw [serve_of_refused hserving ha]
    exact hs
  | declined c state r rest status hserving ha hr =>
    rw [serve_of_declined hserving ha hr]
    exact hp r.method now r c.outbox state hs
  | closing c state r rest hserving ha hr hclose =>
    rw [serve_of_closing hserving ha hr hclose]
    exact hp r.method now r c.outbox state hs
  | keeping c state r rest hserving ha hr hkeep ih =>
    rw [serve_of_keeping hserving ha hr hkeep]
    exact ih (hp r.method now r c.outbox state hs)

end HttpOrigin.Client
