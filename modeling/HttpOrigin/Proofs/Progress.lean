import HttpOrigin.Proofs.Coherence
import HttpOrigin.Proofs.Dispatch

/-! Reading and serving come to an end by themselves. The two loops are taken apart into their
passes; a pass after which another one follows has taken a byte at least, so there are no more of
them than there are bytes. A body of no bytes is the one thing that could be read without taking
any, and a reader never waits for it. -/
namespace HttpOrigin

section
variable {α β : Type}

/-- Up to `n` passes of a loop. A pass goes on or comes to an end. -/
def passes (pass : α → α ⊕ β) : Nat → α → Option β
  | 0, _ => none
  | n + 1, a =>
    match pass a with
    | .inl next => passes pass n next
    | .inr done => some done

/-- What gets smaller with every pass is a bound for their number. -/
theorem passes_eq_some {pass : α → α ⊕ β} {f : α → β} (size : α → Nat) (P : α → Prop)
    (hf : ∀ a, f a = Sum.elim f id (pass a))
    (hless : ∀ a next, P a → pass a = .inl next → P next ∧ size next < size a)
    {n : Nat} {a : α} (ha : P a) (hn : size a < n) : passes pass n a = some (f a) := by
  induction n generalizing a with
  | zero => omega
  | succ n ih =>
    have hfa := hf a
    cases hpass : pass a with
    | inl next =>
      obtain ⟨hnext, hsize⟩ := hless a next ha hpass
      rw [hpass, Sum.elim_inl] at hfa
      simp only [passes, hpass]
      rw [ih hnext (by omega), hfa]
    | inr done =>
      rw [hpass, Sum.elim_inr, id] at hfa
      simp only [passes, hpass, hfa]

end

namespace Stage

def pass : Stage × Bytes → (Stage × Bytes) ⊕ Stop
  | (body r, input) => .inr (takeBody r input)
  | (head h, input) =>
    match Line.scan input with
    | .incomplete => .inr (.waiting (head h) input)
    | .tooLong => .inr (.refused (.badRequest .lineTooLong) input)
    | .line text rest =>
      match h.next (Text.decode text) with
      | .head h' => .inl (head h', rest)
      | .body r => .inl (body r, rest)
      | .request r => .inr (.request r rest)
      | .refused e => .inr (.refused e rest)

theorem advance_eq_pass (p : Stage × Bytes) :
    p.1.advance p.2 = Sum.elim (fun p => p.1.advance p.2) id (pass p) := by
  obtain ⟨s, input⟩ := p
  cases s with
  | body r => exact advance_body r input
  | head h =>
    rw [pass, advance_head]
    cases Line.scan input with
    | incomplete | tooLong => rfl
    | line text rest =>
      dsimp only
      cases h.next (Text.decode text) <;> rfl

/-- A pass that goes on has taken a line. -/
theorem taken_of_pass {s next : Stage} {input rest : Bytes}
    (h : pass (s, input) = .inl (next, rest)) :
    ∃ taken, taken ≠ [] ∧ input = taken ++ rest := by
  cases s with
  | body r => cases h
  | head hd =>
    rw [pass] at h
    cases hscan : Line.scan input with
    | incomplete | tooLong =>
      rw [hscan] at h
      cases h
    | line text rest' =>
      have hless := Line.length_rest_lt hscan
      obtain ⟨taken, rfl⟩ := Line.rest_suffix hscan
      have hrest : rest' = rest := by
        rw [hscan] at h
        dsimp only at h
        cases hnext : hd.next (Text.decode text) <;> rw [hnext] at h <;> cases h <;> rfl
      subst hrest
      refine ⟨taken, ?_, rfl⟩
      rintro rfl
      exact absurd hless (Nat.lt_irrefl _)

/-- Reading any bytes takes no more passes than there are bytes, and the last one. -/
theorem passes_pass (s : Stage) (input : Bytes) {n : Nat} (hn : input.length < n) :
    passes pass n (s, input) = some (s.advance input) := by
  refine passes_eq_some (fun p => p.2.length) (fun _ => True) advance_eq_pass ?_ trivial hn
  rintro ⟨s, input⟩ ⟨next, rest⟩ - h
  obtain ⟨taken, hne, rfl⟩ := taken_of_pass h
  have hpos := List.length_pos_iff.2 hne
  simp only [List.length_append, true_and]
  omega

/-! ### A body that is waited for -/

def Wanting : Stage → Prop
  | head _ => True
  | body r => 0 < r.contentLength.getD 0

theorem wanting_of_takeBody {r : Request} {s : Stage} {input rest : Bytes}
    (h : takeBody r input = .waiting s rest) : s.Wanting := by
  rw [takeBody] at h
  split at h
  · rename_i hshort
    cases h
    exact Nat.zero_lt_of_lt hshort
  · cases h

/-- A body of no bytes is never waited for, as it is there at once. -/
theorem wanting_of_waiting {s s' : Stage} {input rest : Bytes}
    (h : s.advance input = .waiting s' rest) : s'.Wanting := by
  fun_induction advance s input with
  | case1 input r => exact wanting_of_takeBody h
  | case2 input hd hscan =>
    cases h
    trivial
  | case3 => cases h
  | case4 input hd text rest' hscan h' hnext ih => exact ih h
  | case5 input hd text rest' hscan r hnext ih => exact ih h
  | case6 => cases h
  | case7 => cases h

/-- A request takes a byte at least. -/
theorem length_rest_lt {s : Stage} (hs : s.Wanting) {input rest : Bytes} {r : Request}
    (h : s.advance input = .request r rest) : rest.length < input.length := by
  cases s with
  | body begun =>
    rw [advance_body, takeBody] at h
    split at h
    · cases h
    · rename_i hlong
      have hpos : 0 < begun.contentLength.getD 0 := hs
      cases h
      rw [List.length_drop]
      omega
  | head hd =>
    have hless := length_rest_le h
    rw [weight] at hless
    omega

end Stage

namespace Reader

variable {σ : Type}

theorem wanting_parse (p : Reader σ) (c : Call σ) : (p.parse c).2.stage.Wanting := by
  obtain ⟨front, rest, -, -, hcases⟩ := p.parse_cases c
  obtain ⟨stage', ha, hparse⟩ | ⟨e, hparse⟩ | ⟨_, _, _, _, _, hparse⟩ := hcases
  · rw [hparse]
    exact Stage.wanting_of_waiting ha
  all_goals
    rw [hparse]
    trivial

theorem wanting_run {p : Reader σ} (hp : p.stage.Wanting) (acts : List (Act σ)) :
    (p.run acts).stage.Wanting := by
  induction acts generalizing p with
  | nil => exact hp
  | cons a acts ih =>
    cases a with
    | push bytes => exact ih (p := p.push bytes) hp
    | parse c => exact ih (p.wanting_parse c)

theorem length_input_lt {p : Reader σ} (hp : p.stage.Wanting) (c : Call σ)
    {outcome : Exchange.Outcome} (hr : (p.parse c).1.result = .ok outcome)
    (ho : outcome ≠ .pending) : (p.parse c).2.input.length < p.input.length := by
  obtain ⟨front, rest, -, hleft, hcases⟩ := p.parse_cases c
  obtain ⟨stage', ha, hparse⟩ | ⟨e, hparse⟩ | ⟨_, _, _, _, ha, hparse⟩ := hcases
  · rw [hparse] at hr
    cases hr
    exact absurd rfl ho
  · rw [hparse] at hr
    cases hr
  · have hless := Stage.length_rest_lt hp ha
    rw [hparse]
    dsimp only
    rwa [← ByteQueue.length_toList, hleft, ← ByteQueue.length_toList]

end Reader

namespace Client

variable {σ : Type}

instance (c : Client) : Decidable c.Serving :=
  inferInstanceAs (Decidable (c.phase = .idle ∧ c.closing = false))

def pass (h : Responder σ) (now : Timestamp) : Client × σ → (Client × σ) ⊕ (Client × σ)
  | (c, state) =>
  if c.Serving then
    let served := Exchange.next h now c.stage c.input c.outbox state
    let phase := if served.outbox.stream.isSome then Phase.streaming else .idle
    match served.result with
    | .ok .pending => .inr ({ c.adopt served with closing := c.peerDone }, served.state)
    | .ok .keepAlive => .inl ({ c.adopt served with phase }, served.state)
    | .ok .close => .inr ({ c.adopt served with phase, closing := true }, served.state)
    | .error e =>
      let output := served.outbox.output.truncate c.output.length
      .inr (({ c.adopt served with output }).refuse now (e.status?.getD .internalServerError),
        served.state)
  else .inr (c, state)

section
variable (h : Responder σ) (now : Timestamp)

theorem serve_eq_pass (p : Client × σ) :
    serve h now p.1 p.2 = Sum.elim (fun p => serve h now p.1 p.2) id (pass h now p) := by
  obtain ⟨c, state⟩ := p
  by_cases hc : c.Serving
  · rw [pass, if_pos hc]
    refine (serve_eq hc rfl).trans ?_
    dsimp only [outbox]
    generalize Exchange.next h now c.stage c.input ⟨c.output, c.stream⟩ state = served
    cases served.result with
    | error e => rfl
    | ok outcome => cases outcome <;> rfl
  · rw [pass, if_neg hc, serve_of_not_serving hc]
    rfl

variable {h now}

theorem serving_of_pass {p next : Client × σ} (hp : pass h now p = .inl next) : p.1.Serving := by
  obtain ⟨c, state⟩ := p
  by_contra hc
  rw [pass, if_neg hc] at hp
  cases hp

/-- A pass that goes on has answered a request. -/
theorem pass_eq_inl {c : Client} {state : σ} {next : Client × σ}
    (hp : pass h now (c, state) = .inl next) :
    ∃ r rest, c.stage.advance c.input.toList = .request r rest ∧
      (c.respond h now state r).result = .ok () ∧
      next = (c.answered rest (c.respond h now state r).outbox,
        (c.respond h now state r).state) := by
  have hc : c.Serving := serving_of_pass hp
  rw [pass, if_pos hc] at hp
  dsimp only at hp
  cases ha : c.stage.advance c.input.toList with
  | waiting stage rest =>
    rw [Exchange.next_of_waiting ha] at hp
    cases hp
  | refused e rest =>
    rw [Exchange.next_of_refused ha] at hp
    cases hp
  | request r rest =>
    cases hr : (c.respond h now state r).result with
    | error status =>
      rw [Exchange.next_of_declined ha hr] at hp
      cases hp
    | ok u =>
      rw [Exchange.next_of_answered ha hr] at hp
      cases hclose : r.asksToClose with
      | true =>
        rw [hclose] at hp
        cases hp
      | false =>
        rw [hclose] at hp
        cases hp
        exact ⟨r, rest, rfl, hr, rfl⟩

theorem length_input_answered_lt {c : Client} (hs : c.stage.Wanting) {r : Request} {rest : Bytes}
    (ha : c.stage.advance c.input.toList = .request r rest) (outbox : Outbox) :
    (c.answered rest outbox).input.length < c.input.length := by
  have hleft : (Exchange.leave c.input rest).toList = rest := Exchange.toList_leave_request ha
  have hless := Stage.length_rest_lt hs ha
  rwa [ByteQueue.length_toList, ← hleft, ByteQueue.length_toList] at hless

/-- Serving takes no more passes than there are bytes, and the last one. -/
theorem passes_serve {c : Client} (hs : c.stage.Wanting) (state : σ) {n : Nat}
    (hn : c.input.length < n) : passes (pass h now) n (c, state) = some (serve h now c state) := by
  refine passes_eq_some (f := fun p : Client × σ => serve h now p.1 p.2)
    (fun p => p.1.input.length) (fun p => p.1.stage.Wanting) (serve_eq_pass h now) ?_ hs hn
  rintro ⟨c, state⟩ next hs hp
  obtain ⟨r, rest, ha, -, rfl⟩ := pass_eq_inl hp
  exact ⟨trivial, length_input_answered_lt hs ha _⟩

end

theorem wanting_serve (h : Responder σ) (now : Timestamp) (c : Client) (state : σ)
    (hs : c.stage.Wanting) : (serve h now c state).1.stage.Wanting := by
  induction c, state using serve_induction h now with
  | stopped c state hc =>
    rw [serve_of_not_serving hc]
    exact hs
  | waiting c state stage rest hc ha =>
    rw [serve_of_waiting hc ha]
    exact Stage.wanting_of_waiting ha
  | refused c state e rest hc ha =>
    rw [serve_of_refused hc ha]
    trivial
  | declined c state r rest status hc ha hr =>
    rw [serve_of_declined hc ha hr]
    trivial
  | closing c state r rest hc ha hr hclose =>
    rw [serve_of_closing hc ha hr hclose]
    trivial
  | keeping c state r rest hc ha hr hkeep ih =>
    rw [serve_of_keeping hc ha hr hkeep]
    exact ih trivial

/-- Moving bytes reads nothing. -/
theorem stage_transfer (c : Client) (e : Event) : (c.transfer e).client.stage = c.stage := by
  cases e with
  | readable now script =>
    obtain ⟨-, ht⟩ | ⟨e, -, -, ht⟩ | ⟨receipt, -, -, ht⟩ := c.transferIn_cases script <;>
      rw [transfer, ht]
  | writable now script r =>
    obtain ⟨output, stream, phase, ht⟩ := c.transferOut_frame script r
    rw [transfer, ht]

theorem wanting_perform {h : Responder σ} {p : Client × σ} (hp : p.1.stage.Wanting)
    (call : Call) : (call.perform h p).1.stage.Wanting := by
  cases call with
  | refuse now status => trivial
  | event e =>
    have ht : (p.1.transfer e).client.stage.Wanting := by rwa [stage_transfer]
    rw [Call.perform, react_eq, Transfer.resume]
    cases (p.1.transfer e).serves with
    | true => exact wanting_serve h e.now _ p.2 ht
    | false => exact ht

theorem wanting_performAll {h : Responder σ} {p : Client × σ} (hp : p.1.stage.Wanting)
    (calls : List Call) : (performAll h p calls).1.stage.Wanting := by
  induction calls generalizing p with
  | nil => exact hp
  | cons call calls ih => exact ih (wanting_perform hp call)

/-- Every call of the responder has taken a byte at least. -/
theorem recorded_serve (h : Responder σ) (now : Timestamp) (c : Client) (s : σ × Responder.Calls)
    (hs : c.stage.Wanting) :
    ∃ more, (serve h.recorded now c s).2.2 = s.2 ++ more ∧ more.length ≤ c.input.length := by
  have hnoted : ∀ (c : Client) (s : σ × Responder.Calls) (r : Request),
      (c.respond h.recorded now s r).state.2 = s.2 ++ [(r.method, r)] := by
    intro c s r
    rw [respond, Responder.recorded, Responder.forMethod_noted]
    rfl
  induction c, s using serve_induction h.recorded now with
  | stopped c s hc =>
    rw [serve_of_not_serving hc]
    exact ⟨[], by simp, Nat.zero_le _⟩
  | waiting c s stage rest hc ha =>
    rw [serve_of_waiting hc ha]
    exact ⟨[], by simp, Nat.zero_le _⟩
  | refused c s e rest hc ha =>
    rw [serve_of_refused hc ha]
    exact ⟨[], by simp, Nat.zero_le _⟩
  | declined c s r rest status hc ha hr =>
    rw [serve_of_declined hc ha hr]
    exact ⟨_, hnoted c s r, Nat.zero_lt_of_lt (length_input_answered_lt hs ha ⟨.empty, none⟩)⟩
  | closing c s r rest hc ha hr hclose =>
    rw [serve_of_closing hc ha hr hclose]
    exact ⟨_, hnoted c s r, Nat.zero_lt_of_lt (length_input_answered_lt hs ha ⟨.empty, none⟩)⟩
  | keeping c s r rest hc ha hr hkeep ih =>
    rw [serve_of_keeping hc ha hr hkeep]
    obtain ⟨more, hmore, hlength⟩ := ih trivial
    have hless := length_input_answered_lt hs ha (c.respond h.recorded now s r).outbox
    refine ⟨(r.method, r) :: more, ?_, ?_⟩
    · rw [hmore, hnoted, List.append_assoc, List.singleton_append]
    · rw [List.length_cons]
      omega

end Client

/-- After any pushes and calls, whatever responders were called: every pass of a reader's loop that
is not the last takes a byte at least, so the next call comes to an end within one pass more than
there are bytes; and if it has answered a request, less is left to be read, also if only the body
was waited for. After any events and refusals of a connection, failed ones included, serving comes
to an end within as many passes, and no more calls of the responder are made than there are bytes.
-/
theorem reading_and_serving_end {σ : Type} (state : σ) (acts : List (Reader.Act σ))
    (call : Reader.Call σ) (h h' : Responder σ) (fd : Fd) (calls : List Client.Call)
    (e : Client.Event) (s : σ) :
    let p := ({ state } : Reader σ).run acts
    let c := ((Client.performAll h ({ fd }, state) calls).1.transfer e).client
    (∀ stage input next rest, Stage.pass (stage, input) = .inl (next, rest) →
      ∃ taken, taken ≠ [] ∧ input = taken ++ rest) ∧
    (∀ n, p.input.length < n → passes Stage.pass n (p.stage, p.input.toList)
      = some (p.stage.advance p.input.toList)) ∧
    (∀ outcome, (p.parse call).1.result = .ok outcome → outcome ≠ .pending →
      (p.parse call).2.input.length < p.input.length) ∧
    (∀ n, c.input.length < n →
      passes (Client.pass h' e.now) n (c, s) = some (c.serve h' e.now s)) ∧
    (c.serve h'.recorded e.now (s, [])).2.2.length ≤ c.input.length := by
  intro p c
  have hp : p.stage.Wanting := Reader.wanting_run (p := { state }) trivial acts
  have hc : c.stage.Wanting := by
    have hperformed : (Client.performAll h ({ fd }, state) calls).1.stage.Wanting :=
      Client.wanting_performAll (p := ({ fd }, state)) trivial calls
    rwa [← Client.stage_transfer _ e] at hperformed
  obtain ⟨more, hmore, hlength⟩ := Client.recorded_serve h' e.now c (s, []) hc
  refine ⟨fun stage input next rest => Stage.taken_of_pass, fun n hn => ?_,
    fun outcome => Reader.length_input_lt hp call, fun n => Client.passes_serve hc s, ?_⟩
  · rw [← ByteQueue.length_toList] at hn
    exact Stage.passes_pass p.stage p.input.toList hn
  · rwa [hmore]

end HttpOrigin
