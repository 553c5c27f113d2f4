import HttpOrigin.Proofs.Owing
import HttpOrigin.Proofs.Replay

/-! However reads and writes are scheduled, a connection sends the same bytes and makes the same
calls: those of all bytes arriving at once. -/
namespace HttpOrigin.Client

variable {σ : Type}

/-! ### What is to come -/

/-- The bytes a connection will have sent when `more` has arrived and all is served, and the state
its responder will be in. -/
def outlook (h : Responder σ) (now : Timestamp) (c : Client) (more : Bytes) (state : σ) :
    Bytes × σ :=
  if c.closing then (c.owed, state)
  else
    let d := Exchange.replay h now c.stage (c.input.append more) state
    (c.owed ++ d.written, d.state)

section
variable {h : Responder σ} {now : Timestamp} {c : Client} {more : Bytes} {state : σ}

theorem outlook_of_closing (hc : c.closing = true) :
    outlook h now c more state = (c.owed, state) := if_pos hc

theorem outlook_of_open (hc : c.closing = false) {d : Exchange.Replayed σ}
    (hd : Exchange.replay h now c.stage (c.input.append more) state = d) :
    outlook h now c more state = (c.owed ++ d.written, d.state) := by
  subst hd
  rw [outlook, hc]
  rfl

/-- Reading goes on where it stops without the bytes to come. -/
theorem Sound.advance_append (hc : c.Sound) (more : Bytes) :
    c.stage.advance (c.input.append more).toList
      = (c.stage.advance c.input.toList).extend more := by
  rw [ByteQueue.toList_append hc.input, Stage.advance_append]

theorem Sound.respond_alone (hc : c.Sound) (hs : c.Serving) (hh : h.Blind) (now : Timestamp)
    (state : σ) (r : Request) :
    (c.respond h now state r).result = (h.alone now r state).result ∧
      (c.respond h now state r).state = (h.alone now r state).state ∧
      (c.respond h now state r).outbox.added c.output ++ (c.respond h now state r).outbox.file
        = (h.alone now r state).outbox.owed := by
  obtain ⟨hresult, hstate, hadded, hstream⟩ := hh.same r.method now r c.output state hc.output
  have halone := hh.appendOnly r.method now r .empty state ByteQueue.wellFormed_empty
  rw [respond, outbox, hc.paired.stream_none hs.1, Responder.alone]
  refine ⟨hresult, hstate, ?_⟩
  rw [halone.owed_eq, hadded, Outbox.file, hstream]
  rfl

end

/-- Serving requests changes nothing about what is to come. -/
theorem outlook_serve {h : Responder σ} (hh : h.Blind) (now : Timestamp) {c : Client} (more : Bytes)
    (state : σ) (hc : c.Sound) (hdone : c.peerDone = true → more = []) :
    outlook h now (serve h now c state).1 more (serve h now c state).2
      = outlook h now c more state := by
  induction c, state using serve_induction h now with
  | stopped c state hs => rw [serve_of_not_serving hs]
  | waiting c state stage rest hs ha =>
    have hread := hc.advance_append more
    rw [ha, Stage.Stop.extend] at hread
    have hstays := Stage.advance_waiting ha
    rw [serve_of_waiting hs ha]
    cases hpeer : c.peerDone with
    | true =>
      rw [hdone hpeer, List.append_nil, hstays] at hread
      rw [outlook_of_closing rfl, hdone hpeer,
        outlook_of_open hs.2 (Exchange.replay_of_waiting hread), List.append_nil]
      rfl
    | false =>
      have hwhole : stage.advance ((Exchange.leave c.input rest).append more).toList
          = c.stage.advance (c.input.append more).toList := by
        rw [ByteQueue.toList_append (Exchange.wellFormed_leave hc.input rest),
          Exchange.toList_leave_waiting ha, hread]
      rw [outlook_of_open hs.2 rfl, ← Exchange.replay_congr h now state hwhole]
      exact outlook_of_open rfl rfl
  | refused c state e rest hs ha =>
    have hread := hc.advance_append more
    rw [ha, Stage.Stop.extend] at hread
    have houtput := hc.output.truncate c.output.length
    rw [serve_of_refused hs ha, outlook_of_open hs.2 (Exchange.replay_of_refused hread),
      outlook_of_closing rfl, owed_refuse houtput, owed_of_stream_none (hc.paired.stream_none hs.1),
      ByteQueue.toList_truncate, ← ByteQueue.length_toList, List.take_length]
  | declined c state r rest status hs ha hr =>
    have hread := hc.advance_append more
    rw [ha, Stage.Stop.extend] at hread
    obtain ⟨hresult, hstate, -⟩ := hc.respond_alone hs hh now state r
    have he := hc.extends_respond hs hh.appendOnly now state r
    rw [serve_of_declined hs ha hr,
      outlook_of_open hs.2 (Exchange.replay_of_declined hread (hresult.symm.trans hr)),
      outlook_of_closing rfl, owed_declined he, owed_of_stream_none (hc.paired.stream_none hs.1),
      hstate]
  | closing c state r rest hs ha hr hclose =>
    have hread := hc.advance_append more
    rw [ha, Stage.Stop.extend] at hread
    obtain ⟨hresult, hstate, hadded⟩ := hc.respond_alone hs hh now state r
    have he := hc.extends_respond hs hh.appendOnly now state r
    rw [serve_of_closing hs ha hr hclose,
      outlook_of_open hs.2 (Exchange.replay_of_closing hread (hresult.symm.trans hr) hclose),
      outlook_of_closing rfl, owed_of_stream_none (hc.paired.stream_none hs.1), hstate, ← hadded]
    exact congrArg (·, _) (owed_answered he rest)
  | keeping c state r rest hs ha hr hkeep ih =>
    have hread := hc.advance_append more
    rw [ha, Stage.Stop.extend] at hread
    obtain ⟨hresult, hstate, hadded⟩ := hc.respond_alone hs hh now state r
    have he := hc.extends_respond hs hh.appendOnly now state r
    rw [serve_of_keeping hs ha hr hkeep, ih (hc.answered he rest) hdone,
      outlook_of_open hs.2 (Exchange.replay_of_keeping hread (hresult.symm.trans hr) hkeep)]
    have hleft : ((Exchange.leave c.input rest).append more).toList
        = (Exchange.leave (c.input.append more) (rest ++ more)).toList := by
      rw [ByteQueue.toList_append (Exchange.wellFormed_leave hc.input rest),
        Exchange.toList_leave_request ha, Exchange.toList_leave_request hread]
    rw [outlook_of_open (c := c.answered rest _) hs.2
      (Exchange.replay_congr h now _ (congrArg Stage.idle.advance hleft)), owed_answered he,
      hadded, hstate, owed_of_stream_none (hc.paired.stream_none hs.1), List.append_assoc]
    rfl

/-- Bytes that were paid are no longer owed. -/
theorem outlook_pay (h : Responder σ) (now : Timestamp) {c : Client} {output : ByteQueue}
    {stream : Option FileStream} {phase : Phase} {written : Bytes}
    (hp : written ++ owed { c with output, stream, phase } = c.owed) (more : Bytes) (state : σ) :
    (written ++ (outlook h now { c with output, stream, phase } more state).1,
      (outlook h now { c with output, stream, phase } more state).2)
      = outlook h now c more state := by
  cases Bool.eq_false_or_eq_true c.closing with
  | inl hc =>
    rw [outlook_of_closing hc, outlook_of_closing (c := { c with output, stream, phase }) hc, hp]
  | inr hc =>
    rw [outlook_of_open hc rfl, outlook_of_open (c := { c with output, stream, phase }) hc rfl,
      ← List.append_assoc, hp]

def filled (c : Client) (queue : ByteQueue) (receipt : ByteQueue.Receipt) : Client :=
  { c with input := queue, peerDone := receipt.isEnd }

/-- Bytes that were received are no longer to come. -/
theorem outlook_filled (h : Responder σ) (now : Timestamp) {c : Client} (hc : c.Sound)
    (hopen : c.closing = false) {script : List Arrival} {receipt : ByteQueue.Receipt}
    (hr : (c.input.receive script).result = .ok receipt) (state : σ) :
    outlook h now (c.filled (c.input.receive script).queue receipt)
        (if receipt.isEnd then [] else Arrival.content (c.input.receive script).unread) state
      = outlook h now c (Arrival.content script) state := by
  obtain ⟨hqueue, -, hbytes⟩ := ByteQueue.receive_conserves hc.input script
  have hsame : ((c.input.receive script).queue.append
      (if receipt.isEnd then [] else Arrival.content (c.input.receive script).unread)).toList
      = (c.input.append (Arrival.content script)).toList := by
    rw [ByteQueue.toList_append hqueue, ByteQueue.toList_append hc.input, hbytes, hr]
    cases receipt <;> rfl
  rw [outlook_of_open hopen rfl,
    ← Exchange.replay_congr h now state (congrArg c.stage.advance hsame)]
  exact outlook_of_open (c := c.filled (c.input.receive script).queue receipt) hopen rfl

def Settled (c : Client) : Prop :=
  c.Serving → c.stage.advance c.input.toList = .waiting c.stage c.input.toList

theorem settled_of_closing {c : Client} (hc : c.closing = true) : c.Settled := by
  rintro ⟨-, hopen⟩
  rw [hc] at hopen
  cases hopen

theorem settled_serve (h : Responder σ) (now : Timestamp) (c : Client) (state : σ) :
    (serve h now c state).1.Settled := by
  induction c, state using serve_induction h now with
  | stopped c state hs =>
    rw [serve_of_not_serving hs]
    exact fun hserving => absurd hserving hs
  | waiting c state stage rest hs ha =>
    rw [serve_of_waiting hs ha]
    intro _
    dsimp only
    rw [Exchange.toList_leave_waiting ha]
    exact Stage.advance_waiting ha
  | refused c state e rest hs ha =>
    rw [serve_of_refused hs ha]
    exact settled_of_closing rfl
  | declined c state r rest status hs ha hr =>
    rw [serve_of_declined hs ha hr]
    exact settled_of_closing rfl
  | closing c state r rest hs ha hr hclose =>
    rw [serve_of_closing hs ha hr hclose]
    exact settled_of_closing rfl
  | keeping c state r rest hs ha hr hkeep ih =>
    rw [serve_of_keeping hs ha hr hkeep]
    exact ih

/-! ### Schedules -/

inductive Turn where
  | read
  | write (script : List Acceptance) (r : Readiness)

def Turn.Gentle : Turn → Prop
  | read => True
  | write script _ => Acceptance.Gentle script

structure World (σ : Type) where
  client : Client
  state : σ
  unread : List Arrival
  written : Bytes := []

namespace World

def step (h : Responder σ) (now : Timestamp) (w : World σ) : Turn → World σ
  | .read =>
    let i := w.client.intake h now w.unread w.state
    { w with client := i.client, state := i.state, unread := i.unread }
  | .write script r =>
    let d := w.client.deliver h now script r w.state
    { w with client := d.client, state := d.state, written := w.written ++ d.written }

def run (h : Responder σ) (now : Timestamp) (w : World σ) (turns : List Turn) : World σ :=
  turns.foldl (step h now) w

def coming (w : World σ) : Bytes :=
  if w.client.peerDone then [] else Arrival.content w.unread

def outcome (h : Responder σ) (now : Timestamp) (w : World σ) : Bytes × σ :=
  let p := outlook h now w.client w.coming w.state
  (w.written ++ p.1, p.2)

structure Regular (w : World σ) : Prop where
  sound : w.client.Sound
  coherent : w.client.Coherent
  settled : w.client.Settled
  steady : Arrival.Steady w.unread

theorem regular_fresh (fd : Fd) (state : σ) {script : List Arrival} (hs : Arrival.Steady script) :
    Regular { client := { fd }, state, unread := script } where
  sound := sound_fresh fd
  coherent := coherent_fresh fd
  settled := fun _ => Stage.advance_nil
  steady := hs

theorem outcome_of_nothing_written (h : Responder σ) (now : Timestamp) {w : World σ} {more : Bytes}
    (hw : w.written = []) (hm : w.coming = more) :
    w.outcome h now = outlook h now w.client more w.state := by
  rw [outcome, hw, hm]
  rfl

theorem outcome_fresh (h : Responder σ) (now : Timestamp) (fd : Fd) (state : σ)
    (script : List Arrival) :
    outcome h now { client := { fd }, state, unread := script } =
      ((Exchange.atOnce h now (Arrival.content script) state).written,
        (Exchange.atOnce h now (Arrival.content script) state).state) := by
  have howed : owed { fd } = [] := owed_of_stream_none rfl
  have hopen : outlook h now { fd } (Arrival.content script) state = _ := outlook_of_open rfl rfl
  rw [howed, List.nil_append] at hopen
  exact (outcome_of_nothing_written h now rfl rfl).trans hopen

/-- A read does nothing, or takes bytes and serves. -/
theorem step_read_cases (h : Responder σ) (now : Timestamp) {w : World σ}
    (hs : Arrival.Steady w.unread) (hw : w.client.input.WellFormed) :
    w.step h now .read = w ∨
    ∃ receipt, w.client.awaitsInput = true ∧
      (w.client.input.receive w.unread).result = .ok receipt ∧
      w.step h now .read =
        let served := serve h now
          (w.client.filled (w.client.input.receive w.unread).queue receipt) w.state
        { w with
          client := served.1
          state := served.2
          unread := (w.client.input.receive w.unread).unread } := by
  cases ha : w.client.awaitsInput with
  | false =>
    refine .inl ?_
    simp only [step, intake, ha, Bool.false_eq_true, if_false]
  | true =>
    obtain ⟨-, receipt, hr⟩ := (ByteQueue.receive_conserves hw w.unread).2.1 hs
    refine .inr ⟨receipt, rfl, hr, ?_⟩
    simp only [step, intake, ha, hr, if_true, filled]

theorem Regular.step_read {h : Responder σ} (hh : h.Blind) (now : Timestamp) {w : World σ}
    (hw : w.Regular) :
    (w.step h now .read).Regular ∧ (w.step h now .read).outcome h now = w.outcome h now := by
  obtain hsame | ⟨receipt, ha, hr, hstep⟩ := step_read_cases h now hw.steady hw.sound.input
  · rw [hsame]
    exact ⟨hw, rfl⟩
  · obtain ⟨hqueue, hsteady, -⟩ := ByteQueue.receive_conserves hw.sound.input w.unread
    obtain ⟨⟨-, hopen⟩, hpeer⟩ : (w.client.phase = .idle ∧ w.client.closing = false) ∧
        w.client.peerDone = false := by
      simpa [awaitsInput] using ha
    have hfilled := outlook_filled h now hw.sound hopen hr w.state
    have hsound : (w.client.filled (w.client.input.receive w.unread).queue receipt).Sound :=
      ⟨hw.sound.paired, hqueue, hw.sound.output, hw.sound.flowing⟩
    have hserved := outlook_serve hh now
      (if receipt.isEnd then [] else Arrival.content (w.client.input.receive w.unread).unread)
      w.state hsound (fun hdone => if_pos hdone)
    have hcoming : w.coming = Arrival.content w.unread := by
      rw [coming, hpeer]
      rfl
    rw [hstep]
    refine ⟨⟨hsound.serve hh.appendOnly now w.state, coherent_serve h now _ w.state hsound.paired,
      settled_serve h now _ w.state, (hsteady hw.steady).1⟩, ?_⟩
    rw [outcome, outcome, hcoming, ← hfilled, ← hserved, coming]
    dsimp only
    rw [peerDone_serve]
    rfl

/-- A gentle write pays some of what is owed, and serves if a file is complete. -/
theorem Regular.step_write_cases (h : Responder σ) (now : Timestamp) {w : World σ} (hw : w.Regular)
    {script : List Acceptance} (hg : Acceptance.Gentle script) (r : Readiness) :
    ∃ output stream phase paid,
      let c := { w.client with output, stream, phase }
      c.Sound ∧ paid ++ c.owed = w.client.owed ∧
      ((phase = w.client.phase ∧
        w.step h now (.write script r) = { w with client := c, written := w.written ++ paid }) ∨
      w.step h now (.write script r) = { w with
        client := (serve h now c w.state).1
        state := (serve h now c w.state).2
        written := w.written ++ paid }) := by
  obtain ⟨hpays, hok⟩ := hw.sound.transferOut script r
  obtain ⟨output, stream, phase, ht⟩ := w.client.transferOut_frame script r
  have hflags := flags_transfer (c := w.client) (e := .writable now script r)
  rw [transfer, ht] at hflags
  have hstep : w.step h now (.write script r) =
      let t := (w.client.transferOut script r).resume h now w.state
      { w with client := t.client, state := t.state, written := w.written ++ t.written } := by
    have hreact := react_eq h w.client w.state (.writable now script r)
    rw [transfer, Event.now] at hreact
    rw [← hreact]
    rfl
  obtain ⟨e, he, -, -⟩ | ⟨-, hsound, hpaid⟩ := hpays
  · rw [hok hg] at he
    cases he
  · rw [ht] at hsound hpaid
    refine ⟨output, stream, phase, (w.client.transferOut script r).written, hsound, hpaid, ?_⟩
    rw [hstep, Transfer.resume]
    cases hserves : (w.client.transferOut script r).serves with
    | false =>
      refine .inl ⟨(hflags hserves).2.2, ?_⟩
      simp only [Bool.false_eq_true, if_false, ht]
    | true =>
      refine .inr ?_
      simp only [if_true, ht]

theorem Regular.step_write {h : Responder σ} (hh : h.Blind) (now : Timestamp) {w : World σ}
    (hw : w.Regular) {script : List Acceptance} (hg : Acceptance.Gentle script) (r : Readiness) :
    (w.step h now (.write script r)).Regular ∧
      (w.step h now (.write script r)).outcome h now = w.outcome h now := by
  obtain ⟨output, stream, phase, paid, hsound, hpaid, hstep⟩ := hw.step_write_cases h now hg r
  have hpay := outlook_pay h now hpaid w.coming w.state
  have hwritten : (w.written ++ (paid ++ (outlook h now { w.client with output, stream, phase }
      w.coming w.state).1), (outlook h now { w.client with output, stream, phase }
      w.coming w.state).2) = w.outcome h now := by
    rw [outcome, ← hpay]
  obtain ⟨rfl, hstep⟩ | hstep := hstep
  · rw [hstep]
    refine ⟨⟨hsound, ⟨hsound.paired, hw.coherent.ending⟩, hw.settled, hw.steady⟩, ?_⟩
    rw [← hwritten, outcome, List.append_assoc]
    rfl
  · have hserved := outlook_serve hh now w.coming w.state hsound (fun hdone => if_pos hdone)
    rw [hstep]
    refine ⟨⟨hsound.serve hh.appendOnly now w.state, coherent_serve h now _ w.state hsound.paired,
      settled_serve h now _ w.state, hw.steady⟩, ?_⟩
    rw [← hwritten, ← hserved, outcome, coming, List.append_assoc]
    dsimp only
    rw [peerDone_serve]
    rfl

theorem Regular.step {h : Responder σ} (hh : h.Blind) (now : Timestamp) {w : World σ}
    (hw : w.Regular) {turn : Turn} (hg : turn.Gentle) :
    (w.step h now turn).Regular ∧ (w.step h now turn).outcome h now = w.outcome h now := by
  cases turn with
  | read => exact hw.step_read hh now
  | write script r => exact hw.step_write hh now hg r

theorem Regular.run {h : Responder σ} (hh : h.Blind) (now : Timestamp) {w : World σ}
    (hw : w.Regular) {turns : List Turn} (hg : ∀ turn ∈ turns, turn.Gentle) :
    (w.run h now turns).Regular ∧ (w.run h now turns).outcome h now = w.outcome h now := by
  induction turns generalizing w with
  | nil => exact ⟨hw, rfl⟩
  | cons turn turns ih =>
    obtain ⟨hnext, hsame⟩ := hw.step hh now (hg turn (List.mem_cons_self ..))
    obtain ⟨hlast, hall⟩ := ih hnext (fun t ht => hg t (List.mem_cons_of_mem turn ht))
    exact ⟨hlast, hall.trans hsame⟩

def EndKept (w : World σ) : Prop := .endOfStream ∈ w.unread ∨ w.client.peerDone = true

theorem EndKept.step {h : Responder σ} {now : Timestamp} {w : World σ} (he : w.EndKept)
    (hw : w.Regular) (turn : Turn) : (w.step h now turn).EndKept := by
  cases turn with
  | read =>
    obtain hsame | ⟨receipt, ha, hr, hstep⟩ := step_read_cases h now hw.steady hw.sound.input
    · rw [hsame]
      exact he
    · have hopen : w.client.peerDone = false := by
        simp only [awaitsInput, Bool.and_eq_true, Bool.not_eq_true'] at ha
        exact ha.2
      have hmore : .endOfStream ∈ w.unread := by
        cases he with
        | inl hmore => exact hmore
        | inr hdone =>
          rw [hopen] at hdone
          cases hdone
      rw [hstep]
      obtain hleft | ⟨k, hend⟩ := ByteQueue.end_of_receive w.client.input hmore
      · exact .inl hleft
      · refine .inr ?_
        rw [hr] at hend
        cases hend
        exact peerDone_serve h now _ w.state
  | write script r =>
    obtain ⟨output, stream, phase, ht⟩ := w.client.transferOut_frame script r
    have hdone := peerDone_react h w.client w.state (.writable now script r)
    rw [transfer, ht] at hdone
    exact he.imp id hdone.trans

theorem EndKept.run {h : Responder σ} (hh : h.Blind) (now : Timestamp) {w : World σ}
    (he : w.EndKept) (hw : w.Regular) {turns : List Turn} (hg : ∀ turn ∈ turns, turn.Gentle) :
    (w.run h now turns).EndKept := by
  induction turns generalizing w with
  | nil => exact he
  | cons turn turns ih =>
    exact ih (he.step hw turn) (hw.step hh now (hg turn (List.mem_cons_self ..))).1
      (fun t ht => hg t (List.mem_cons_of_mem turn ht))

/-- Nothing is to come when all is read and sent. -/
theorem Regular.outcome_of_done (h : Responder σ) (now : Timestamp) {w : World σ} (hw : w.Regular)
    (hsent : w.client.hasOutput = false)
    (hread : w.client.peerDone = true ∨ w.client.closing = true ∨ Arrival.content w.unread = []) :
    w.outcome h now = (w.written, w.state) ∧
      (w.client.peerDone = true ∨ w.client.closing = true → w.client.isOver = true) := by
  obtain ⟨hempty, hstream⟩ : w.client.output.isEmpty = true ∧ w.client.stream = none := by
    simpa [hasOutput] using hsent
  have howed : w.client.owed = [] := by
    rw [owed_of_stream_none hstream, (ByteQueue.isEmpty_iff hw.sound.output).1 hempty]
  have hidle : w.client.phase = .idle := by
    cases hphase : w.client.phase with
    | idle => rfl
    | streaming =>
      have := hw.sound.paired.1 hphase
      rw [hstream] at this
      cases this
  have hpeer : w.client.peerDone = true → w.client.closing = true := by
    intro hdone
    cases hw.coherent.ending hdone with
    | inl hclosing => exact hclosing
    | inr hphase => cases hidle.symm.trans hphase
  cases Bool.eq_false_or_eq_true w.client.closing with
  | inl hclosing =>
    refine ⟨?_, fun _ => ?_⟩
    · rw [outcome, outlook_of_closing hclosing, howed, List.append_nil]
    · rw [isOver, hclosing, hempty, hstream]
      rfl
  | inr hopen =>
    have hcoming : w.coming = [] := by
      rw [coming]
      obtain hdone | hclosing | hcontent := hread
      · exact if_pos hdone
      · rw [hopen] at hclosing
        cases hclosing
      · rw [hcontent, ite_self]
    have hstays : w.client.stage.advance (w.client.input.append w.coming).toList
        = .waiting w.client.stage w.client.input.toList := by
      rw [hcoming, ByteQueue.toList_append hw.sound.input, List.append_nil]
      exact hw.settled ⟨hidle, hopen⟩
    refine ⟨?_, fun hend => ?_⟩
    · rw [outcome, outlook_of_open hopen (Exchange.replay_of_waiting hstays), howed,
        List.append_nil, List.append_nil]
    · have hclosing := hend.elim hpeer id
      rw [hopen] at hclosing
      cases hclosing

theorem Regular.settle (h : Responder σ) (now : Timestamp) {w : World σ} (hw : w.Regular)
    {whole : Exchange.Replayed σ} (ho : w.outcome h now = (whole.written, whole.state))
    (hsent : w.client.hasOutput = false)
    (hread : w.client.peerDone = true ∨ w.client.closing = true ∨ Arrival.content w.unread = []) :
    w.written = whole.written ∧ w.state = whole.state ∧
      (w.client.peerDone = true ∨ w.client.closing = true → w.client.isOver = true) := by
  obtain ⟨hdone, hover⟩ := hw.outcome_of_done h now hsent hread
  obtain ⟨hwritten, hstate⟩ := Prod.mk.inj (hdone.symm.trans ho)
  exact ⟨hwritten, hstate, hover⟩

/-- However the bytes arrive and are taken, once all is read and sent a connection has sent the
bytes and made the calls of all bytes arriving at once. If the peer's end was read it is over. The
calls were for the complete requests, up to the first that asks to close or is declined. -/
theorem run_eq_atOnce (h : Responder σ) (hh : h.Blind) (now : Timestamp) (fd : Fd) (state : σ)
    {script : List Arrival} (hs : Arrival.Steady script) {turns : List Turn}
    (hg : ∀ turn ∈ turns, turn.Gentle) :
    let w := run h.recorded now { client := { fd }, state := (state, []), unread := script } turns
    let whole := Exchange.atOnce h.recorded now (Arrival.content script) (state, [])
    w.client.hasOutput = false →
    (w.client.peerDone = true ∨ w.client.closing = true ∨ Arrival.content w.unread = []) →
    w.written = whole.written ∧ w.state = whole.state ∧
      (.endOfStream ∈ script → .endOfStream ∉ w.unread → w.client.peerDone = true) ∧
      (w.client.peerDone = true ∨ w.client.closing = true → w.client.isOver = true) ∧
      ∃ requests taken,
        (∀ rs, Request.Pipelined (Arrival.content script) rs ↔ rs = requests) ∧
        taken <+: requests ∧ w.state.2 = taken.map (fun r => (r.method, r)) ∧
        ((∀ status, whole.ending ≠ .error (.responder status)) → taken = requests) := by
  intro w whole hsent hread
  have hwhole : whole = Exchange.atOnce h.recorded now (Arrival.content script) (state, []) := rfl
  have hfresh := regular_fresh fd (state, ([] : Responder.Calls)) hs
  obtain ⟨hregular, houtcome⟩ := hfresh.run hh.recorded now hg
  have hend : .endOfStream ∈ script → w.EndKept := fun hmore =>
    EndKept.run hh.recorded now (.inl hmore) hfresh hg
  have hcalls := Exchange.calls_atOnce h now (Arrival.content script) state
  rw [outcome_fresh, ← hwhole] at houtcome
  rw [← hwhole] at hcalls
  obtain ⟨hwritten, hstate, hover⟩ := hregular.settle h.recorded now houtcome hsent hread
  obtain ⟨requests, taken, hrequests, hprefix, hcalls, hall⟩ := hcalls
  exact ⟨hwritten, hstate, fun hmore hnone => (hend hmore).resolve_left hnone, hover, requests,
    taken, hrequests, hprefix, (congrArg Prod.snd hstate).trans hcalls, hall⟩

/-- A request for a page in two pieces, one for its head with the second, and the peer's end. -/
def halved : List Arrival :=
  [.bytes (Text.encode "GET / HTTP/1.1\r\n"), .fault .wouldBlock,
    .bytes (Text.encode "\r\nHEAD / HTTP/1.1\r\n\r\n"), .endOfStream]

set_option maxRecDepth 4000 in
/-- The head is asked for while the page is being sent. -/
theorem run_eq_atOnce_onePage :
    ∃ w, w = run Site.onePage.responder.recorded .epoch
        { client := { fd := 5 }, state := ([7, 8], []), unread := halved }
        [.read, .read, .write [.everything, .everything] {}, .write [] {},
          .write [.upTo 50, .everything] {}] ∧
      w.client.hasOutput = false ∧ w.client.isOver = true ∧
      w.written = (Exchange.atOnce Site.onePage.responder.recorded .epoch
        (Arrival.content halved) ([7, 8], [])).written ∧
      w.state.2.map (fun call => (call.1, call.2.uri)) = [(.get, "/"), (.head, "/")] := by
  have hs : Arrival.Steady halved := by
    simp [halved, Arrival.Steady, Arrival.isSteady, Arrival.endOfStream, Fault.isHard]
  have hg : ∀ turn ∈ [.read, .read, .write [.everything, .everything] {}, .write [] {},
      .write [.upTo 50, .everything] {}], Turn.Gentle turn := by
    simp [Turn.Gentle, Acceptance.Gentle, Acceptance.isGentle]
  have hrun := run_eq_atOnce Site.onePage.responder Site.onePage.blind_responder .epoch 5 [7, 8]
    hs hg
  generalize hw : run Site.onePage.responder.recorded .epoch
    { client := { fd := 5 }, state := ([7, 8], []), unread := halved }
    [.read, .read, .write [.everything, .everything] {}, .write [] {},
      .write [.upTo 50, .everything] {}] = w at hrun
  have hended : w.client.hasOutput = false ∧ w.client.peerDone = true ∧
      w.state.2.map (fun call => (call.1, call.2.uri)) = [(.get, "/"), (.head, "/")] := by
    rw [← hw]
    decide +kernel
  obtain ⟨hsent, hdone, hcalls⟩ := hended
  obtain ⟨hwritten, -, -, hover, -⟩ := hrun hsent (.inl hdone)
  exact ⟨w, rfl, hsent, hover (.inl hdone), hwritten, hcalls⟩

/-- Answers every request with bytes that may depend on how many are queued, and with one result. -/
def adding (bytes : Nat → Bytes) (result : Except Status Unit) : Responder Unit :=
  let respond (_ : Timestamp) (_ : Request) (outbox : Outbox) (_ : Unit) : Responded Unit :=
    ⟨result, { outbox with output := outbox.output.append (bytes outbox.output.length) }, ()⟩
  ⟨respond, respond, respond⟩

theorem appendOnly_adding (bytes : Nat → Bytes) (result : Except Status Unit) :
    (adding bytes result).AppendOnly := by
  intro m now r output state hw
  have hadded : Outbox.Extends output ⟨output.append (bytes output.length), none⟩ := by
    refine ⟨hw.append _, ?_, nofun⟩
    rw [ByteQueue.toList_append hw]
    exact List.prefix_append _ _
  cases m <;> exact hadded

def counting : Responder Unit := adding (fun n => Text.encode (toString n ++ ";")) (.ok ())

def failing : Responder Unit := adding (fun _ => Text.encode "partial") (.error .notFound)

def arriving (n : Nat) : World Unit where
  client := { fd := 5 }
  state := ()
  unread := (List.replicate n
    [.bytes (Text.encode "GET /x HTTP/1.1\r\n\r\n"), .fault .wouldBlock]).flatten

set_option maxRecDepth 4000 in
/-- A responder that sees what is queued answers by the schedule. And what one adds before it
declines is not sent, though one exchange with it alone leaves that in the output. -/
theorem written_depends_on_turns :
    counting.AppendOnly ∧ failing.AppendOnly ∧
    (∃ late early,
      late = run counting .epoch (arriving 2) [.read, .read, .write [.everything] {}] ∧
      early = run counting .epoch (arriving 2)
        [.read, .write [.everything] {}, .read, .write [.everything] {}] ∧
      late.client.hasOutput = false ∧ Arrival.content late.unread = [] ∧
      early.client.hasOutput = false ∧ Arrival.content early.unread = [] ∧
      late.written = Text.encode "0;2;" ∧ early.written = Text.encode "0;0;") ∧
    ∃ w, w = run failing .epoch (arriving 1) [.read, .write [.everything] {}] ∧
      w.client.hasOutput = false ∧ w.written = (Answer.error .epoch .notFound).flatten ∧
      (Exchange.next failing .epoch .idle (.append .empty (Arrival.content (arriving 1).unread))
        ⟨.empty, none⟩ ()).outbox.output.toList = Text.encode "partial" := by
  refine ⟨appendOnly_adding _ _, appendOnly_adding _ _, ⟨_, _, rfl, rfl, ?_⟩, _, rfl, ?_⟩
  · decide +kernel
  · decide +kernel

end World

end HttpOrigin.Client
