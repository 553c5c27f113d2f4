import HttpOrigin.Proofs.Owing
import HttpOrigin.Proofs.ReplyReader

/-! An account of a connection: what was written and what is still owed are the answers to the
requests in their order, and at most one error after them. -/
namespace HttpOrigin.Client

variable {σ : Type}

/-- What became of a request, or of bytes that are none. -/
inductive Entry where
  | answered (m : Method) (r : Request) (added file : Bytes)
  | declined (m : Method) (r : Request) (now : Timestamp) (status : Status)
  | refused (now : Timestamp) (e : HttpError)

namespace Entry

def bytes : Entry → Bytes
  | answered _ _ added file => added ++ file
  | declined _ _ now status => (Answer.error now status).flatten
  | refused now e => (Answer.error now (e.status?.getD .internalServerError)).flatten

def isCall : Entry → Bool
  | answered _ _ _ _ | declined _ _ _ _ => true
  | refused _ _ => false

def isAnswer : Entry → Bool
  | answered _ _ _ _ => true
  | declined _ _ _ _ | refused _ _ => false

def toHead : Entry → Bool
  | answered m _ _ _ | declined m _ _ _ => m == .head
  | refused _ _ => false

def error? : Entry → Option Status
  | answered _ _ _ _ => none
  | declined _ _ _ status => some status
  | refused _ e => e.status?

theorem isErrorAnswer_bytes {entry : Entry} {status : Status}
    (h : entry.error? = some status) : Reply.IsErrorAnswer entry.bytes status := by
  cases entry with
  | answered m r added file => cases h
  | declined m r now s =>
    cases h
    exact Reply.isErrorAnswer_error now status
  | refused now e =>
    have hstatus : e.status? = some status := h
    rw [bytes, hstatus]
    exact Reply.isErrorAnswer_error now status

/-- What was asked for, and the file or the error that came of it. -/
def told? : Entry → Option (Method × String × Except Status Bytes)
  | answered m r _ file => some (m, r.uri, .ok file)
  | declined m r _ status => some (m, r.uri, .error status)
  | refused _ _ => none

theorem answered_of_told? {entry : Entry} {m : Method} {uri : String} {file : Bytes}
    (h : entry.told? = some (m, uri, .ok file)) :
    ∃ r added, r.uri = uri ∧ entry = answered m r added file := by
  cases entry with
  | answered m' r added file' =>
    cases h
    exact ⟨r, added, rfl, rfl⟩
  | declined | refused => cases h

theorem declined_of_told? {entry : Entry} {m : Method} {uri : String} {status : Status}
    (h : entry.told? = some (m, uri, .error status)) :
    ∃ r now, r.uri = uri ∧ entry = declined m r now status := by
  cases entry with
  | declined m' r now status' =>
    cases h
    exact ⟨r, now, rfl, rfl⟩
  | answered | refused => cases h

def ofCall (m : Method) (now : Timestamp) (r : Request) (outbox : Outbox) (d : Responded σ) :
    Entry :=
  match d.result with
  | .ok () => answered m r (d.outbox.added outbox.output) d.outbox.file
  | .error status => declined m r now status

theorem ofCall_of_ok {m : Method} {now : Timestamp} {r : Request} {outbox : Outbox}
    {d : Responded σ} (hr : d.result = .ok ()) :
    ofCall m now r outbox d = answered m r (d.outbox.added outbox.output) d.outbox.file := by
  rw [ofCall, hr]

theorem ofCall_of_error {m : Method} {now : Timestamp} {r : Request} {outbox : Outbox}
    {d : Responded σ} {status : Status} (hr : d.result = .error status) :
    ofCall m now r outbox d = declined m r now status := by
  rw [ofCall, hr]

theorem forall_mem_dropLast_append {P : Entry → Prop} {l m : List Entry}
    (hl : ∀ entry ∈ l, P entry) (hm : ∀ entry ∈ m.dropLast, P entry) :
    ∀ entry ∈ (l ++ m).dropLast, P entry := by
  intro entry hmem
  rw [List.dropLast_append] at hmem
  split at hmem
  · exact hl entry (List.dropLast_subset _ hmem)
  · cases List.mem_append.1 hmem with
    | inl hmem => exact hl entry hmem
    | inr hmem => exact hm entry hmem

end Entry

def log (h : Responder σ) (now : Timestamp) (c : Client) (state : σ) : List Entry :=
  if c.phase = .idle ∧ c.closing = false then
    match _ha : c.stage.advance c.input.toList with
    | .waiting _ _ => []
    | .refused e _ => [.refused now e]
    | .request r rest =>
      let responded := c.respond h now state r
      match responded.result with
      | .error status => [.declined r.method r now status]
      | .ok () =>
        .answered r.method r (responded.outbox.added c.output) responded.outbox.file ::
          if r.asksToClose then []
          else log h now (c.answered rest responded.outbox) responded.state
  else []
termination_by 2 * c.input.length + c.stage.weight
decreasing_by exact length_input_answered _ha _

section
variable {h : Responder σ} {now : Timestamp} {c : Client} {state : σ} {rest : Bytes} {r : Request}

theorem log_of_not_serving (hs : ¬ c.Serving) : log h now c state = [] := by
  rw [log]
  exact if_neg hs

theorem log_eq (hs : c.Serving) :
    log h now c state = match c.stage.advance c.input.toList with
      | .waiting _ _ => []
      | .refused e _ => [.refused now e]
      | .request r rest =>
        match (c.respond h now state r).result with
        | .error status => [.declined r.method r now status]
        | .ok () =>
          .answered r.method r ((c.respond h now state r).outbox.added c.output)
              (c.respond h now state r).outbox.file ::
            if r.asksToClose then []
            else log h now (c.answered rest (c.respond h now state r).outbox)
              (c.respond h now state r).state := by
  rw [log]
  refine (if_pos hs).trans ?_
  split <;> rename_i ha <;> exact ha ▸ rfl

theorem log_of_waiting {stage : Stage} (hs : c.Serving)
    (ha : c.stage.advance c.input.toList = .waiting stage rest) : log h now c state = [] := by
  rw [log_eq hs, ha]

theorem log_of_refused {e : HttpError} (hs : c.Serving)
    (ha : c.stage.advance c.input.toList = .refused e rest) :
    log h now c state = [.refused now e] := by
  rw [log_eq hs, ha]

theorem log_of_declined {status : Status} (hs : c.Serving)
    (ha : c.stage.advance c.input.toList = .request r rest)
    (hr : (c.respond h now state r).result = .error status) :
    log h now c state = [.declined r.method r now status] := by
  simp only [log_eq hs, ha, hr]

theorem log_of_closing (hs : c.Serving) (ha : c.stage.advance c.input.toList = .request r rest)
    (hr : (c.respond h now state r).result = .ok ()) (hclose : r.asksToClose = true) :
    log h now c state = [.answered r.method r ((c.respond h now state r).outbox.added c.output)
      (c.respond h now state r).outbox.file] := by
  simp only [log_eq hs, ha, hr, hclose, if_true]

theorem log_of_keeping (hs : c.Serving) (ha : c.stage.advance c.input.toList = .request r rest)
    (hr : (c.respond h now state r).result = .ok ()) (hkeep : ¬ r.asksToClose = true) :
    log h now c state = .answered r.method r ((c.respond h now state r).outbox.added c.output)
        (c.respond h now state r).outbox.file ::
      log h now (c.answered rest (c.respond h now state r).outbox)
        (c.respond h now state r).state := by
  simp only [log_eq hs, ha, hr, hkeep, Bool.false_eq_true, if_false]

end

/-- Serving adds to what is owed the bytes of the log, and nothing else. -/
theorem owed_serve {h : Responder σ} (hh : h.AppendOnly) (now : Timestamp) {c : Client} (state : σ)
    (hc : c.Sound) :
    (serve h now c state).1.owed = c.owed ++ (log h now c state).flatMap Entry.bytes := by
  induction c, state using serve_induction h now with
  | stopped c state hs =>
    rw [serve_of_not_serving hs, log_of_not_serving hs]
    exact (List.append_nil _).symm
  | waiting c state stage rest hs ha =>
    rw [serve_of_waiting hs ha, log_of_waiting hs ha]
    exact (List.append_nil _).symm
  | refused c state e rest hs ha =>
    have howed := owed_of_stream_none (hc.paired.stream_none hs.1)
    rw [serve_of_refused hs ha, log_of_refused hs ha, owed_refuse (hc.output.truncate _), howed,
      ByteQueue.toList_truncate, ← ByteQueue.length_toList, List.take_length,
      List.flatMap_singleton]
    rfl
  | declined c state r rest status hs ha hr =>
    have howed := owed_of_stream_none (hc.paired.stream_none hs.1)
    have he := hc.extends_respond hs hh now state r
    rw [serve_of_declined hs ha hr, log_of_declined hs ha hr, owed_declined he, howed,
      List.flatMap_singleton]
    rfl
  | closing c state r rest hs ha hr hclose =>
    have howed := owed_of_stream_none (hc.paired.stream_none hs.1)
    have he := hc.extends_respond hs hh now state r
    rw [serve_of_closing hs ha hr hclose, log_of_closing hs ha hr hclose, howed,
      List.flatMap_singleton]
    exact owed_answered he rest
  | keeping c state r rest hs ha hr hkeep ih =>
    have howed := owed_of_stream_none (hc.paired.stream_none hs.1)
    have he := hc.extends_respond hs hh now state r
    rw [serve_of_keeping hs ha hr hkeep, log_of_keeping hs ha hr hkeep,
      ih (hc.answered he rest), owed_answered he, howed, List.flatMap_cons, List.append_assoc]
    rfl

/-- Only the last entry of a log may be an error, and the connection closes after it. -/
theorem errors_log (h : Responder σ) (now : Timestamp) (c : Client) (state : σ) :
    (∀ entry ∈ (log h now c state).dropLast, entry.isAnswer = true) ∧
      ((serve h now c state).1.closing = false →
        ∀ entry ∈ log h now c state, entry.isAnswer = true) := by
  induction c, state using serve_induction h now with
  | stopped c state hs =>
    rw [log_of_not_serving hs]
    exact ⟨by simp, by simp⟩
  | waiting c state stage rest hs ha =>
    rw [log_of_waiting hs ha]
    exact ⟨by simp, by simp⟩
  | refused c state e rest hs ha =>
    rw [log_of_refused hs ha, serve_of_refused hs ha]
    exact ⟨by simp, fun hopen => by cases hopen⟩
  | declined c state r rest status hs ha hr =>
    rw [log_of_declined hs ha hr, serve_of_declined hs ha hr]
    exact ⟨by simp, fun hopen => by cases hopen⟩
  | closing c state r rest hs ha hr hclose =>
    rw [log_of_closing hs ha hr hclose, serve_of_closing hs ha hr hclose]
    exact ⟨by simp, fun hopen => by cases hopen⟩
  | keeping c state r rest hs ha hr hkeep ih =>
    obtain ⟨hlast, hopen⟩ := ih
    rw [log_of_keeping hs ha hr hkeep, serve_of_keeping hs ha hr hkeep]
    refine ⟨Entry.forall_mem_dropLast_append (l := [_]) (by simp [Entry.isAnswer]) hlast,
      fun hclosing entry hm => ?_⟩
    obtain rfl | hm := List.mem_cons.1 hm
    · rfl
    · exact hopen hclosing entry hm

def accounted (h : Responder σ) : Responder (σ × List Entry) := h.noted Entry.ofCall

theorem state_respond_accounted (h : Responder σ) (now : Timestamp) (c : Client)
    (s : σ × List Entry) (r : Request) :
    (c.respond (accounted h) now s r).state.2
      = s.2 ++ [Entry.ofCall r.method now r c.outbox (c.respond (accounted h) now s r)] := by
  rw [respond, accounted, Responder.forMethod_noted]
  rfl

/-- The account that the responder keeps is the log, less the bytes that gave no request. -/
theorem calls_serve (h : Responder σ) (now : Timestamp) (c : Client) (s : σ × List Entry) :
    (serve (accounted h) now c s).2.2
      = s.2 ++ (log (accounted h) now c s).filter Entry.isCall := by
  induction c, s using serve_induction (accounted h) now with
  | stopped c s hs =>
    rw [serve_of_not_serving hs, log_of_not_serving hs]
    exact (List.append_nil _).symm
  | waiting c s stage rest hs ha =>
    rw [serve_of_waiting hs ha, log_of_waiting hs ha]
    exact (List.append_nil _).symm
  | refused c s e rest hs ha =>
    rw [serve_of_refused hs ha, log_of_refused hs ha]
    exact (List.append_nil _).symm
  | declined c s r rest status hs ha hr =>
    rw [serve_of_declined hs ha hr, log_of_declined hs ha hr, state_respond_accounted,
      Entry.ofCall_of_error hr]
    rfl
  | closing c s r rest hs ha hr hclose =>
    rw [serve_of_closing hs ha hr hclose, log_of_closing hs ha hr hclose, state_respond_accounted,
      Entry.ofCall_of_ok hr]
    rfl
  | keeping c s r rest hs ha hr hkeep ih =>
    rw [serve_of_keeping hs ha hr hkeep, log_of_keeping hs ha hr hkeep, ih,
      state_respond_accounted, Entry.ofCall_of_ok hr]
    exact List.append_assoc _ _ _

/-- Whatever was refused, the peer is owed a status for it. -/
theorem status?_of_mem_log (h : Responder σ) (now : Timestamp) (c : Client) (state : σ) :
    ∀ at' e, Entry.refused at' e ∈ log h now c state → e.status?.isSome = true := by
  induction c, state using serve_induction h now with
  | stopped c state hs =>
    rw [log_of_not_serving hs]
    simp
  | waiting c state stage rest hs ha =>
    rw [log_of_waiting hs ha]
    simp
  | refused c state e rest hs ha =>
    rw [log_of_refused hs ha]
    intro at' e' hm
    cases List.mem_singleton.1 hm
    exact Stage.status?_of_refused ha
  | declined c state r rest status hs ha hr =>
    rw [log_of_declined hs ha hr]
    simp
  | closing c state r rest hs ha hr hclose =>
    rw [log_of_closing hs ha hr hclose]
    simp
  | keeping c state r rest hs ha hr hkeep ih =>
    rw [log_of_keeping hs ha hr hkeep]
    intro at' e' hm
    cases List.mem_cons.1 hm with
    | inl heq => cases heq
    | inr hm => exact ih at' e' hm

def eventLog (h : Responder σ) (c : Client) (state : σ) (e : Event) : List Entry :=
  if (c.transfer e).serves then log h e.now (c.transfer e).client state else []

theorem closing_transfer (c : Client) (e : Event) :
    (c.transfer e).client.closing = c.closing := by
  cases e with
  | readable now script =>
    obtain ⟨-, ht⟩ | ⟨e, -, -, ht⟩ | ⟨receipt, -, -, ht⟩ := c.transferIn_cases script <;>
      rw [transfer, ht]
  | writable now script r =>
    obtain ⟨output, stream, phase, ht⟩ := c.transferOut_frame script r
    rw [transfer, ht]

/-- A connection that closes serves no more requests. -/
theorem eventLog_of_closing (h : Responder σ) {c : Client} (hc : c.closing = true) (state : σ)
    (e : Event) : c.eventLog h state e = [] ∧ (c.react h state e).client.closing = true := by
  have hclosing := (closing_transfer c e).trans hc
  have hs : ¬ (c.transfer e).client.Serving := by
    rintro ⟨-, hopen⟩
    rw [hclosing] at hopen
    cases hopen
  rw [eventLog, react_eq, Transfer.resume, log_of_not_serving hs, serve_of_not_serving hs, ite_self]
  refine ⟨rfl, ?_⟩
  split <;> exact hclosing

theorem errors_eventLog (h : Responder σ) (c : Client) (state : σ) (e : Event) :
    (∀ entry ∈ (c.eventLog h state e).dropLast, entry.isAnswer = true) ∧
      ((c.react h state e).client.closing = false →
        ∀ entry ∈ c.eventLog h state e, entry.isAnswer = true) := by
  rw [eventLog, react_eq, Transfer.resume]
  cases (c.transfer e).serves with
  | false => exact ⟨by simp, by simp⟩
  | true => exact errors_log h e.now (c.transfer e).client state

theorem calls_react (h : Responder σ) (c : Client) (s : σ × List Entry) (e : Event) :
    (c.react (accounted h) s e).state.2
      = s.2 ++ (c.eventLog (accounted h) s e).filter Entry.isCall := by
  rw [eventLog, react_eq, Transfer.resume]
  cases (c.transfer e).serves with
  | false => exact (List.append_nil _).symm
  | true => exact calls_serve h e.now (c.transfer e).client s

theorem status?_of_mem_eventLog (h : Responder σ) (c : Client) (state : σ) (e : Event) :
    ∀ now err, Entry.refused now err ∈ c.eventLog h state e → err.status?.isSome = true := by
  rw [eventLog]
  cases (c.transfer e).serves with
  | false => simp
  | true => exact status?_of_mem_log h e.now (c.transfer e).client state

/-- An event fails after having paid a part of what was owed, or forgets nothing and adds the
answers to the requests it serves. -/
theorem Sound.react {h : Responder σ} (hh : h.AppendOnly) {c : Client} (hc : c.Sound) (state : σ)
    (e : Event) :
    (∃ err, (c.react h state e).result = .error err ∧ c.eventLog h state e = [] ∧
      (c.react h state e).written <+: c.owed) ∨
    (c.react h state e).result = .ok () ∧ (c.react h state e).client.Sound ∧
      (c.react h state e).written ++ (c.react h state e).client.owed
        = c.owed ++ (c.eventLog h state e).flatMap Entry.bytes := by
  rw [react_eq, Transfer.resume, eventLog]
  obtain ⟨err, hr, hserves, hw⟩ | ⟨hr, hsound, hw⟩ := hc.transfer e
  · rw [hserves]
    exact .inl ⟨err, hr, rfl, hw⟩
  · cases (c.transfer e).serves with
    | false => exact .inr ⟨hr, hsound, hw.trans (List.append_nil _).symm⟩
    | true =>
      refine .inr ⟨hr, hsound.serve hh e.now state, ?_⟩
      rw [← hw, List.append_assoc]
      exact congrArg _ (owed_serve hh e.now state hsound)

structure Session (σ : Type) where
  client : Client
  state : σ
  written : Bytes := []
  log : List Entry := []
  /-- The last result. After an error nothing more happens. -/
  result : Except HttpError Unit := .ok ()

namespace Session

def step (h : Responder σ) (s : Session σ) (e : Event) : Session σ :=
  match s.result with
  | .error _ => s
  | .ok () =>
    let reaction := s.client.react h s.state e
    { client := reaction.client
      state := reaction.state
      written := s.written ++ reaction.written
      log := s.log ++ s.client.eventLog h s.state e
      result := reaction.result }

def run (h : Responder σ) (s : Session σ) (events : List Event) : Session σ :=
  events.foldl (step h) s

structure Balanced (s : Session σ) : Prop where
  sound : s.result = .ok () → s.client.Sound
  balance : s.result = .ok () → s.written ++ s.client.owed = s.log.flatMap Entry.bytes
  written_prefix : s.written <+: s.log.flatMap Entry.bytes

theorem balanced_fresh (fd : Fd) (state : σ) : Balanced { client := { fd }, state } where
  sound := fun _ => sound_fresh fd
  balance := fun _ => rfl
  written_prefix := List.nil_prefix

theorem Balanced.step {h : Responder σ} (hh : h.AppendOnly) {s : Session σ} (hb : s.Balanced)
    (e : Event) : (s.step h e).Balanced := by
  cases hresult : s.result with
  | error err =>
    rw [Session.step, hresult]
    exact hb
  | ok u =>
    have hbalance := hb.balance hresult
    rw [Session.step, hresult]
    dsimp only
    obtain ⟨err, hr, hlog, hw⟩ | ⟨hr, hsound, hw⟩ := (hb.sound hresult).react hh s.state e
    · refine ⟨fun hok => ?_, fun hok => ?_, ?_⟩
      · cases hr.symm.trans hok
      · cases hr.symm.trans hok
      · rw [hlog, List.append_nil, ← hbalance]
        exact (List.prefix_append_right_inj s.written).2 hw
    · have hnext : s.written ++ (s.client.react h s.state e).written
          ++ (s.client.react h s.state e).client.owed
          = (s.log ++ s.client.eventLog h s.state e).flatMap Entry.bytes := by
        rw [List.append_assoc, hw, ← List.append_assoc, hbalance, List.flatMap_append]
      exact ⟨fun _ => hsound, fun _ => hnext, ⟨_, hnext⟩⟩

theorem Balanced.run {h : Responder σ} (hh : h.AppendOnly) {s : Session σ} (hb : s.Balanced)
    (events : List Event) : (s.run h events).Balanced := by
  induction events generalizing s with
  | nil => exact hb
  | cons e events ih => exact ih (hb.step hh e)

/-- The log tells the calls of the responder, and ends with the first error. -/
structure Orderly (s : Session (σ × List Entry)) : Prop where
  calls : s.state.2 = s.log.filter Entry.isCall
  errors : ∀ entry ∈ s.log.dropLast, entry.isAnswer = true
  closing : s.client.closing = false → ∀ entry ∈ s.log, entry.isAnswer = true
  status : ∀ now e, Entry.refused now e ∈ s.log → e.status?.isSome = true

theorem orderly_fresh (fd : Fd) (state : σ) :
    Orderly { client := { fd }, state := (state, []) } where
  calls := rfl
  errors := by simp
  closing := by simp
  status := by simp

theorem Orderly.step (h : Responder σ) {s : Session (σ × List Entry)} (ho : s.Orderly)
    (e : Event) : (s.step (accounted h) e).Orderly := by
  cases hresult : s.result with
  | error err =>
    rw [Session.step, hresult]
    exact ho
  | ok u =>
    rw [Session.step, hresult]
    have hcalls := calls_react h s.client s.state e
    obtain ⟨herrors, hanswers⟩ := errors_eventLog (accounted h) s.client s.state e
    have hstatus := status?_of_mem_eventLog (accounted h) s.client s.state e
    cases hclosing : s.client.closing with
    | true =>
      obtain ⟨hlog, hstill⟩ := eventLog_of_closing (accounted h) hclosing s.state e
      rw [hlog, List.filter_nil, List.append_nil] at hcalls
      dsimp only
      rw [hlog, List.append_nil]
      refine ⟨hcalls.trans ho.calls, ho.errors, fun hopen => ?_, ho.status⟩
      cases hstill.symm.trans hopen
    | false =>
      have hold := ho.closing hclosing
      refine ⟨?_, Entry.forall_mem_dropLast_append hold herrors, ?_, ?_⟩
      · dsimp only
        rw [hcalls, List.filter_append, ho.calls]
      · intro hopen entry hm
        cases List.mem_append.1 hm with
        | inl hm => exact hold entry hm
        | inr hm => exact hanswers hopen entry hm
      · intro now err hm
        cases List.mem_append.1 hm with
        | inl hm => exact ho.status now err hm
        | inr hm => exact hstatus now err hm

theorem Orderly.run (h : Responder σ) {s : Session (σ × List Entry)} (ho : s.Orderly)
    (events : List Event) : (s.run (accounted h) events).Orderly := by
  induction events generalizing s with
  | nil => exact ho
  | cons e events ih => exact ih (ho.step h e)

theorem Orderly.error_of_not_isAnswer {s : Session (σ × List Entry)} (ho : s.Orderly)
    {entry : Entry} (hm : entry ∈ s.log) (he : entry.isAnswer = false) :
    ∃ status, entry.error? = some status ∧ Reply.IsErrorAnswer entry.bytes status := by
  obtain ⟨status, hstatus⟩ : ∃ status, entry.error? = some status := by
    cases entry with
    | answered m r added file => cases he
    | declined m r now status => exact ⟨status, rfl⟩
    | refused now e => exact Option.isSome_iff_exists.1 (ho.status now e hm)
  exact ⟨status, hstatus, Entry.isErrorAnswer_bytes hstatus⟩

/-- After any events of a fresh connection, what was written and what is owed are the answers to the
requests that the responder was called for, in their order, and at most one error after them, which
is one answer with the status of the error; after a failed event, what was written is the front of
that. -/
theorem written_append_owed (h : Responder σ) (hh : h.AppendOnly) (fd : Fd) (state : σ)
    (events : List Event) :
    let s := run (accounted h) { client := { fd }, state := (state, []) } events
    (s.result = .ok () → s.written ++ s.client.owed = s.log.flatMap Entry.bytes) ∧
      s.written <+: s.log.flatMap Entry.bytes ∧
      s.state.2 = s.log.filter Entry.isCall ∧
      (∀ entry ∈ s.log.dropLast, entry.isAnswer = true) ∧
      ∀ entry ∈ s.log, entry.isAnswer = false →
        ∃ status, entry.error? = some status ∧ Reply.IsErrorAnswer entry.bytes status := by
  intro s
  have hb : s.Balanced :=
    (balanced_fresh fd (state, [])).run (hh.noted Entry.ofCall) events
  have ho : s.Orderly := (orderly_fresh fd state).run h events
  exact ⟨hb.balance, hb.written_prefix, ho.calls, ho.errors, fun _ => ho.error_of_not_isAnswer⟩

def pipeline : List Event :=
  [.readable .epoch [.bytes (Text.encode
      "GET / HTTP/1.1\r\n\r\nHEAD / HTTP/1.1\r\n\r\nGET /missing HTTP/1.1\r\n\r\n")],
    .writable .epoch [.everything, .everything] {}, .writable .epoch [] {},
    .writable .epoch [.everything] {}]

set_option maxRecDepth 4000 in
theorem run_pipeline :
    let s := run (accounted Site.onePage.responder) { client := { fd := 5 }, state := ([7, 8], []) }
      pipeline
    s.result = .ok () ∧ s.client.hasOutput = false ∧
      ∃ (r r' r'' : Request) (added added' : Bytes) (now : Timestamp),
        r.uri = "/" ∧ r'.uri = "/" ∧
        s.log = [.answered .get r added (Text.encode "hello"), .answered .head r' added' [],
          .declined .get r'' now .notFound] := by
  intro s
  obtain ⟨hok, hsent, hlog⟩ : s.result = .ok () ∧ s.client.hasOutput = false ∧
      s.log.map Entry.told? = [some (.get, "/", .ok (Text.encode "hello")),
        some (.head, "/", .ok []), some (.get, "/missing", .error .notFound)] := by decide +kernel
  obtain ⟨page, rest, hlog, hpage, hrest⟩ := List.map_eq_cons_iff.1 hlog
  obtain ⟨head, rest', rfl, hhead, hrest'⟩ := List.map_eq_cons_iff.1 hrest
  obtain ⟨missing, rfl, hmissing⟩ := List.map_eq_singleton_iff.1 hrest'
  obtain ⟨r, added, huri, rfl⟩ := Entry.answered_of_told? hpage
  obtain ⟨r', added', huri', rfl⟩ := Entry.answered_of_told? hhead
  obtain ⟨r'', now, -, rfl⟩ := Entry.declined_of_told? hmissing
  exact ⟨hok, hsent, r, r', r'', added, added', now, huri, huri', hlog⟩

/-- A page and its head, and behind them the error. -/
theorem written_append_owed_onePage :
    ∃ s r r' r'' added added' now, s = run (accounted Site.onePage.responder)
        { client := { fd := 5 }, state := ([7, 8], []) } pipeline ∧
      s.result = .ok () ∧
      s.log = [.answered .get r added (Text.encode "hello"), .answered .head r' added' [],
        .declined .get r'' now .notFound] ∧
      s.written ++ s.client.owed = added ++ Text.encode "hello" ++ (added' ++
        Entry.bytes (.declined .get r'' now .notFound)) ∧
      Reply.IsErrorAnswer (Entry.bytes (.declined .get r'' now .notFound)) .notFound := by
  obtain ⟨hok, -, r, r', r'', added, added', now, -, -, hlog⟩ := run_pipeline
  obtain ⟨hbalance, -, -, -, herrors⟩ := written_append_owed Site.onePage.responder
    Site.onePage.blind_responder.appendOnly 5 [7, 8] pipeline
  have hall := hbalance hok
  rw [hlog] at hall herrors
  obtain ⟨status, hstatus, hanswer⟩ := herrors (.declined .get r'' now .notFound) (by simp) rfl
  cases hstatus
  refine ⟨_, r, r', r'', added, added', now, rfl, hok, hlog, hall.trans ?_, hanswer⟩
  simp [Entry.bytes]

end Session

end HttpOrigin.Client
