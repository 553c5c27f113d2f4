import HttpOrigin.Proofs.Exchange
import HttpOrigin.Proofs.LineReading

/-! A request that is waited for. While its pieces come in, a call is made after each, until one
ends other than waiting; what comes of it is where reading of all bytes together stops. The lines
that reading has gone through are told by a head and the bytes behind it. -/
namespace HttpOrigin

namespace Head

/-- The bytes are those of the lines that the head holds: any number of blank lines, then a request
line, then field lines, no more than may be. -/
inductive ReadFrom : Head → Bytes → Prop where
  | nothing : ReadFrom start []
  | blank {before line : Bytes} : ReadFrom start before → Line.Spells [] line →
      ReadFrom start (before ++ line)
  | opening {before line : Bytes} {m : Method} {uri : String} : ReadFrom start before →
      Line.Says (Request.OpenedBy · m uri) line →
      ReadFrom (fields { method := m, uri }) (before ++ line)
  | field {before line : Bytes} {r : Request} {name value : String} :
      ReadFrom (fields r) before → Line.Says (Fields.NamedBy · name value) line →
      r.fields.size < maxFields →
      ReadFrom (fields { r with fields := ⟨r.fields.entries ++ [(name, value)]⟩ }) (before ++ line)

/-- Reading from the beginning comes to the head and goes on from there. -/
theorem advance_of_readFrom {hd : Head} {before : Bytes} (h : hd.ReadFrom before) (w : Bytes) :
    Stage.idle.advance (before ++ w) = (Stage.head hd).advance w := by
  induction h generalizing w with
  | nothing => rfl
  | blank _ hline ih =>
    have hnext : next start (Text.decode []) = .head start := by
      rw [Text.decode_eq_empty_iff.2 rfl]
      rfl
    rw [List.append_assoc, ih, Stage.advance_of_spells hline, hnext]
  | opening _ hline ih =>
    obtain ⟨text, hspells, hopened⟩ := hline
    rw [List.append_assoc, ih, Stage.advance_of_spells hspells, next_start_of_opened hopened]
  | field _ hline hroom ih =>
    obtain ⟨text, hspells, hnamed⟩ := hline
    rw [List.append_assoc, ih, Stage.advance_of_spells hspells, next_fields_of_named hnamed hroom]

end Head

namespace Exchange
open ByteQueue (Inflow)

variable {σ : Type}

structure Awaited (σ : Type) where
  served : Served σ
  ahead : List Inflow

namespace Awaited

def left (a : Awaited σ) : Bytes := a.served.input.toList ++ a.ahead.flatMap Inflow.bytes

def Untouched (a : Awaited σ) (outbox : Outbox) (state : σ) : Prop :=
  a.served.outbox = outbox ∧ a.served.state = state

structure Refuses (a : Awaited σ) (e : HttpError) (left : Bytes) : Prop where
  result : a.served.result = .error e
  stage : a.served.stage = .idle
  left : a.left = left

structure Waits (a : Awaited σ) (stage : Stage) (left : Bytes) : Prop where
  result : a.served.result = .ok .pending
  stage : a.served.stage = stage
  left : a.served.input.toList = left
  ahead : a.ahead = []

structure Serves (a : Awaited (σ × Responder.Calls)) (r : Request) (responded : Responded σ)
    (left : Bytes) : Prop where
  state : a.served.state = (responded.state, [(r.method, r)])
  outbox : a.served.outbox = responded.outbox
  result : a.served.result = match responded.result with
    | .ok () => .ok (if r.asksToClose then .close else .keepAlive)
    | .error status => .error (.responder status)
  stage : a.served.stage = .idle
  left : a.left = left

end Awaited

/-- Calls before each piece comes in and after the last, until a call ends other than waiting. -/
def await (h : Responder σ) (now : Timestamp) (stage : Stage) (input : ByteQueue) (outbox : Outbox)
    (state : σ) : List Inflow → Awaited σ
  | [] => ⟨next h now stage input outbox state, []⟩
  | f :: fs =>
    let served := next h now stage input outbox state
    match served.result with
    | .ok .pending =>
      await h now served.stage (f.enter served.input) served.outbox served.state fs
    | _ => ⟨served, f :: fs⟩

section
variable {h : Responder σ} {now : Timestamp} {stage : Stage} {input : ByteQueue} {outbox : Outbox}
  {state : σ} {served : Served σ}

theorem await_of_pending (hn : next h now stage input outbox state = served)
    (hr : served.result = .ok .pending) (f : Inflow) (fs : List Inflow) :
    await h now stage input outbox state (f :: fs)
      = await h now served.stage (f.enter served.input) served.outbox served.state fs := by
  subst hn
  rw [await]
  simp only [hr]

theorem await_of_stop (hn : next h now stage input outbox state = served)
    (hr : served.result ≠ .ok .pending) (fs : List Inflow) :
    await h now stage input outbox state fs = ⟨served, fs⟩ := by
  subst hn
  cases fs with
  | nil => rfl
  | cons f fs =>
    rw [await]
    split
    · rename_i hpending
      exact absurd hpending hr
    · rfl

/-- What has come in and what has not are all pieces. -/
theorem exists_append_ahead (h : Responder σ) (now : Timestamp) (stage : Stage) (input : ByteQueue)
    (outbox : Outbox) (state : σ) (fs : List Inflow) :
    ∃ earlier, fs = earlier ++ (await h now stage input outbox state fs).ahead := by
  induction fs generalizing stage input outbox state with
  | nil => exact ⟨[], rfl⟩
  | cons f fs ih =>
    by_cases hr : (next h now stage input outbox state).result = .ok .pending
    · rw [await_of_pending rfl hr]
      obtain ⟨earlier, hall⟩ := ih _ _ _ _
      exact ⟨f :: earlier, congrArg (f :: ·) hall⟩
    · rw [await_of_stop rfl hr]
      exact ⟨[], rfl⟩

end

def Awaited.Meets (a : Awaited σ) (h : Responder σ) (now : Timestamp) (outbox : Outbox)
    (state : σ) : Stage.Stop → Prop
  | .waiting stage rest => a.Waits stage rest ∧ a.Untouched outbox state
  | .refused e rest => a.Refuses e rest ∧ a.Untouched outbox state
  | .request r rest => a.served = answer h now r a.served.input outbox state ∧ a.left = rest

section
variable {h : Responder σ} {now : Timestamp} {stage : Stage} {input : ByteQueue} {outbox : Outbox}
  {state : σ} {rest : Bytes}

theorem meets_await_of_refused {e : HttpError} (ha : stage.advance input.toList = .refused e rest)
    (fs : List Inflow) :
    (await h now stage input outbox state fs).Meets h now outbox state
      (.refused e (rest ++ fs.flatMap Inflow.bytes)) := by
  have hleft := toList_leave_rest stage input
  rw [ha, Stage.Stop.rest] at hleft
  rw [await_of_stop (next_of_refused ha) (by simp)]
  exact ⟨⟨rfl, rfl, congrArg (· ++ _) hleft⟩, rfl, rfl⟩

theorem meets_await_of_request {r : Request} (ha : stage.advance input.toList = .request r rest)
    (fs : List Inflow) :
    (await h now stage input outbox state fs).Meets h now outbox state
      (.request r (rest ++ fs.flatMap Inflow.bytes)) := by
  have hn : next h now stage input outbox state
      = answer h now r (leave input rest) outbox state := by
    simp only [next, ha]
  have hr : (answer h now r (leave input rest) outbox state).result ≠ .ok .pending := by
    rw [answer]
    dsimp only
    split
    · split <;> simp
    · simp
  rw [await_of_stop hn hr]
  exact ⟨rfl, congrArg (· ++ _) (toList_leave_request ha)⟩

end

/-- The pieces make no difference: what comes of the calls is told by where reading all of the bytes
stops. -/
theorem meets_await (h : Responder σ) (now : Timestamp) (stage : Stage) {input : ByteQueue}
    (hw : input.WellFormed) (outbox : Outbox) (state : σ) (fs : List Inflow) :
    (await h now stage input outbox state fs).Meets h now outbox state
      (stage.advance (input.toList ++ fs.flatMap Inflow.bytes)) := by
  -- A call that waits leaves a stage that goes on as the one before would with more bytes.
  induction fs generalizing stage input with
  | nil =>
    rw [List.flatMap_nil, List.append_nil]
    cases ha : stage.advance input.toList with
    | waiting stage' rest =>
      have hn : next h now stage input outbox state = _ := next_of_waiting ha
      rw [await, hn]
      exact ⟨⟨rfl, rfl, toList_leave_waiting ha, rfl⟩, rfl, rfl⟩
    | refused e rest => simpa using meets_await_of_refused ha []
    | request r rest => simpa using meets_await_of_request ha []
  | cons f fs ih =>
    rw [Stage.advance_append]
    cases ha : stage.advance input.toList with
    | waiting stage' rest =>
      have hn : next h now stage input outbox state = _ := next_of_waiting ha
      have hleft := wellFormed_leave hw rest
      have hmeets := ih stage' (hleft.enter f)
      rw [ByteQueue.toList_enter hleft, toList_leave_waiting ha, List.append_assoc,
        ← List.flatMap_cons] at hmeets
      rwa [await_of_pending hn rfl]
    | refused e rest => exact meets_await_of_refused ha (f :: fs)
    | request r rest => exact meets_await_of_request ha (f :: fs)

theorem serves_of_meets {h : Responder σ} {now : Timestamp} {outbox : Outbox} {state : σ}
    {r : Request} {rest : Bytes} {a : Awaited (σ × Responder.Calls)}
    (ha : a.Meets h.recorded now outbox (state, []) (.request r rest)) :
    a.Serves r (h.forMethod r.method now r outbox state) rest := by
  obtain ⟨hserved, hleft⟩ := ha
  rw [answer, Responder.recorded, Responder.forMethod_noted] at hserved
  exact ⟨congrArg Served.state hserved, congrArg Served.outbox hserved,
    congrArg Served.result hserved, congrArg Served.stage hserved, hleft⟩

end Exchange

end HttpOrigin
