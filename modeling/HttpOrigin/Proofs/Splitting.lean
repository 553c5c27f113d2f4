import HttpOrigin.Proofs.Exchange
import Mathlib.Data.List.Induction

/-! However a byte string is cut into pieces, the exchanges made of it are the same: the same
outcomes, the same calls of the responder and the same output, and without an error the same
unfinished request and the same input left. -/
namespace HttpOrigin.Exchange

variable {σ : Type}

/-- Calls `next` until it waits or fails: the outcomes before, and what the last call left. -/
def exhaust (h : Responder σ) (now : Timestamp) (stage : Stage) (input : ByteQueue)
    (outbox : Outbox) (state : σ) : List Outcome × Served σ :=
  let served := next h now stage input outbox state
  match _hr : served.result with
  | .error _ => ([], served)
  | .ok outcome =>
    if _ho : outcome = .pending then ([], served)
    else
      let (outcomes, last) := exhaust h now served.stage served.input served.outbox served.state
      (outcome :: outcomes, last)
termination_by 2 * input.length + stage.weight
decreasing_by exact length_input_lt _hr _ho

structure Feed (σ : Type) where
  outcomes : List Outcome := []
  failure : Option HttpError := none
  stage : Stage := .idle
  input : ByteQueue := .empty
  outbox : Outbox
  state : σ

namespace Feed

def push (h : Responder σ) (now : Timestamp) (f : Feed σ) (piece : Bytes) : Feed σ :=
  match f.failure with
  | some _ => f
  | none =>
    let (outcomes, last) := exhaust h now f.stage (f.input.append piece) f.outbox f.state
    { outcomes := f.outcomes ++ outcomes
      failure := match last.result with
        | .error e => some e
        | .ok _ => none
      stage := last.stage
      input := last.input
      outbox := last.outbox
      state := last.state }

def pushAll (h : Responder σ) (now : Timestamp) (f : Feed σ) (pieces : List Bytes) : Feed σ :=
  pieces.foldl (push h now) f

end Feed

/-! ### The same over plain byte strings -/

/-- What a feed shows, apart from the layout of its input. -/
structure Drained (σ : Type) where
  outcomes : List Outcome
  ending : Except HttpError (Stage × Bytes)
  outbox : Outbox
  state : σ

def Drained.prepend (outcomes : List Outcome) (d : Drained σ) : Drained σ :=
  { d with outcomes := outcomes ++ d.outcomes }

def drain (h : Responder σ) (now : Timestamp) (stage : Stage) (input : Bytes) (outbox : Outbox)
    (state : σ) : Drained σ :=
  match _ha : stage.advance input with
  | .waiting stage rest => ⟨[], .ok (stage, rest), outbox, state⟩
  | .refused e _ => ⟨[], .error e, outbox, state⟩
  | .request r rest =>
    let responded := h.forMethod r.method now r outbox state
    match responded.result with
    | .error status => ⟨[], .error (.responder status), responded.outbox, responded.state⟩
    | .ok () =>
      (drain h now .idle rest responded.outbox responded.state).prepend
        [if r.asksToClose then .close else .keepAlive]
termination_by 2 * input.length + stage.weight
decreasing_by exact Stage.length_rest_le _ha

section
variable {h : Responder σ} {now : Timestamp} {stage : Stage} {input rest : Bytes} {outbox : Outbox}
  {state : σ}

theorem drain_eq :
    drain h now stage input outbox state = match stage.advance input with
      | .waiting stage rest => ⟨[], .ok (stage, rest), outbox, state⟩
      | .refused e _ => ⟨[], .error e, outbox, state⟩
      | .request r rest =>
        let responded := h.forMethod r.method now r outbox state
        match responded.result with
        | .error status => ⟨[], .error (.responder status), responded.outbox, responded.state⟩
        | .ok () =>
          (drain h now .idle rest responded.outbox responded.state).prepend
            [if r.asksToClose then .close else .keepAlive] := by
  rw [drain]
  split <;> rename_i ha <;> exact ha ▸ rfl

theorem drain_of_waiting {stage' : Stage} (ha : stage.advance input = .waiting stage' rest) :
    drain h now stage input outbox state = ⟨[], .ok (stage', rest), outbox, state⟩ := by
  rw [drain_eq, ha]

theorem drain_of_refused {e : HttpError} (ha : stage.advance input = .refused e rest) :
    drain h now stage input outbox state = ⟨[], .error e, outbox, state⟩ := by
  rw [drain_eq, ha]

theorem drain_of_declined {r : Request} {status : Status}
    (ha : stage.advance input = .request r rest)
    (hr : (h.forMethod r.method now r outbox state).result = .error status) :
    drain h now stage input outbox state = ⟨[], .error (.responder status),
      (h.forMethod r.method now r outbox state).outbox,
      (h.forMethod r.method now r outbox state).state⟩ := by
  simp only [drain_eq, ha, hr]

theorem drain_of_answered {r : Request} (ha : stage.advance input = .request r rest)
    (hr : (h.forMethod r.method now r outbox state).result = .ok ()) :
    drain h now stage input outbox state =
      (drain h now .idle rest (h.forMethod r.method now r outbox state).outbox
        (h.forMethod r.method now r outbox state).state).prepend
        [if r.asksToClose then .close else .keepAlive] := by
  rw [drain_eq]
  simp only [ha, hr]

/-- Only the place where reading stops matters. -/
theorem drain_congr {stage' : Stage} {input' : Bytes}
    (ha : stage.advance input = stage'.advance input') :
    drain h now stage input outbox state = drain h now stage' input' outbox state := by
  rw [drain_eq, ha, ← drain_eq]

end

def Drained.extend (h : Responder σ) (now : Timestamp) (d : Drained σ) (more : Bytes) : Drained σ :=
  match d.ending with
  | .error _ => d
  | .ok (stage, rest) =>
    (drain h now stage (rest ++ more) d.outbox d.state).prepend d.outcomes

theorem Drained.extend_of_ok {h : Responder σ} {now : Timestamp} {d : Drained σ} {stage : Stage}
    {rest : Bytes} (hd : d.ending = .ok (stage, rest)) (more : Bytes) :
    d.extend h now more
      = (drain h now stage (rest ++ more) d.outbox d.state).prepend d.outcomes := by
  simp only [extend, hd]

theorem Drained.extend_prepend (h : Responder σ) (now : Timestamp) (d : Drained σ)
    (outcomes : List Outcome) (more : Bytes) :
    (d.prepend outcomes).extend h now more = (d.extend h now more).prepend outcomes := by
  unfold extend
  cases hd : d.ending with
  | error e => simp only [prepend, hd]
  | ok p => simp only [prepend, hd, List.append_assoc]

theorem drain_append (h : Responder σ) (now : Timestamp) (stage : Stage) (input more : Bytes)
    (outbox : Outbox) (state : σ) :
    drain h now stage (input ++ more) outbox state
      = (drain h now stage input outbox state).extend h now more := by
  fun_induction drain h now stage input outbox state with
  | case1 stage input outbox state stage' rest ha =>
    have happ := Stage.advance_append stage input more
    rw [ha] at happ
    exact drain_congr happ
  | case2 stage input outbox state e rest ha =>
    have happ := Stage.advance_append stage input more
    rw [ha] at happ
    exact drain_of_refused happ
  | case3 stage input outbox state r rest ha responded status hr =>
    have happ := Stage.advance_append stage input more
    rw [ha] at happ
    exact drain_of_declined happ hr
  | case4 stage input outbox state r rest ha responded hr ih =>
    have happ := Stage.advance_append stage input more
    rw [ha] at happ
    rw [Drained.extend_prepend, ← ih]
    exact drain_of_answered happ hr

theorem Drained.extend_extend (h : Responder σ) (now : Timestamp) (d : Drained σ)
    (first second : Bytes) :
    (d.extend h now first).extend h now second = d.extend h now (first ++ second) := by
  cases hd : d.ending with
  | error e => simp only [extend, hd]
  | ok p =>
    obtain ⟨stage, rest⟩ := p
    rw [extend_of_ok hd, extend_prepend, ← drain_append, List.append_assoc, extend_of_ok hd]

/-! ### Feeding a queue -/

def viewExhausted (p : List Outcome × Served σ) : Drained σ where
  outcomes := p.1
  ending := match p.2.result with
    | .error e => .error e
    | .ok _ => .ok (p.2.stage, p.2.input.toList)
  outbox := p.2.outbox
  state := p.2.state

section
variable {h : Responder σ} {now : Timestamp} {stage : Stage} {input : ByteQueue} {outbox : Outbox}
  {state : σ}

theorem exhaust_eq {served : Served σ} (hn : next h now stage input outbox state = served) :
    exhaust h now stage input outbox state = match served.result with
      | .error _ => ([], served)
      | .ok outcome =>
        if outcome = .pending then ([], served)
        else
          (outcome :: (exhaust h now served.stage served.input served.outbox served.state).1,
            (exhaust h now served.stage served.input served.outbox served.state).2) := by
  subst hn
  rw [exhaust]
  split <;> rename_i hr <;> rw [hr]
  rfl

end

theorem view_exhaust (h : Responder σ) (now : Timestamp) (stage : Stage) {input : ByteQueue}
    (outbox : Outbox) (state : σ) (hw : input.WellFormed) :
    viewExhausted (exhaust h now stage input outbox state)
        = drain h now stage input.toList outbox state ∧
      (exhaust h now stage input outbox state).2.input.WellFormed := by
  generalize hb : input.toList = bytes
  fun_induction drain h now stage bytes outbox state generalizing input with
  | case1 stage bytes outbox state stage' rest ha =>
    subst hb
    have hn : next h now stage input outbox state = _ := next_of_waiting ha
    rw [exhaust_eq hn]
    dsimp only
    rw [if_pos rfl]
    refine ⟨?_, wellFormed_leave hw rest⟩
    simp only [viewExhausted, toList_leave_waiting ha]
  | case2 stage bytes outbox state e rest ha =>
    subst hb
    have hn : next h now stage input outbox state = _ := next_of_refused ha
    rw [exhaust_eq hn]
    exact ⟨rfl, wellFormed_leave hw rest⟩
  | case3 stage bytes outbox state r rest ha responded status =>
    rename_i hr
    subst hb
    have hn := next_of_declined ha hr
    rw [exhaust_eq hn]
    exact ⟨rfl, wellFormed_leave hw rest⟩
  | case4 stage bytes outbox state r rest ha responded =>
    rename_i hr ih
    subst hb
    have hn := next_of_answered ha hr
    obtain ⟨hview, hleft⟩ := ih (wellFormed_leave hw rest) (toList_leave_request ha)
    have hgoes : (if r.asksToClose then Outcome.close else .keepAlive) ≠ .pending := by
      split <;> decide
    rw [exhaust_eq hn, ← hview]
    dsimp only
    rw [if_neg hgoes]
    exact ⟨rfl, hleft⟩

namespace Feed

def view (f : Feed σ) : Drained σ where
  outcomes := f.outcomes
  ending := match f.failure with
    | some e => .error e
    | none => .ok (f.stage, f.input.toList)
  outbox := f.outbox
  state := f.state

theorem view_push (h : Responder σ) (now : Timestamp) {f : Feed σ} (hw : f.input.WellFormed)
    (piece : Bytes) :
    (f.push h now piece).view = f.view.extend h now piece ∧
      (f.push h now piece).input.WellFormed := by
  cases hf : f.failure with
  | some e =>
    have hstop : f.push h now piece = f := by rw [push, hf]
    have hending : f.view.ending = .error e := by rw [view, hf]
    rw [hstop, Drained.extend, hending]
    exact ⟨rfl, hw⟩
  | none =>
    have hending : f.view.ending = .ok (f.stage, f.input.toList) := by rw [view, hf]
    obtain ⟨hview, hleft⟩ := view_exhaust h now f.stage f.outbox f.state (hw.append piece)
    rw [ByteQueue.toList_append hw] at hview
    rw [Drained.extend_of_ok hending, push, hf]
    refine ⟨?_, hleft⟩
    change _ = (drain h now f.stage (f.input.toList ++ piece) f.outbox f.state).prepend f.outcomes
    rw [← hview]
    cases hlast : (exhaust h now f.stage (f.input.append piece) f.outbox f.state).2.result with
    | error e => simp only [view, viewExhausted, Drained.prepend, hlast]
    | ok outcome => simp only [view, viewExhausted, Drained.prepend, hlast]

theorem view_pushAll (h : Responder σ) (now : Timestamp) {f : Feed σ} (hw : f.input.WellFormed)
    (pieces : List Bytes) :
    (f.pushAll h now pieces).view = pieces.foldl (Drained.extend h now) f.view := by
  induction pieces generalizing f with
  | nil => rfl
  | cons piece pieces ih =>
    obtain ⟨hview, hleft⟩ := view_push h now hw piece
    rw [List.foldl_cons, ← hview]
    exact ih hleft

end Feed

theorem Drained.foldl_extend (h : Responder σ) (now : Timestamp) (d : Drained σ)
    (pieces : List Bytes) (hd : d.extend h now [] = d) :
    pieces.foldl (extend h now) d = d.extend h now pieces.flatten := by
  induction pieces using List.reverseRecOn with
  | nil => exact hd.symm
  | append_singleton pieces piece ih =>
    rw [List.foldl_append, ih, List.foldl_cons, List.foldl_nil, extend_extend, List.flatten_append,
      List.flatten_singleton]

namespace Feed

theorem extend_start (h : Responder σ) (now : Timestamp) (outbox : Outbox) (state : σ) :
    ({ outbox, state } : Feed σ).view.extend h now [] = ({ outbox, state } : Feed σ).view := by
  have hd : ({ outbox, state } : Feed σ).view.ending = .ok (.idle, []) := rfl
  rw [Drained.extend_of_ok hd]
  exact congrArg (Drained.prepend []) (drain_of_waiting Stage.advance_nil)

theorem agree_of_view {f g : Feed σ} (hv : f.view = g.view) :
    f.outcomes = g.outcomes ∧ f.failure = g.failure ∧ f.state = g.state ∧ f.outbox = g.outbox ∧
      (g.failure = none → f.stage = g.stage ∧ f.input.toList = g.input.toList) := by
  rw [view, view, Drained.mk.injEq] at hv
  obtain ⟨houtcomes, hending, houtbox, hstate⟩ := hv
  cases hf : f.failure <;> cases hg : g.failure <;> simp_all

end Feed

/-- A fresh reader makes the same of a byte string given at once and of its pieces given one after
the other, each followed by all exchanges that it allows. -/
theorem pushAll_eq_push_flatten (h : Responder σ) (now : Timestamp) (outbox : Outbox) (state : σ)
    (pieces : List Bytes) :
    let start : Feed (σ × Responder.Calls) := { outbox, state := (state, []) }
    let cut := start.pushAll h.recorded now pieces
    let whole := start.push h.recorded now pieces.flatten
    cut.outcomes = whole.outcomes ∧ cut.failure = whole.failure ∧ cut.state = whole.state ∧
      cut.outbox = whole.outbox ∧
      (whole.failure = none → cut.stage = whole.stage ∧ cut.input.toList = whole.input.toList) := by
  intro start cut whole
  have hw : start.input.WellFormed := ByteQueue.wellFormed_empty
  have hview : cut.view = whole.view := by
    rw [Feed.view_pushAll h.recorded now hw, (Feed.view_push h.recorded now hw _).1]
    exact Drained.foldl_extend h.recorded now _ pieces
      (Feed.extend_start h.recorded now outbox (state, []))
  exact Feed.agree_of_view hview

end HttpOrigin.Exchange
