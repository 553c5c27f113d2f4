import HttpOrigin.Proofs.CallAnswers
import HttpOrigin.Proofs.Interest
import HttpOrigin.Proofs.Unnumbered
import Mathlib.Data.List.Chain

/-! Clients do not interfere. From the moment a socket is accepted, what happens to its connection
is settled by its own events and the answers that its own calls get. What other clients do, before,
in between or meanwhile, has no part in it. -/
namespace HttpOrigin

/-! ### Moments of a run -/

def Action.closes (fd : Fd) : Action → Bool
  | .closed g => g == fd
  | .accepted _ | .served _ _ _ => false

def Action.written : Action → Bytes
  | .served _ _ written => written
  | .accepted _ | .closed _ => []

namespace Origin

variable {σ : Type}

structure Moment (σ : Type) where
  origin : Origin σ
  around : Surroundings
  event : Event

structure Stimulus where
  readable : Bool
  writable : Bool
  now : Timestamp
  reads : List (Except Fault Bytes)
  writes : List (Except Fault Nat)
  deriving DecidableEq

/-- What an event makes of a connection. The number of its file is left out. -/
structure Effect where
  before : Option Client
  after : Option Client
  written : Bytes
  closed : Bool
  interest : Option Interest

namespace Moment

def after (m : Moment σ) : Origin σ := (m.origin.onEvent m.event m.around).1

def actions (m : Moment σ) : List Action := (m.origin.onEvent m.event m.around).2

def reads (m : Moment σ) (c : Client) : List (Except Fault Bytes) :=
  if m.event.readable then c.readAnswers (m.around.reads m.event.fd) else []

def writes (m : Moment σ) (c : Client) : List (Except Fault Nat) :=
  let read := m.origin.afterReads m.event c m.around
  if read.result.isOk && m.event.writable then
    read.client.writeAnswers (m.around.writes m.event.fd)
  else []

def stimulus (m : Moment σ) : Stimulus where
  readable := m.event.readable
  writable := m.event.writable
  now := m.around.now
  reads := m.origin.clients[m.event.fd]?.elim [] m.reads
  writes := m.origin.clients[m.event.fd]?.elim [] m.writes

def effect (fd : Fd) (m : Moment σ) : Effect where
  before := m.origin.clients[fd]?.map Client.unnumbered
  after := m.after.clients[fd]?.map Client.unnumbered
  written := m.actions.flatMap Action.written
  closed := m.actions.any (Action.closes fd)
  interest := m.after.readiness.armed[fd]?

end Moment

def eventMoments (s : Origin σ) (t : Surroundings) : List Event → List (Moment σ)
  | [] => []
  | e :: events => ⟨s, t, e⟩ :: (s.onEvent e t).1.eventMoments t events

def moments (s : Origin σ) : List Turn → List (Moment σ)
  | [] => []
  | u :: turns => (s.awaited u).eventMoments u.around (s.eventsOf u) ++ (s.turn u).moments turns

/-- The events of a descriptor up to the one that closes it. -/
def story (fd : Fd) : List (Moment σ) → List (Moment σ)
  | [] => []
  | m :: ms =>
    if m.event.fd = fd then m :: if m.actions.any (Action.closes fd) then [] else story fd ms
    else story fd ms

/-- In a run of a site in which the kernel gives out only numbers that are not in use, and enough of
them for all files, a socket is accepted under this number at one moment, and others follow. -/
def AcceptedAt (site : Site) (fd : Fd) (m : Moment (List Fd)) (later : List (Moment (List Fd))) :
    Prop :=
  ∃ listener opens turns earlier,
    let s := listening listener site.responder opens
    s.runFresh turns = true ∧ (s.run turns).state ≠ [] ∧
      s.moments turns = earlier ++ m :: later ∧ .accepted fd ∈ m.actions

end Origin

/-! ### A connection alone -/

theorem Client.isOver_unnumbered (c : Client) : c.unnumbered.isOver = c.isOver := by
  cases hs : c.stream <;> simp [isOver, unnumbered, hs]

theorem Client.interest_unnumbered (c : Client) : c.unnumbered.interest = c.interest := by
  cases hs : c.stream <;> simp [interest, hasOutput, awaitsInput, unnumbered, hs]

/-- Neither a file's number nor anything but the answers counts. -/
theorem Client.react_alone (s : Site) (c : Client) (opens : List Fd) (e : Event)
    (hleft : (c.react s.responder opens e).state ≠ []) :
    c.unnumbered.react s.numberless () (e.answered c).bare =
      ⟨(c.react s.responder opens e).result, (c.react s.responder opens e).client.unnumbered,
        (c.react s.responder opens e).written, ()⟩ := by
  rw [← c.react_answered s.responder opens e] at hleft ⊢
  exact react_unnumbered s c opens (e.answered c) hleft

namespace Site
open Origin

def attendReads (s : Site) (c : Client) (x : Stimulus) : Client.Reaction Unit :=
  if x.readable then c.react s.numberless () (.readable x.now (x.reads.map .ofAnswer))
  else ⟨.ok (), c, [], ()⟩

def attendWrites (s : Site) (c : Client) (x : Stimulus) : Client.Reaction Unit :=
  let read := s.attendReads c x
  if read.result.isOk && x.writable then
    read.client.react s.numberless () (.writable x.now (x.writes.map .ofAnswer) {})
  else ⟨read.result, read.client, [], ()⟩

/-- What an event comes to when there is nothing but the site, the connection and the stimulus. -/
def attended (s : Site) (c : Client) (x : Stimulus) : Effect :=
  let wrote := s.attendWrites c x
  if !wrote.result.isOk || wrote.client.isOver then
    { before := some c, after := none, written := wrote.written, closed := true, interest := none }
  else
    { before := some c
      after := some wrote.client
      written := wrote.written
      closed := false
      interest := some wrote.client.interest }

def alone (s : Site) (c : Client) : List Stimulus → List Effect
  | [] => []
  | x :: xs =>
    s.attended c x :: match (s.attended c x).after with
      | some c' => s.alone c' xs
      | none => []

theorem alone_take (s : Site) (c : Client) (xs : List Stimulus) (n : Nat) :
    (s.alone c xs).take n = s.alone c (xs.take n) := by
  induction xs generalizing c n with
  | nil => simp [alone]
  | cons x xs ih =>
    cases n with
    | zero => simp [alone]
    | succ n =>
      rw [List.take_succ_cons, alone, alone, List.take_succ_cons]
      cases (s.attended c x).after with
      | none => rw [List.take_nil]
      | some c' => rw [ih c' n]

/-- The connection is gone exactly if it was closed. -/
theorem closed_attended (s : Site) (c : Client) (x : Stimulus) :
    (s.attended c x).closed = (s.attended c x).after.isNone := by
  rw [attended]
  split <;> rfl

end Site

namespace Origin
variable {σ : Type}

/-! ### What stays the same -/

section
variable {s : Origin σ}

theorem acceptWaiting_frame (s : Origin σ) (instant : Instant) (accepts : List (Except Fault Fd)) :
    let s' := (s.acceptWaiting instant accepts).1
    s'.listener = s.listener ∧ s'.responder = s.responder ∧ s'.state = s.state := by
  induction accepts generalizing s with
  | nil => exact ⟨rfl, rfl, rfl⟩
  | cons a rest ih =>
    cases a with
    | ok fd => exact ih (s.takeIn fd)
    | error f =>
      cases f with
      | interrupted => exact ih s
      | _ => exact ⟨rfl, rfl, rfl⟩

theorem close_frame (s : Origin σ) (c : Client) :
    (s.close c).responder = s.responder ∧ (s.close c).state = s.state := by
  rw [close]
  dsimp only
  split <;> exact ⟨rfl, rfl⟩

theorem serve_frame (s : Origin σ) (e : Event) (c : Client) (t : Surroundings) :
    (s.serve e c t).1.responder = s.responder ∧
      (s.serve e c t).1.state = (s.afterWrites e c t).state := by
  rw [serve_eq]
  dsimp only
  split
  · exact close_frame _ _
  · exact ⟨rfl, rfl⟩

/-- Everything an event can come to. -/
theorem onEvent_cases (s : Origin σ) (e : Event) (t : Surroundings) :
    (e.fd = s.listener ∧ e.readable = true ∧
      s.onEvent e t = s.acceptWaiting t.serving t.accepts) ∨
    (∃ c, e.fd ≠ s.listener ∧ s.clients[e.fd]? = some c ∧ s.onEvent e t = s.serve e c t) ∨
    s.onEvent e t = (s, []) := by
  rw [onEvent, Std.TreeMap.get?_eq_getElem?]
  by_cases he : e.fd = s.listener
  · rw [if_pos he]
    cases hr : e.readable with
    | true => exact .inl ⟨he, rfl, rfl⟩
    | false => exact .inr (.inr rfl)
  · rw [if_neg he]
    cases hc : s.clients[e.fd]? with
    | some c => exact .inr (.inl ⟨c, he, rfl, rfl⟩)
    | none => exact .inr (.inr rfl)

theorem onEvent_of_client {e : Event} {c : Client} (he : e.fd ≠ s.listener)
    (hc : s.clients[e.fd]? = some c) (t : Surroundings) : s.onEvent e t = s.serve e c t := by
  rw [onEvent, if_neg he, Std.TreeMap.get?_eq_getElem?, hc]

theorem listener_frame (s : Origin σ) (e : Event) (t : Surroundings) :
    (s.onEvent e t).1.listener = s.listener := by
  obtain ⟨-, -, h⟩ | ⟨c, he, -, -⟩ | h := s.onEvent_cases e t
  · rw [h]
    exact (s.acceptWaiting_frame t.serving t.accepts).1
  · exact listener_onEvent he
  · rw [h]

theorem responder_onEvent (s : Origin σ) (e : Event) (t : Surroundings) :
    (s.onEvent e t).1.responder = s.responder := by
  obtain ⟨-, -, h⟩ | ⟨c, -, -, h⟩ | h := s.onEvent_cases e t
  · rw [h]
    exact (s.acceptWaiting_frame t.serving t.accepts).2.1
  · rw [h]
    exact (s.serve_frame e c t).1
  · rw [h]

theorem responder_onEvents (s : Origin σ) (t : Surroundings) (events : List Event) :
    (s.onEvents t events).1.responder = s.responder := by
  induction events generalizing s with
  | nil => rfl
  | cons e events ih => exact (ih (s.onEvent e t).1).trans (s.responder_onEvent e t)

theorem beforeWait_frame (s : Origin σ) (timeout : Option Nat) (entered bounded : Instant) :
    let s' := (s.beforeWait timeout entered bounded).1
    s'.clients = s.clients ∧ s'.responder = s.responder ∧ s'.state = s.state := by
  rw [beforeWait]
  split
  · exact ⟨rfl, rfl, rfl⟩
  · split <;> exact ⟨rfl, rfl, rfl⟩

theorem responder_turn (s : Origin σ) (u : Turn) : (s.turn u).responder = s.responder := by
  obtain ⟨-, hresponder, -⟩ := s.beforeWait_frame u.timeout u.around.entered u.around.bounded
  exact ((s.awaited u).responder_onEvents u.around (s.eventsOf u)).trans hresponder

end

/-! ### Numbers for files -/

section
variable {site : Site} {s : Origin (List Fd)}

theorem state_afterReads_suffix (hr : s.responder = site.responder) (e : Event) (c : Client)
    (t : Surroundings) : (s.afterReads e c t).state <:+ s.state := by
  rw [afterReads]
  split
  · rw [hr]
    exact Client.react_suffix site c s.state (.readable t.now (t.reads e.fd))
  · exact List.suffix_rfl

theorem state_afterWrites_suffix (hr : s.responder = site.responder) (e : Event) (c : Client)
    (t : Surroundings) : (s.afterWrites e c t).state <:+ (s.afterReads e c t).state := by
  rw [afterWrites]
  split
  · rw [hr]
    exact Client.react_suffix site _ _ (.writable t.now (t.writes e.fd) s.readiness)
  · exact List.suffix_rfl

theorem state_onEvent_suffix (hr : s.responder = site.responder) (e : Event) (t : Surroundings) :
    (s.onEvent e t).1.state <:+ s.state := by
  obtain ⟨-, -, h⟩ | ⟨c, -, -, h⟩ | h := s.onEvent_cases e t
  · simp only [h, (s.acceptWaiting_frame t.serving t.accepts).2.2, List.suffix_rfl]
  · rw [h, (s.serve_frame e c t).2]
    exact (state_afterWrites_suffix hr e c t).trans (state_afterReads_suffix hr e c t)
  · simp only [h, List.suffix_rfl]

theorem state_onEvents_suffix (hr : s.responder = site.responder) (t : Surroundings)
    (events : List Event) : (s.onEvents t events).1.state <:+ s.state := by
  induction events generalizing s with
  | nil => exact List.suffix_rfl
  | cons e events ih =>
    have hnext := (s.responder_onEvent e t).trans hr
    exact (ih hnext).trans (state_onEvent_suffix hr e t)

theorem state_turn_suffix (hr : s.responder = site.responder) (u : Turn) :
    (s.turn u).state <:+ s.state := by
  obtain ⟨-, hresponder, hstate⟩ := s.beforeWait_frame u.timeout u.around.entered u.around.bounded
  have hturn := state_onEvents_suffix (s := s.awaited u) (hresponder.trans hr) u.around
    (s.eventsOf u)
  exact hstate ▸ hturn

theorem state_run_suffix (hr : s.responder = site.responder) (turns : List Turn) :
    (s.run turns).state <:+ s.state := by
  induction turns generalizing s with
  | nil => exact List.suffix_rfl
  | cons u turns ih =>
    have hnext := (responder_turn s u).trans hr
    exact (ih hnext).trans (state_turn_suffix hr u)

end

/-! ### A run told by its moments -/

structure Moment.Orderly (site : Site) (m : Moment (List Fd)) : Prop where
  coherent : m.origin.Coherent
  fresh : m.origin.eventFresh m.around m.event = true
  responder : m.origin.responder = site.responder
  left : m.after.state ≠ []

/-- From one moment to the next no client changes. -/
inductive Unfolds (site : Site) : Origin (List Fd) → List (Moment (List Fd)) → Prop
  | nil {s} : Unfolds site s []
  | cons {s m ms} : m.origin.clients = s.clients → m.Orderly site → Unfolds site m.after ms →
    Unfolds site s (m :: ms)

section
variable {site : Site} {s : Origin (List Fd)}

theorem Unfolds.congr {s' : Origin (List Fd)} {ms : List (Moment (List Fd))}
    (h : Unfolds site s ms) (hs : s.clients = s'.clients) : Unfolds site s' ms := by
  cases h with
  | nil => exact .nil
  | cons hm horderly hrest => exact .cons (hm.trans hs) horderly hrest

theorem unfolds_eventMoments (hs : s.Coherent) (hr : s.responder = site.responder)
    {t : Surroundings} {events : List Event} {ms : List (Moment (List Fd))}
    (hk : s.eventsFresh t events = true) (hleft : (s.onEvents t events).1.state ≠ [])
    (hms : Unfolds site (s.onEvents t events).1 ms) :
    Unfolds site s (s.eventMoments t events ++ ms) := by
  induction events generalizing s with
  | nil => exact hms
  | cons e events ih =>
    rw [eventsFresh, Bool.and_eq_true] at hk
    have hnext := (s.responder_onEvent e t).trans hr
    have hhere := ne_nil_of_suffix (state_onEvents_suffix hnext t events) hleft
    exact .cons rfl ⟨hs, hk.1, hr, hhere⟩ (ih (hs.onEvent hk.1) hnext hk.2 hleft hms)

theorem unfolds_moments (hs : s.Coherent) (hr : s.responder = site.responder) {turns : List Turn}
    (hk : s.runFresh turns = true) (hleft : (s.run turns).state ≠ []) :
    Unfolds site s (s.moments turns) := by
  induction turns generalizing s with
  | nil => exact .nil
  | cons u turns ih =>
    rw [runFresh, Bool.and_eq_true] at hk
    obtain ⟨hclients, hresponder, -⟩ :=
      s.beforeWait_frame u.timeout u.around.entered u.around.bounded
    have hnext := (responder_turn s u).trans hr
    have hturn := ne_nil_of_suffix (state_run_suffix hnext turns) hleft
    have hrest := ih (hs.turn hk.1) hnext hk.2 hleft
    exact (unfolds_eventMoments (hs.awaited u) (hresponder.trans hr) hk.1 hturn hrest).congr
      hclients

theorem Unfolds.of_append {m : Moment (List Fd)} {earlier later : List (Moment (List Fd))}
    (h : Unfolds site s (earlier ++ m :: later)) : m.Orderly site ∧ Unfolds site m.after later := by
  induction earlier generalizing s with
  | nil =>
    cases h with
    | cons _ horderly hrest => exact ⟨horderly, hrest⟩
  | cons _ earlier ih =>
    cases h with
    | cons _ _ hrest => exact ih hrest

theorem Unfolds.orderly {ms : List (Moment (List Fd))} (h : Unfolds site s ms) :
    ∀ m ∈ ms, m.Orderly site := by
  induction h with
  | nil => simp
  | cons _ horderly _ ih =>
    rw [List.forall_mem_cons]
    exact ⟨horderly, ih⟩

/-- Waiting, and whatever else lies between two events, changes no client. -/
theorem Unfolds.chain {m : Moment (List Fd)} {ms : List (Moment (List Fd))}
    (h : Unfolds site m.after ms) :
    (m :: ms).IsChain fun m m' => m'.origin.clients = m.after.clients := by
  induction ms generalizing m with
  | nil => exact .singleton m
  | cons m' ms ih =>
    cases h with
    | cons hclients _ hrest => exact .cons_cons hclients (ih hrest)

theorem AcceptedAt.accepted {fd : Fd} {m : Moment (List Fd)} {later : List (Moment (List Fd))}
    (h : AcceptedAt site fd m later) : .accepted fd ∈ m.actions := by
  obtain ⟨_, _, _, _, -, -, -, haccepted⟩ := h
  exact haccepted

theorem AcceptedAt.orderly {fd : Fd} {m : Moment (List Fd)} {later : List (Moment (List Fd))}
    (h : AcceptedAt site fd m later) : m.Orderly site ∧ Unfolds site m.after later := by
  obtain ⟨listener, opens, turns, earlier, hk, hleft, hms, -⟩ := h
  have hall := unfolds_moments (coherent_listening listener site.responder opens) rfl hk hleft
  rw [hms] at hall
  exact hall.of_append

end

/-! ### What others do -/

section
variable {s : Origin σ} {fd : Fd} {c : Client}

theorem acceptsFresh_cons {accepted : Fd} {rest : List (Except Fault Fd)}
    (hk : s.acceptsFresh (.ok accepted :: rest) = true) :
    accepted ∉ s.openFds ∧ (s.takeIn accepted).acceptsFresh rest = true := by
  rw [acceptsFresh, Bool.and_eq_true] at hk
  exact ⟨by simpa using hk.1, hk.2⟩

theorem clients_takeIn (s : Origin σ) (accepted : Fd) :
    (s.takeIn accepted).clients[fd]?
      = if accepted = fd then some { fd := accepted } else s.clients[fd]? :=
  get_insert s.clients { fd := accepted } fd

/-- A new connection takes no one's place. -/
theorem clients_acceptWaiting (hc : s.clients[fd]? = some c) (instant : Instant)
    {accepts : List (Except Fault Fd)} (hk : s.acceptsFresh accepts = true) :
    (s.acceptWaiting instant accepts).1.clients[fd]? = some c := by
  induction accepts generalizing s with
  | nil => exact hc
  | cons a rest ih =>
    cases a with
    | ok accepted =>
      obtain ⟨hnew, hrest⟩ := acceptsFresh_cons hk
      have hne : accepted ≠ fd := by
        rintro rfl
        exact hnew (mem_openFds.2 (.inr ⟨accepted, c, hc, .inl rfl⟩))
      have hkept : (s.takeIn accepted).clients[fd]? = some c := by
        rw [clients_takeIn, if_neg hne, hc]
      exact ih hkept hrest
    | error f =>
      cases f with
      | interrupted => exact ih hc hk
      | _ => exact hc

theorem clients_of_accepted (instant : Instant) {accepts : List (Except Fault Fd)}
    (hk : s.acceptsFresh accepts = true)
    (ha : .accepted fd ∈ (s.acceptWaiting instant accepts).2) :
    (s.acceptWaiting instant accepts).1.clients[fd]? = some { fd } := by
  induction accepts generalizing s with
  | nil => cases ha
  | cons a rest ih =>
    cases a with
    | ok accepted =>
      obtain ⟨-, hrest⟩ := acceptsFresh_cons hk
      rw [acceptWaiting, List.mem_cons] at ha
      cases ha with
      | inl hfirst =>
        cases hfirst
        have hhere : (s.takeIn fd).clients[fd]? = some { fd } := by
          rw [clients_takeIn, if_pos rfl]
        exact clients_acceptWaiting hhere instant hrest
      | inr hlater => exact ih hrest hlater
    | error f =>
      cases f with
      | interrupted => exact ih hk ha
      | _ => cases ha

theorem actions_serve (s : Origin σ) (e : Event) (c : Client) (t : Surroundings) :
    (s.serve e c t).2 =
      let wrote := s.afterWrites e c t
      let served := .served e.fd (s.afterReads e c t).unread wrote.written
      if !wrote.result.isOk || wrote.client.isOver then [served, .closed e.fd] else [served] := by
  rw [serve]
  exact apply_ite Prod.snd _ _ _

theorem not_accepted_serve (s : Origin σ) (e : Event) (c : Client) (t : Surroundings) :
    .accepted fd ∉ (s.serve e c t).2 := by
  rw [actions_serve]
  dsimp only
  split <;> simp

end

namespace Moment.Orderly
variable {site : Site} {m : Moment (List Fd)} {fd : Fd} {c : Client}

theorem coherent_after (h : m.Orderly site) : m.after.Coherent := h.coherent.onEvent h.fresh

theorem ne_listener (h : m.Orderly site) (hc : m.origin.clients[fd]? = some c) :
    fd ≠ m.origin.listener := by
  rintro rfl
  rw [h.coherent.listener] at hc
  cases hc

theorem interest_after (h : m.Orderly site) (hfd : fd ≠ m.origin.listener) :
    m.after.readiness.armed[fd]? = m.after.clients[fd]?.map Client.interest := by
  have hlistener : m.after.listener = m.origin.listener := m.origin.listener_frame m.event m.around
  rw [h.coherent_after.armed, entry, hlistener, if_neg hfd]

/-- A socket is taken in as a new connection. -/
theorem clients_of_accepted (h : m.Orderly site) (ha : .accepted fd ∈ m.actions) :
    m.after.clients[fd]? = some { fd } := by
  have hk := h.fresh
  rw [Moment.actions] at ha
  rw [Moment.after]
  obtain ⟨he, hr, hm⟩ | ⟨c, -, -, hm⟩ | hm := m.origin.onEvent_cases m.event m.around
  · rw [eventFresh, if_pos he, hr, Bool.not_true, Bool.false_or] at hk
    rw [hm] at ha ⊢
    exact Origin.clients_of_accepted m.around.serving hk ha
  · rw [hm] at ha
    exact absurd ha (not_accepted_serve m.origin m.event c m.around)
  · rw [hm] at ha
    cases ha

theorem clients_of_other (h : m.Orderly site) (hc : m.origin.clients[fd]? = some c)
    (hfd : m.event.fd ≠ fd) : m.after.clients[fd]? = some c := by
  have hk := h.fresh
  rw [Moment.after]
  obtain ⟨he, hr, hm⟩ | ⟨d, he, -, -⟩ | hm := m.origin.onEvent_cases m.event m.around
  · rw [eventFresh, if_pos he, hr, Bool.not_true, Bool.false_or] at hk
    rw [hm]
    exact clients_acceptWaiting hc m.around.serving hk
  · rw [h.coherent.clients_onEvent he hfd.symm, hc]
  · rw [hm, hc]

/-- An event of another descriptor, the listener included, leaves a connection and its interest
alone. -/
theorem alone_of_other (h : m.Orderly site) (hc : m.origin.clients[fd]? = some c)
    (hfd : m.event.fd ≠ fd) :
    m.after.clients[fd]? = m.origin.clients[fd]? ∧
      m.after.readiness.armed[fd]? = m.origin.readiness.armed[fd]? := by
  have hkept := h.clients_of_other hc hfd
  have hlistener := h.ne_listener hc
  constructor
  · rw [hkept, hc]
  · rw [h.interest_after hlistener, hkept, h.coherent.armed, entry, if_neg hlistener, hc]

/-! ### What a connection's own events do -/

theorem onEvent_eq (h : m.Orderly site) (hc : m.origin.clients[fd]? = some c)
    (hfd : m.event.fd = fd) :
    m.origin.onEvent m.event m.around = m.origin.serve m.event c m.around := by
  subst hfd
  exact onEvent_of_client (h.ne_listener hc) hc m.around

theorem left_afterWrites (h : m.Orderly site) (hc : m.origin.clients[fd]? = some c)
    (hfd : m.event.fd = fd) : (m.origin.afterWrites m.event c m.around).state ≠ [] := by
  have hleft := h.left
  rw [Moment.after, h.onEvent_eq hc hfd, (serve_frame _ _ _ _).2] at hleft
  exact hleft

theorem attendReads_eq (h : m.Orderly site) (hc : m.origin.clients[fd]? = some c)
    (hfd : m.event.fd = fd) :
    let read := m.origin.afterReads m.event c m.around
    site.attendReads c.unnumbered m.stimulus = ⟨read.result, read.client.unnumbered, [], ()⟩ := by
  intro read
  have hleft : read.state ≠ [] := ne_nil_of_suffix
    (state_afterWrites_suffix h.responder m.event c m.around) (h.left_afterWrites hc hfd)
  have hreads : m.stimulus.reads = m.reads c := by simp [stimulus, hfd, hc]
  have hreadable : m.stimulus.readable = m.event.readable := rfl
  rw [Site.attendReads, hreads, hreadable, Moment.reads]
  simp only [read] at hleft ⊢
  rw [afterReads] at hleft ⊢
  cases hr : m.event.readable with
  | false => rfl
  | true =>
    simp only [hr, if_true, h.responder] at hleft ⊢
    exact c.react_alone site m.origin.state
      (.readable m.around.now (m.around.reads m.event.fd)) hleft

theorem attendWrites_eq (h : m.Orderly site) (hc : m.origin.clients[fd]? = some c)
    (hfd : m.event.fd = fd) :
    let wrote := m.origin.afterWrites m.event c m.around
    site.attendWrites c.unnumbered m.stimulus
      = ⟨wrote.result, wrote.client.unnumbered, wrote.written, ()⟩ := by
  have hleft := h.left_afterWrites hc hfd
  have hwrites : m.stimulus.writes = m.writes c := by simp [stimulus, hfd, hc]
  have hwritable : m.stimulus.writable = m.event.writable := rfl
  intro wrote
  rw [Site.attendWrites, h.attendReads_eq hc hfd, hwrites, hwritable, Moment.writes]
  simp only [wrote]
  rw [afterWrites] at hleft ⊢
  cases hw : (m.origin.afterReads m.event c m.around).result.isOk && m.event.writable with
  | false => simp
  | true =>
    simp only [hw, if_true, h.responder] at hleft ⊢
    exact Client.react_alone site _ _
      (.writable m.around.now (m.around.writes m.event.fd) m.origin.readiness) hleft

theorem effect_eq (h : m.Orderly site) (hc : m.origin.clients[fd]? = some c)
    (hfd : m.event.fd = fd) : m.effect fd = site.attended c.unnumbered m.stimulus := by
  have hclient : (m.origin.afterWrites m.event c m.around).client.fd = fd :=
    (m.origin.fd_afterWrites m.event c m.around).trans (h.coherent.keyed hc)
  have hover : (m.origin.afterWrites m.event c m.around).client.unnumbered.isOver
      = (m.origin.afterWrites m.event c m.around).client.isOver := Client.isOver_unnumbered _
  rw [Moment.effect, h.interest_after (h.ne_listener hc), Moment.actions, Moment.after,
    h.onEvent_eq hc hfd, actions_serve, serve_eq, Site.attended, h.attendWrites_eq hc hfd, hc, hfd]
  dsimp only
  rw [hover]
  split
  · simp [clients_close, hclient, Action.written, Action.closes]
  · simp [hclient, Action.written, Action.closes, Client.interest_unnumbered]

end Moment.Orderly

/-! ### The story of a connection -/

section
variable {site : Site} {fd : Fd} {s : Origin (List Fd)} {ms : List (Moment (List Fd))}

/-- A connection goes through what it would go through alone. -/
theorem Unfolds.effects_story (h : Unfolds site s ms) {c : Client} (hc : s.clients[fd]? = some c) :
    (story fd ms).map (Moment.effect fd)
      = site.alone c.unnumbered ((story fd ms).map Moment.stimulus) := by
  induction h generalizing c with
  | nil => rfl
  | @cons s m ms hclients horderly hrest ih =>
    rw [← hclients] at hc
    rw [story]
    by_cases hfd : m.event.fd = fd
    · have heffect := horderly.effect_eq hc hfd
      have hcloses : m.actions.any (Action.closes fd) = (m.effect fd).after.isNone := by
        have hattended := site.closed_attended c.unnumbered m.stimulus
        rwa [← heffect] at hattended
      rw [if_pos hfd, List.map_cons, List.map_cons, Site.alone, ← heffect, hcloses]
      congr 1
      have hafter : (m.effect fd).after = m.after.clients[fd]?.map Client.unnumbered := rfl
      rw [hafter]
      cases hclient : m.after.clients[fd]? with
      | none => rfl
      | some c' => exact ih hclient
    · rw [if_neg hfd]
      exact ih (horderly.clients_of_other hc hfd)

end

/-- Two runs of a site in which a socket is accepted under the same number, with whatever else
going on: as long as the connection's events and what its calls answer are the same, it goes through
the same states, sends the same, waits for the same, and is closed in the same event. Nothing but
its own events changes it or what it waits for, neither another event nor what lies between. -/
theorem effects_eq_of_stimuli_eq (site : Site) (fd : Fd) {m₁ m₂ : Moment (List Fd)}
    {later₁ later₂ : List (Moment (List Fd))} (h₁ : AcceptedAt site fd m₁ later₁)
    (h₂ : AcceptedAt site fd m₂ later₂) :
    m₁.after.clients[fd]? = some { fd } ∧ m₂.after.clients[fd]? = some { fd } ∧
    (∀ n, ((story fd later₁).take n).map Moment.stimulus
        = ((story fd later₂).take n).map Moment.stimulus →
      ((story fd later₁).take n).map (Moment.effect fd)
        = ((story fd later₂).take n).map (Moment.effect fd)) ∧
    (∀ m ∈ later₁, m.event.fd ≠ fd → m.origin.clients[fd]?.isSome = true →
      m.after.clients[fd]? = m.origin.clients[fd]? ∧
        m.after.readiness.armed[fd]? = m.origin.readiness.armed[fd]?) ∧
    (m₁ :: later₁).IsChain fun m m' => m'.origin.clients = m.after.clients := by
  obtain ⟨horderly₁, hunfolds₁⟩ := h₁.orderly
  obtain ⟨horderly₂, hunfolds₂⟩ := h₂.orderly
  have hnew₁ := horderly₁.clients_of_accepted h₁.accepted
  have hnew₂ := horderly₂.clients_of_accepted h₂.accepted
  refine ⟨hnew₁, hnew₂, ?_, ?_, hunfolds₁.chain⟩
  · intro n hsame
    have halone₁ := congrArg (List.take n) (hunfolds₁.effects_story hnew₁)
    have halone₂ := congrArg (List.take n) (hunfolds₂.effects_story hnew₂)
    rw [Site.alone_take, ← List.map_take, ← List.map_take] at halone₁ halone₂
    rw [halone₁, halone₂, hsame]
  · intro m hm hfd hsome
    obtain ⟨c, hc⟩ := Option.isSome_iff_exists.1 hsome
    exact (hunfolds₁.orderly m hm).alone_of_other hc hfd

def visits (accepts : List (Except Fault Fd)) (arrange : List Event → List Event) : List Turn :=
  let around : Surroundings :=
    { now := .epoch, entered := 0, serving := 0
      attempts := [.ok fun _ => { input := true, output := true }]
      accepts := []
      reads := fun _ => [.bytes (Text.encode "GET / HTTP/1.1\r\n\r\n")]
      writes := fun _ => [.fault .other] }
  [⟨none, { around with accepts }, arrange⟩, ⟨none, around, arrange⟩, ⟨none, around, arrange⟩]

set_option maxRecDepth 4000 in
/-- A connection alone, and the same with another one that is served before it. -/
theorem effects_eq_of_stimuli_eq_onePage :
    let s := listening 3 Site.onePage.responder [7, 8, 9]
    ∃ m₁ later₁ m₂ later₂, s.moments (visits [.ok 5] id) = m₁ :: later₁ ∧
      s.moments (visits [.ok 6, .ok 5] List.reverse) = m₂ :: later₂ ∧
      (story 5 later₁).length = 2 ∧ (story 5 later₂).length = 2 ∧
      ((story 5 later₁).take 2).map (Moment.effect 5)
        = ((story 5 later₂).take 2).map (Moment.effect 5) := by
  intro s
  have hfirst : ∀ turns (h : s.moments turns ≠ []),
      s.moments turns = (s.moments turns).head h :: (s.moments turns).tail :=
    fun _ h => (List.cons_head_tail h).symm
  have hne₁ : s.moments (visits [.ok 5] id) ≠ [] := List.cons_ne_nil _ _
  have hne₂ : s.moments (visits [.ok 6, .ok 5] List.reverse) ≠ [] := List.cons_ne_nil _ _
  have hkernel : s.runFresh (visits [.ok 5] id) = true ∧
      s.runFresh (visits [.ok 6, .ok 5] List.reverse) = true ∧
      (s.run (visits [.ok 5] id)).state ≠ [] ∧
      (s.run (visits [.ok 6, .ok 5] List.reverse)).state ≠ [] := by decide +kernel
  obtain ⟨hk₁, hk₂, hleft₁, hleft₂⟩ := hkernel
  have hall := effects_eq_of_stimuli_eq Site.onePage 5
    ⟨3, [7, 8, 9], visits [.ok 5] id, [], hk₁, hleft₁, hfirst _ hne₁, .head _⟩
    ⟨3, [7, 8, 9], visits [.ok 6, .ok 5] List.reverse, [], hk₂, hleft₂, hfirst _ hne₂,
      .tail _ (.head _)⟩
  have hstories : (story 5 (s.moments (visits [.ok 5] id)).tail).length = 2 ∧
      (story 5 (s.moments (visits [.ok 6, .ok 5] List.reverse)).tail).length = 2 ∧
      ((story 5 (s.moments (visits [.ok 5] id)).tail).take 2).map Moment.stimulus =
        ((story 5 (s.moments (visits [.ok 6, .ok 5] List.reverse)).tail).take 2).map
          Moment.stimulus := by decide +kernel
  obtain ⟨hlength₁, hlength₂, hsame⟩ := hstories
  exact ⟨_, _, _, _, hfirst _ hne₁, hfirst _ hne₂, hlength₁, hlength₂, hall.2.2.1 2 hsame⟩

end Origin

end HttpOrigin
