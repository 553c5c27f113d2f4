import HttpOrigin.Proofs.Isolation
import Mathlib.Data.List.Nodup

/-! Events reach those they are about. A wait finds each descriptor once, and only descriptors of
connections and the listener; a connection is closed in its own event alone. So the connection that
an event comes to is the one for which it was found, although a number can be given out again
while the events of the same wait are served. -/
namespace HttpOrigin

def Action.fd : Action → Fd
  | .accepted fd | .served fd _ _ | .closed fd => fd

def Action.serves (fd : Fd) : Action → Bool
  | .served gd _ _ => gd == fd
  | .accepted _ | .closed _ => false

theorem Action.fd_of_serves {a : Action} {fd : Fd} (h : a.serves fd = true) : a.fd = fd := by
  cases a with
  | served gd unread written => exact LawfulBEq.eq_of_beq h
  | _ => cases h

namespace Origin

variable {σ : Type}

def Moment.acceptsFresh (m : Moment σ) : Bool :=
  m.event.fd ≠ m.origin.listener || !m.event.readable || m.origin.acceptsFresh m.around.accepts

/-! ### Who is armed -/

/-- Nothing is armed but the listener and the connections, and these under their own numbers. -/
structure Registered (s : Origin σ) : Prop where
  keyed : ∀ {fd : Fd} {c : Client}, s.clients[fd]? = some c → c.fd = fd
  unarmed : ∀ {fd : Fd}, fd ≠ s.listener → s.clients[fd]? = none → s.readiness.armed[fd]? = none

section
variable {s : Origin σ} {c : Client} {r : Readiness}

theorem registered_listening (listener : Fd) (responder : Responder σ) (state : σ) :
    (listening listener responder state).Registered where
  keyed h := by simp [listening] at h
  unarmed {fd} hfd _ := by
    have hne : listener ≠ fd := Ne.symm hfd
    rw [listening, Readiness.armed_arm_of_ne fd .read hne]
    exact Std.TreeMap.getElem?_emptyc

theorem Registered.of_listener (hs : s.Registered) {since : Option Instant}
    (hother : ∀ fd : Fd, fd ≠ s.listener → r.armed[fd]? = s.readiness.armed[fd]?) :
    Registered { s with readiness := r, pausedSince := since } where
  keyed := hs.keyed
  unarmed hfd hnone := (hother _ hfd).trans (hs.unarmed hfd hnone)

theorem Registered.resume (hs : s.Registered) : s.resume.Registered := by
  apply hs.of_listener
  intro fd hfd
  exact Readiness.armed_arm_of_ne fd .read (Ne.symm hfd)

theorem Registered.pause (hs : s.Registered) (instant : Instant) :
    (s.pause instant).Registered := by
  apply hs.of_listener
  intro fd hfd
  exact Readiness.armed_disarm_of_ne fd .read (Ne.symm hfd)

/-- Arming a connection arms no other number. -/
theorem Registered.put (hs : s.Registered)
    (hr : ∀ fd : Fd, s.readiness.armed[fd]? = none → r.armed[fd]? = none) (state : σ) :
    Registered { s with readiness := c.arm r, state, clients := s.clients.insert c.fd c } where
  keyed hd := by
    obtain ⟨rfl, rfl⟩ | ⟨-, hold⟩ := of_get_insert hd
    · rfl
    · exact hs.keyed hold
  unarmed {fd} hfd hnone := by
    dsimp only at hnone ⊢
    rw [get_insert] at hnone
    by_cases hg : c.fd = fd
    · rw [if_pos hg] at hnone
      cases hnone
    · rw [if_neg hg] at hnone
      rw [Client.armed_arm, if_neg hg]
      exact hr fd (hs.unarmed hfd hnone)

theorem Registered.close (hs : s.Registered)
    (hr : ∀ fd : Fd, s.readiness.armed[fd]? = none → r.armed[fd]? = none) (state : σ) :
    (close { s with readiness := r, state } c).Registered := by
  obtain ⟨r', hdisarms, hrelease⟩ := c.disarms_release r
  have hdrop : Registered { s with
      readiness := (c.release r).2, state, clients := s.clients.erase c.fd } := by
    constructor
    · intro fd d hd
      exact hs.keyed (of_get_erase hd)
    · intro fd hfd hnone
      dsimp only at hnone ⊢
      rw [get_erase] at hnone
      rw [hrelease, Readiness.armed_discard]
      by_cases hg : c.fd = fd
      · rw [if_pos hg]
      · rw [if_neg hg] at hnone ⊢
        exact hdisarms.armed_eq_none (hr fd (hs.unarmed hfd hnone))
  rw [Origin.close]
  dsimp only
  split
  · exact hdrop.resume
  · exact hdrop

theorem Registered.acceptWaiting (hs : s.Registered) (instant : Instant)
    (accepts : List (Except Fault Fd)) : (s.acceptWaiting instant accepts).1.Registered := by
  induction accepts generalizing s with
  | nil => exact hs
  | cons a rest ih =>
    cases a with
    | ok fd => exact ih (hs.put (c := { fd }) (fun _ h => h) s.state)
    | error f =>
      cases f with
      | wouldBlock => exact hs
      | interrupted => exact ih hs
      | _ => exact hs.pause instant

theorem Registered.serve (hs : s.Registered) (e : Event) (c : Client) (t : Surroundings) :
    (s.serve e c t).1.Registered := by
  have hr : ∀ fd : Fd, s.readiness.armed[fd]? = none →
      (s.afterWrites e c t).readiness.armed[fd]? = none := by
    intro fd hnone
    rw [afterWrites]
    split
    · exact (Client.disarms_deliver ..).armed_eq_none hnone
    · exact hnone
  rw [serve_eq]
  dsimp only
  split
  · exact hs.close hr _
  · exact hs.put hr _

theorem Registered.onEvent (hs : s.Registered) (e : Event) (t : Surroundings) :
    (s.onEvent e t).1.Registered := by
  obtain ⟨-, -, h⟩ | ⟨c, -, -, h⟩ | h := s.onEvent_cases e t
  · rw [h]
    exact hs.acceptWaiting t.serving t.accepts
  · rw [h]
    exact hs.serve e c t
  · rw [h]
    exact hs

theorem Registered.onEvents (hs : s.Registered) (t : Surroundings) (events : List Event) :
    (s.onEvents t events).1.Registered := by
  induction events generalizing s with
  | nil => exact hs
  | cons e events ih => exact ih (hs.onEvent e t)

theorem Registered.awaited (hs : s.Registered) (u : Turn) : (s.awaited u).Registered := by
  have hbefore : (s.beforeWait u.timeout u.around.entered u.around.bounded).1.Registered := by
    rw [beforeWait]
    split
    · exact hs
    · split
      · exact hs.resume
      · exact hs
  apply hbefore.of_listener
  intro fd _
  rw [Readiness.armed_wait]

theorem Registered.run (hs : s.Registered) (turns : List Turn) : (s.run turns).Registered := by
  induction turns generalizing s with
  | nil => exact hs
  | cons u turns ih => exact ih ((hs.awaited u).onEvents u.around (s.eventsOf u))

end

/-! ### What an event leaves alone -/

section
variable {s : Origin σ} {e : Event} {t : Surroundings} {fd : Fd} {c : Client}

theorem fd_ne_of_mem_acceptWaiting (hc : s.clients[fd]? = some c) (instant : Instant)
    {accepts : List (Except Fault Fd)} (hk : s.acceptsFresh accepts = true) :
    ∀ a ∈ (s.acceptWaiting instant accepts).2, a.fd ≠ fd := by
  induction accepts generalizing s with
  | nil => simp [acceptWaiting]
  | cons a rest ih =>
    cases a with
    | ok accepted =>
      obtain ⟨hnew, hrest⟩ := acceptsFresh_cons hk
      have hne : accepted ≠ fd := by
        rintro rfl
        exact hnew (mem_openFds.2 (.inr ⟨accepted, c, hc, .inl rfl⟩))
      have hkept : (s.takeIn accepted).clients[fd]? = some c := by
        rw [clients_takeIn, if_neg hne, hc]
      rw [acceptWaiting, List.forall_mem_cons]
      exact ⟨hne, ih hkept hrest⟩
    | error f =>
      cases f with
      | interrupted => exact ih hc hk
      | _ => simp [acceptWaiting]

theorem accepted_of_mem_acceptWaiting (s : Origin σ) (instant : Instant)
    (accepts : List (Except Fault Fd)) :
    ∀ a ∈ (s.acceptWaiting instant accepts).2, ∃ fd, a = .accepted fd := by
  induction accepts generalizing s with
  | nil => simp [acceptWaiting]
  | cons a rest ih =>
    cases a with
    | ok fd =>
      rw [acceptWaiting, List.forall_mem_cons]
      exact ⟨⟨fd, rfl⟩, ih (s.takeIn fd)⟩
    | error f =>
      cases f with
      | interrupted => exact ih s
      | _ => simp [acceptWaiting]

theorem fd_of_mem_serve (s : Origin σ) (e : Event) (c : Client) (t : Surroundings) :
    ∀ a ∈ (s.serve e c t).2, a.fd = e.fd := by
  rw [actions_serve]
  dsimp only
  split <;> simp [Action.fd]

theorem serves_of_served (s : Origin σ) (e : Event) (c : Client) (t : Surroundings) :
    ∃ a ∈ (s.serve e c t).2, a.serves e.fd = true := by
  rw [actions_serve]
  dsimp only
  split <;> simp [Action.serves]

/-- A connection whose event is not this one stays as it is, and nothing is done under its
number. -/
theorem Registered.aside (hs : s.Registered) (hk : Moment.acceptsFresh ⟨s, t, e⟩ = true)
    (hc : s.clients[fd]? = some c) (hfd : e.fd ≠ fd) :
    (s.onEvent e t).1.clients[fd]? = some c ∧ ∀ a ∈ (s.onEvent e t).2, a.fd ≠ fd := by
  obtain ⟨he, hreadable, h⟩ | ⟨d, he, -, h⟩ | h := s.onEvent_cases e t
  · have hfresh : s.acceptsFresh t.accepts = true := by
      simpa [Moment.acceptsFresh, he, hreadable] using hk
    rw [h]
    exact ⟨clients_acceptWaiting hc _ hfresh, fd_ne_of_mem_acceptWaiting hc _ hfresh⟩
  · refine ⟨(clients_onEvent hs.keyed he hfd.symm).trans hc, ?_⟩
    intro a ha
    rw [h] at ha
    rw [s.fd_of_mem_serve e d t a ha]
    exact hfd
  · rw [h]
    exact ⟨hc, by simp⟩

end

/-! ### The events of one wait -/

section
variable {s : Origin σ} {t : Surroundings} {events : List Event}

theorem of_mem_eventMoments {m : Moment σ} (hm : m ∈ s.eventMoments t events) :
    m.event ∈ events ∧ m.around = t ∧ m.origin.listener = s.listener := by
  induction events generalizing s with
  | nil => cases hm
  | cons e events ih =>
    obtain rfl | hm := List.mem_cons.1 hm
    · exact ⟨List.mem_cons_self .., rfl, rfl⟩
    · obtain ⟨hevent, haround, hlistener⟩ := ih hm
      exact ⟨List.mem_cons_of_mem e hevent, haround, hlistener.trans (s.listener_frame e t)⟩

/-- Until its event comes, a connection stays what it was, and nothing is done under its number. -/
theorem Registered.untouched (hs : s.Registered) (hnodup : (events.map Event.fd).Nodup)
    {earlier later : List (Moment σ)} {m : Moment σ}
    (hms : s.eventMoments t events = earlier ++ m :: later)
    (hk : ∀ m' ∈ s.eventMoments t events, m'.acceptsFresh = true) {c : Client}
    (hc : s.clients[m.event.fd]? = some c) :
    m.origin.clients[m.event.fd]? = some c ∧
      ∀ m' ∈ earlier, ∀ a ∈ m'.actions, a.fd ≠ m.event.fd := by
  induction events generalizing s earlier with
  | nil => simp [eventMoments] at hms
  | cons e events ih =>
    rw [eventMoments] at hms hk
    rw [List.forall_mem_cons] at hk
    rw [List.map_cons, List.nodup_cons] at hnodup
    cases earlier with
    | nil =>
      obtain ⟨rfl, -⟩ := List.cons.inj hms
      exact ⟨hc, by simp⟩
    | cons m₀ earlier =>
      obtain ⟨rfl, hrest⟩ := List.cons.inj hms
      have hmem : m ∈ (s.onEvent e t).1.eventMoments t events := by simp [hrest]
      have hne : e.fd ≠ m.event.fd := by
        intro heq
        rw [heq] at hnodup
        exact hnodup.1 (List.mem_map_of_mem (of_mem_eventMoments hmem).1)
      obtain ⟨hkept, hactions⟩ := hs.aside hk.1 hc hne
      obtain ⟨hhere, hothers⟩ := ih (hs.onEvent e t) hnodup.2 hrest hk.2 hkept
      rw [List.forall_mem_cons]
      exact ⟨hhere, hactions, hothers⟩

end

theorem listener_onEvents (s : Origin σ) (t : Surroundings) (events : List Event) :
    (s.onEvents t events).1.listener = s.listener := by
  induction events generalizing s with
  | nil => rfl
  | cons e events ih => exact (ih (s.onEvent e t).1).trans (s.listener_frame e t)

theorem listener_awaited (s : Origin σ) (u : Turn) : (s.awaited u).listener = s.listener := by
  rw [awaited, beforeWait]
  dsimp only
  split
  · rfl
  · split <;> rfl

theorem listener_run (s : Origin σ) (turns : List Turn) : (s.run turns).listener = s.listener := by
  induction turns generalizing s with
  | nil => rfl
  | cons u turns ih =>
    have hturn : (s.turn u).listener = s.listener :=
      ((s.awaited u).listener_onEvents u.around (s.eventsOf u)).trans (s.listener_awaited u)
    exact (ih (s.turn u)).trans hturn

def turnMoments (s : Origin σ) (u : Turn) : List (Moment σ) :=
  (s.awaited u).eventMoments u.around (s.eventsOf u)

/-- Events of a turn that were found by its wait are about different descriptors, all armed. -/
theorem found_of_eventsOf {s : Origin σ} {u : Turn}
    (hfound : (s.eventsOf u).Subperm (s.awaited u).readiness.ready) :
    ((s.eventsOf u).map Event.fd).Nodup ∧
      ∀ e ∈ s.eventsOf u, (s.awaited u).readiness.armed[e.fd]?.isSome = true := by
  set r := (s.beforeWait u.timeout u.around.entered u.around.bounded).1.readiness with hr
  have hafter : (s.awaited u).readiness = (r.wait u.around.attempts).2 := rfl
  cases ha : Readiness.answer u.around.attempts with
  | error f =>
    have hnone : s.eventsOf u = [] := by
      rw [eventsOf, ← hr, Readiness.wait_of_error r ha]
    rw [hnone]
    simp
  | ok signals =>
    rw [hafter, Readiness.wait_of_ok r ha] at hfound ⊢
    dsimp only at hfound ⊢
    have hnodup : ((r.events signals).map Event.fd).Nodup :=
      List.pairwise_map.2 ((r.pairwise_events signals).imp fun hlt => ne_of_lt hlt)
    constructor
    · obtain ⟨events, hperm, hsub⟩ := hfound
      exact (hperm.map Event.fd).nodup_iff.1 ((hsub.map Event.fd).nodup hnodup)
    · intro e he
      obtain ⟨a, hpolled⟩ := (Readiness.mem_events.1 (hfound.subset he)).1
      rw [Readiness.mem_polled.1 hpolled, Option.isSome_some]

/-- A cycle serves what its wait has found. -/
theorem found_of_cycle (s : Origin σ) (timeout : Option Nat) (t : Surroundings) :
    (s.eventsOf ⟨timeout, t, id⟩).Subperm (s.awaited ⟨timeout, t, id⟩).readiness.ready := by
  rw [eventsOf, awaited]
  dsimp only
  cases (s.beforeWait timeout t.entered t.bounded).1.readiness.wait t.attempts with
  | mk result r =>
    cases result with
    | error e => exact List.nil_subperm
    | ok n => exact List.Subperm.refl _

section
variable {m : Moment σ} {fd : Fd} {a : Action}

/-- Only its own event serves a connection. -/
theorem Moment.fd_of_serves (ha : a ∈ m.actions) (hserves : a.serves fd = true) :
    m.event.fd = fd ∧ m.event.fd ≠ m.origin.listener := by
  rw [Moment.actions] at ha
  obtain ⟨-, -, h⟩ | ⟨c, he, -, h⟩ | h := m.origin.onEvent_cases m.event m.around
  · rw [h] at ha
    obtain ⟨accepted, rfl⟩ := m.origin.accepted_of_mem_acceptWaiting _ _ a ha
    cases hserves
  · rw [h] at ha
    have hfd := m.origin.fd_of_mem_serve m.event c m.around a ha
    exact ⟨hfd.symm.trans (Action.fd_of_serves hserves), he⟩
  · rw [h] at ha
    cases ha

end

section
variable {s : Origin σ} {u : Turn} {m : Moment σ} {earlier later : List (Moment σ)}

theorem listener_of_mem_turnMoments (hm : m ∈ s.turnMoments u) :
    m.origin.listener = s.listener :=
  (of_mem_eventMoments hm).2.2.trans (s.listener_awaited u)

/-- The connection of an event is the one that was waited for. -/
theorem Registered.waited_for (hs : s.Registered)
    (hfound : (s.eventsOf u).Subperm (s.awaited u).readiness.ready)
    (hk : ∀ m ∈ s.turnMoments u, m.acceptsFresh = true)
    (hms : s.turnMoments u = earlier ++ m :: later) (he : m.event.fd ≠ s.listener) :
    (s.awaited u).readiness.armed[m.event.fd]?.isSome = true ∧
      ∃ c, (s.awaited u).clients[m.event.fd]? = some c ∧ c.fd = m.event.fd ∧
        (∀ m' ∈ earlier, ∀ a ∈ m'.actions, a.fd ≠ m.event.fd) ∧
        m.origin.clients[m.event.fd]? = some c := by
  obtain ⟨hnodup, harmed⟩ := found_of_eventsOf hfound
  have hawaited := hs.awaited u
  have hm : m ∈ s.turnMoments u := by simp [hms]
  have hsome := harmed m.event (of_mem_eventMoments hm).1
  refine ⟨hsome, ?_⟩
  cases hc : (s.awaited u).clients[m.event.fd]? with
  | none =>
    rw [← s.listener_awaited u] at he
    rw [hawaited.unarmed he hc] at hsome
    cases hsome
  | some c =>
    obtain ⟨hhere, hothers⟩ := hawaited.untouched hnodup hms hk hc
    exact ⟨c, rfl, hawaited.keyed hc, hothers, hhere⟩

end

/-- In any turn after any others, whatever is found ready and whatever is closed, accepted and
opened while the events are served: if the numbers of the sockets that are accepted in the turn are
not in use, each event is served for the very connection that was waited for under its number, no
event is passed over, a connection that is accepted in the turn is not served in it, and none is
served twice. -/
theorem event_reaches_registered (listener : Fd) (responder : Responder σ) (state : σ)
    (turns : List Turn) (u : Turn) :
    let s := (listening listener responder state).run turns
    (s.eventsOf u).Subperm (s.awaited u).readiness.ready →
    (∀ m ∈ s.turnMoments u, m.acceptsFresh = true) →
    ∀ earlier m later, s.turnMoments u = earlier ++ m :: later →
      (m.event.fd ≠ listener →
        (s.awaited u).readiness.armed[m.event.fd]?.isSome = true ∧
        ∃ c, (s.awaited u).clients[m.event.fd]? = some c ∧ c.fd = m.event.fd ∧
          (∀ m' ∈ earlier, ∀ a ∈ m'.actions, a.fd ≠ m.event.fd) ∧
          m.origin.clients[m.event.fd]? = some c ∧
          m.origin.onEvent m.event m.around = m.origin.serve m.event c m.around ∧
          ∃ a ∈ m.actions, a.serves m.event.fd = true) ∧
      ∀ fd, .accepted fd ∈ m.actions ∨ (∃ a ∈ m.actions, a.serves fd = true) →
        ∀ m' ∈ later, ∀ a ∈ m'.actions, a.serves fd = false := by
  intro s hfound hfresh earlier m later hms
  have hs : s.Registered := (registered_listening listener responder state).run turns
  have hlistener : s.listener = listener := listener_run _ turns
  constructor
  · intro he
    rw [← hlistener] at he
    obtain ⟨harmed, c, hc, hfd, hothers, hhere⟩ := hs.waited_for hfound hfresh hms he
    have hm : m ∈ s.turnMoments u := by simp [hms]
    rw [← listener_of_mem_turnMoments hm] at he
    have hserve := onEvent_of_client he hhere m.around
    refine ⟨harmed, c, hc, hfd, hothers, hhere, hserve, ?_⟩
    rw [Moment.actions, hserve]
    exact serves_of_served m.origin m.event c m.around
  · -- A later event that serves the number would find what was done under it before.
    intro fd hdone m' hm' a ha
    rw [Bool.eq_false_iff]
    intro hserves
    obtain ⟨before, after, rfl⟩ := List.append_of_mem hm'
    have hms' : s.turnMoments u = (earlier ++ m :: before) ++ m' :: after := by simp [hms]
    have hmem : m' ∈ s.turnMoments u := by simp [hms]
    obtain ⟨rfl, he⟩ := Moment.fd_of_serves ha hserves
    rw [listener_of_mem_turnMoments hmem] at he
    obtain ⟨-, -, -, -, hothers, -⟩ := hs.waited_for hfound hfresh hms' he
    have haside := hothers m (by simp)
    obtain haccepted | ⟨b, hb, hbserves⟩ := hdone
    · exact haside _ haccepted rfl
    · exact haside b hb (Action.fd_of_serves hbserves)

def renumbering (accepts : List (Except Fault Fd)) : Turn where
  timeout := none
  around :=
    { now := .epoch, entered := 0, serving := 0
      attempts := [.ok fun _ => { input := true }]
      accepts
      reads := fun fd => if fd = 4 then [.fault .connectionReset] else []
      writes := fun _ => [] }
  arrange := id

/-- The number of a connection that is cut off is given out again before the next event. -/
theorem event_reaches_registered_renumbered :
    let s := (listening 5 Site.onePage.responder [7]).run [renumbering [.ok 4, .ok 6]]
    let u := renumbering [.ok 4]
    (s.turnMoments u).map Moment.actions
      = [[.served 4 [] [], .closed 4], [.accepted 4], [.served 6 [] []]] ∧
    ∀ earlier m later, s.turnMoments u = earlier ++ m :: later → m.event.fd ≠ 5 →
      ∃ c, (s.awaited u).clients[m.event.fd]? = some c ∧
        m.origin.onEvent m.event m.around = m.origin.serve m.event c m.around := by
  intro s u
  have hactions : (s.turnMoments u).map Moment.actions
      = [[.served 4 [] [], .closed 4], [.accepted 4], [.served 6 [] []]] := by decide +kernel
  have hfresh : ∀ m ∈ s.turnMoments u, m.acceptsFresh = true := by
    rw [← List.all_eq_true]
    decide +kernel
  refine ⟨hactions, ?_⟩
  intro earlier m later hms he
  have hall := event_reaches_registered 5 Site.onePage.responder [7]
    [renumbering [.ok 4, .ok 6]] u (found_of_cycle s none u.around) hfresh earlier m later hms
  obtain ⟨-, c, hc, -, -, -, hserve, -⟩ := hall.1 he
  exact ⟨c, hc, hserve⟩

end Origin

end HttpOrigin
