import HttpOrigin.Proofs.Delivery

/-! Accepting that is paused goes on. The listener is armed whenever there is no pause. A pause ends
with the first connection that closes, or with the first turn that finds it over; until then no wait
outlasts it. -/
namespace HttpOrigin

/-- A wait with a bound is not made longer by what poll can take. -/
theorem Readiness.pollBound_le (nanoseconds : Nat) :
    0 ≤ pollBound (some nanoseconds) ∧
      pollBound (some nanoseconds) * millisecond ≤ nanoseconds := by
  have hbound : pollBound (some nanoseconds)
      = ((min (nanoseconds / millisecond) longestBound : Nat) : Int) := rfl
  have hle : min (nanoseconds / millisecond) longestBound * millisecond ≤ nanoseconds := calc
    _ ≤ nanoseconds / millisecond * millisecond :=
      Nat.mul_le_mul_right millisecond (Nat.min_le_left _ _)
    _ ≤ nanoseconds := Nat.div_mul_le_self nanoseconds millisecond
  rw [hbound]
  exact ⟨Int.natCast_nonneg _, by exact_mod_cast hle⟩

namespace Origin

variable {σ : Type}

def Turn.readings (u : Turn) : List Instant :=
  [u.around.entered, u.around.bounded, u.around.serving]

/-- What a turn goes through: its beginning, the end of its wait, the end of each event, its end. -/
def turnStates (s : Origin σ) (u : Turn) : List (Origin σ) :=
  s :: s.awaited u :: ((s.turnMoments u).map Moment.after ++ [s.turn u])

theorem runFresh_append (s : Origin σ) (turns more : List Turn) :
    s.runFresh (turns ++ more) = (s.runFresh turns && (s.run turns).runFresh more) := by
  induction turns generalizing s with
  | nil => rfl
  | cons u turns ih =>
    rw [List.cons_append, runFresh, runFresh, ih, Bool.and_assoc]
    rfl

/-! ### The listener's interest -/

section
variable {s : Origin σ} {t : Surroundings} {u : Turn}

theorem Coherent.isArmed_listener (hs : s.Coherent) :
    s.readiness.isArmed s.listener .read = true ↔ s.pausedSince = none := by
  rw [Readiness.isArmed, Readiness.armedFor_eq, hs.armed, entry, if_pos rfl]
  cases s.pausedSince with
  | none => simp [Interest.has]
  | some since => simp [Interest.has]

theorem Coherent.after_of_mem (hs : s.Coherent) {events : List Event}
    (hk : s.eventsFresh t events = true) :
    ∀ m ∈ s.eventMoments t events, m.after.Coherent := by
  induction events generalizing s with
  | nil => simp [eventMoments]
  | cons e events ih =>
    rw [eventsFresh, Bool.and_eq_true] at hk
    rw [eventMoments, List.forall_mem_cons]
    exact ⟨hs.onEvent hk.1, ih (hs.onEvent hk.1) hk.2⟩

theorem mem_turnStates {s' : Origin σ} : s' ∈ s.turnStates u ↔
    s' = s ∨ s' = s.awaited u ∨ (∃ m ∈ s.turnMoments u, m.after = s') ∨ s' = s.turn u := by
  simp [turnStates]

theorem listener_of_mem_turnStates : ∀ s' ∈ s.turnStates u, s'.listener = s.listener := by
  intro s' hs'
  obtain rfl | rfl | ⟨m, hm, rfl⟩ | rfl := mem_turnStates.1 hs'
  · rfl
  · exact s.listener_awaited u
  · exact (m.origin.listener_frame m.event m.around).trans (listener_of_mem_turnMoments hm)
  · exact ((s.awaited u).listener_onEvents u.around (s.eventsOf u)).trans (s.listener_awaited u)

theorem Coherent.of_mem_turnStates (hs : s.Coherent)
    (hk : (s.awaited u).eventsFresh u.around (s.eventsOf u) = true) :
    ∀ s' ∈ s.turnStates u, s'.Coherent := by
  intro s' hs'
  obtain rfl | rfl | ⟨m, hm, rfl⟩ | rfl := mem_turnStates.1 hs'
  · exact hs
  · exact hs.awaited u
  · exact (hs.awaited u).after_of_mem hk m hm
  · exact hs.turn hk

end

/-! ### Pauses -/

section
variable {s : Origin σ} {since : Instant}

theorem pausedSince_close (s : Origin σ) (c : Client) : (s.close c).pausedSince = none := by
  rw [close]
  dsimp only
  cases hp : s.pausedSince with
  | none => simp
  | some since => simp [resume]

theorem pausedSince_acceptWaiting {instant : Instant} {accepts : List (Except Fault Fd)}
    (h : (s.acceptWaiting instant accepts).1.pausedSince = some since) :
    s.pausedSince = some since ∨ since = instant := by
  induction accepts generalizing s with
  | nil => exact .inl h
  | cons a rest ih =>
    cases a with
    | ok fd => exact ih (s := s.takeIn fd) h
    | error f =>
      cases f with
      | wouldBlock => exact .inl h
      | interrupted => exact ih h
      | _ => exact .inr (Option.some.inj h).symm

theorem pausedSince_serve {e : Event} {c : Client} {t : Surroundings}
    (h : (s.serve e c t).1.pausedSince = some since) : s.pausedSince = some since := by
  rw [serve_eq] at h
  dsimp only at h
  split at h
  · rw [pausedSince_close] at h
    cases h
  · exact h

theorem pausedSince_onEvent {e : Event} {t : Surroundings}
    (h : (s.onEvent e t).1.pausedSince = some since) :
    s.pausedSince = some since ∨ since = t.serving := by
  obtain ⟨-, -, hm⟩ | ⟨c, -, -, hm⟩ | hm := s.onEvent_cases e t
  · rw [hm] at h
    exact pausedSince_acceptWaiting h
  · rw [hm] at h
    exact .inl (pausedSince_serve h)
  · rw [hm] at h
    exact .inl h

theorem pausedSince_onEvents {t : Surroundings} {events : List Event}
    (h : (s.onEvents t events).1.pausedSince = some since) :
    s.pausedSince = some since ∨ since = t.serving := by
  induction events generalizing s with
  | nil => exact .inl h
  | cons e events ih =>
    obtain hbefore | hnow := ih (s := (s.onEvent e t).1) h
    · exact pausedSince_onEvent hbefore
    · exact .inr hnow

theorem pausedSince_awaited {u : Turn} (h : (s.awaited u).pausedSince = some since) :
    s.pausedSince = some since := by
  rw [awaited, beforeWait] at h
  dsimp only at h
  split at h
  · exact h
  · split at h
    · cases h
    · exact h

/-- A pause began in one of the turns. -/
theorem pausedSince_run {turns : List Turn} (h : (s.run turns).pausedSince = some since) :
    s.pausedSince = some since ∨ ∃ u ∈ turns, since = u.around.serving := by
  induction turns generalizing s with
  | nil => exact .inl h
  | cons u turns ih =>
    obtain hbefore | ⟨v, hv, hnow⟩ := ih (s := s.turn u) h
    · obtain hbefore | hnow := pausedSince_onEvents hbefore
      · exact .inl (pausedSince_awaited hbefore)
      · exact .inr ⟨u, List.mem_cons_self .., hnow⟩
    · exact .inr ⟨v, List.mem_cons_of_mem u hv, hnow⟩

/-- Whatever closes a connection ends the pause. -/
theorem Moment.pausedSince_of_closed {m : Moment σ} {fd : Fd} (h : .closed fd ∈ m.actions) :
    m.after.pausedSince = none := by
  rw [Moment.actions] at h
  rw [Moment.after]
  obtain ⟨-, -, hm⟩ | ⟨c, -, -, hm⟩ | hm := m.origin.onEvent_cases m.event m.around
  · rw [hm] at h
    obtain ⟨accepted, heq⟩ := m.origin.accepted_of_mem_acceptWaiting _ _ _ h
    cases heq
  · rw [hm, actions_serve] at h
    rw [hm, serve_eq]
    dsimp only at h ⊢
    split at h
    · rename_i hover
      rw [if_pos hover]
      exact pausedSince_close _ _
    · simp at h
  · rw [hm] at h
    cases h

end

/-! ### The bound of a wait -/

section
variable {s : Origin σ} {u : Turn} {since : Instant}

theorem bound_cycle (s : Origin σ) (timeout : Option Nat) (t : Surroundings) :
    (s.cycle timeout t).bound
      = Readiness.pollBound (s.beforeWait timeout t.entered t.bounded).2 := by
  rw [cycle]
  dsimp only
  split <;> rfl

theorem wait_of_unpaused (h : s.pausedSince = none) :
    (s.awaited u).pausedSince = none ∧
      (s.cycle u.timeout u.around).bound = Readiness.pollBound u.timeout := by
  rw [bound_cycle, awaited, beforeWait, h]
  exact ⟨h, rfl⟩

theorem wait_of_over (h : s.pausedSince = some since)
    (hover : ¬u.around.entered - since < longestPause) :
    (s.awaited u).pausedSince = none ∧
      (s.cycle u.timeout u.around).bound = Readiness.pollBound u.timeout := by
  rw [bound_cycle, awaited, beforeWait, h]
  dsimp only
  rw [if_pos (Nat.not_lt.1 hover)]
  exact ⟨rfl, rfl⟩

/-- What is left of a pause bounds the wait, and so does what was asked for. -/
theorem wait_of_paused (h : s.pausedSince = some since)
    (hshort : u.around.entered - since < longestPause) :
    let bound := (s.cycle u.timeout u.around).bound
    (s.awaited u).pausedSince = some since ∧ 0 ≤ bound ∧
      (∀ t ∈ u.timeout, bound * millisecond ≤ t) ∧
      bound * millisecond ≤ (longestPause - (u.around.bounded - since) : Nat) := by
  set left := longestPause - (u.around.bounded - since) with hleft
  have hbefore : s.beforeWait u.timeout u.around.entered u.around.bounded
      = (s, some (u.timeout.elim left (min left))) := by
    rw [beforeWait, h]
    exact if_neg (Nat.not_le.2 hshort)
  obtain ⟨hnonneg, hle⟩ := Readiness.pollBound_le (u.timeout.elim left (min left))
  rw [bound_cycle, awaited, hbefore]
  refine ⟨h, hnonneg, ?_, ?_⟩
  · intro t ht
    rw [Option.mem_def.1 ht, Option.elim_some] at hle ⊢
    exact hle.trans (Int.ofNat_le.2 (Nat.min_le_right left t))
  · have hwithin : u.timeout.elim left (min left) ≤ left := by
      cases u.timeout with
      | none => exact le_refl left
      | some t => exact Nat.min_le_left left t
    exact hle.trans (Int.ofNat_le.2 hwithin)

end

/-- A pause that a turn finds began no later than the turn, as the clock never goes back. -/
theorem since_le_entered {s : Origin σ} {turns : List Turn} {u : Turn} {since : Instant}
    (hfirst : s.pausedSince = none)
    (hclock : ((turns ++ [u]).flatMap Turn.readings).Pairwise (· ≤ ·))
    (h : (s.run turns).pausedSince = some since) :
    since ≤ u.around.entered ∧ u.around.entered ≤ u.around.bounded := by
  rw [List.flatMap_append, List.pairwise_append] at hclock
  obtain ⟨-, hlast, hacross⟩ := hclock
  constructor
  · obtain hbefore | ⟨v, hv, rfl⟩ := pausedSince_run h
    · rw [hfirst] at hbefore
      cases hbefore
    · apply hacross
      · exact List.mem_flatMap.2 ⟨v, hv, by simp [Turn.readings]⟩
      · simp [Turn.readings]
  · have hordered : u.readings.Pairwise (· ≤ ·) := by simpa using hlast
    exact List.rel_of_pairwise_cons hordered (List.mem_cons_self ..)

/-- Whatever fails to be accepted and whatever closes, and whatever the waits are asked to last: as
long as the kernel gives out only numbers that are not in use and the clock never goes back, the
listener is armed exactly when there is no pause, before and after each event. A turn that begins
during a pause waits no longer than what is left of it, nor than it was asked to; one that begins
when it is over arms the listener before it waits. So no wait is without bound unless the listener
is armed. A connection that closes ends the pause at once. -/
theorem accepting_goes_on (listener : Fd) (responder : Responder σ) (state : σ)
    (turns : List Turn) (u : Turn)
    (hk : (listening listener responder state).runFresh (turns ++ [u]) = true)
    (hclock : ((turns ++ [u]).flatMap Turn.readings).Pairwise (· ≤ ·)) :
    let s := (listening listener responder state).run turns
    let bound := (s.cycle u.timeout u.around).bound
    (∀ s' ∈ s.turnStates u,
      s'.readiness.isArmed listener .read = true ↔ s'.pausedSince = none) ∧
    (∀ since, s.pausedSince = some since →
      since ≤ u.around.entered ∧ u.around.entered ≤ u.around.bounded ∧
      if u.around.entered - since < longestPause then
        (s.awaited u).pausedSince = some since ∧ 0 ≤ bound ∧
        (∀ t ∈ u.timeout, bound * millisecond ≤ t) ∧
        bound * millisecond ≤ (longestPause - (u.around.bounded - since) : Nat)
      else
        (s.awaited u).readiness.isArmed listener .read = true ∧
        bound = Readiness.pollBound u.timeout) ∧
    (s.pausedSince = none → bound = Readiness.pollBound u.timeout) ∧
    (bound < 0 → (s.awaited u).readiness.isArmed listener .read = true) ∧
    ∀ m ∈ s.turnMoments u, ∀ fd, .closed fd ∈ m.actions →
      m.after.pausedSince = none ∧ m.after.readiness.isArmed listener .read = true := by
  intro s bound
  rw [runFresh_append, Bool.and_eq_true, runFresh, Bool.and_eq_true] at hk
  obtain ⟨hfresh, hnow, -⟩ := hk
  have hs : s.Coherent := (coherent_listening listener responder state).run hfresh
  have harmed : ∀ s' ∈ s.turnStates u,
      (s'.readiness.isArmed listener .read = true ↔ s'.pausedSince = none) := by
    intro s' hs'
    have hlistener : s'.listener = listener :=
      (listener_of_mem_turnStates s' hs').trans (listener_run _ turns)
    rw [← hlistener]
    exact (hs.of_mem_turnStates hnow s' hs').isArmed_listener
  have hawaited := harmed (s.awaited u) (mem_turnStates.2 (.inr (.inl rfl)))
  refine ⟨harmed, ?_, fun hp => (wait_of_unpaused hp).2, ?_, ?_⟩
  · intro since hp
    obtain ⟨hentered, hbounded⟩ := since_le_entered rfl hclock hp
    refine ⟨hentered, hbounded, ?_⟩
    split
    · rename_i hshort
      exact wait_of_paused hp hshort
    · rename_i hover
      obtain ⟨hgoes, hsame⟩ := wait_of_over hp hover
      exact ⟨hawaited.2 hgoes, hsame⟩
  · intro hnegative
    apply hawaited.2
    cases hp : s.pausedSince with
    | none => exact (wait_of_unpaused hp).1
    | some since =>
      by_cases hshort : u.around.entered - since < longestPause
      · exact absurd (wait_of_paused hp hshort).2.1 (Int.not_le.2 hnegative)
      · exact (wait_of_over hp hshort).1
  · intro m hm fd hclosed
    have hgoes := Moment.pausedSince_of_closed hclosed
    have hafter := harmed m.after (mem_turnStates.2 (.inr (.inr (.inl ⟨m, hm, rfl⟩))))
    exact ⟨hgoes, hafter.2 hgoes⟩

def shortage : Turn where
  timeout := none
  around :=
    { now := .epoch, entered := 0, serving := 3 * millisecond
      attempts := [.ok fun _ => { input := true }]
      accepts := [.ok 5, .error .other]
      reads := fun _ => []
      writes := fun _ => [] }
  arrange := id

def relief : Turn where
  timeout := none
  around :=
    { now := .epoch, entered := 100 * millisecond, bounded := 101 * millisecond
      serving := 150 * millisecond
      attempts := [.ok fun _ => { hangUp := true }]
      accepts := []
      reads := fun _ => [.fault .connectionReset]
      writes := fun _ => [] }
  arrange := id

theorem accepting_goes_on_relief :
    let s := (listening 3 Site.onePage.responder [7]).run [shortage]
    s.pausedSince = some (3 * millisecond) ∧ (s.cycle none relief.around).bound = 152 ∧
      (s.awaited relief).pausedSince = some (3 * millisecond) ∧
      (s.turnMoments relief).map Moment.actions = [[.served 5 [] [], .closed 5]] ∧
      ∀ m ∈ s.turnMoments relief, m.after.readiness.isArmed 3 .read = true := by
  intro s
  have hpaused : s.pausedSince = some (3 * millisecond) := by decide +kernel
  have hbound : (s.cycle none relief.around).bound = 152 := by decide +kernel
  have hactions : (s.turnMoments relief).map Moment.actions = [[.served 5 [] [], .closed 5]] := by
    decide +kernel
  have hall := accepting_goes_on 3 Site.onePage.responder [7] [shortage] relief
    (by decide +kernel) (by decide +kernel)
  have hshort : relief.around.entered - 3 * millisecond < longestPause := by decide +kernel
  have hwait := (hall.2.1 _ hpaused).2.2
  rw [if_pos hshort] at hwait
  refine ⟨hpaused, hbound, hwait.1, hactions, ?_⟩
  intro m hm
  have hm' : m.actions ∈ [[.served 5 [] [], .closed 5]] := hactions ▸ List.mem_map_of_mem hm
  have hclosed : .closed 5 ∈ m.actions := by simp [List.mem_singleton.1 hm']
  exact (hall.2.2.2.2 m hm 5 hclosed).2

end Origin

end HttpOrigin
