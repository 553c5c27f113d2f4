import HttpOrigin.Origin
import HttpOrigin.Proofs.Appending
import HttpOrigin.Proofs.Polling

/-! The interest set of an origin is what its connections ask for, entry by entry. It rests on no
two open descriptors having one number, which is the kernel's part: the numbers it gives out are
not in use. -/
namespace HttpOrigin.Origin

variable {σ : Type}

/-! ### What the kernel keeps to -/

def openFds (s : Origin σ) : List Fd :=
  s.listener :: s.clients.toList.flatMap fun e => e.1 :: e.2.file?.toList

def acceptsFresh (s : Origin σ) : List (Except Fault Fd) → Bool
  | .ok fd :: rest => !s.openFds.contains fd && (s.takeIn fd).acceptsFresh rest
  | .error .interrupted :: rest => s.acceptsFresh rest
  | _ => true

/-- A file that a connection has not had before got a number that was not in use. -/
def fileFresh (s : Origin σ) (before after : Client) : Bool :=
  after.file?.all fun fd => before.file? == some fd || !s.openFds.contains fd

def afterReads (s : Origin σ) (e : Event) (c : Client) (t : Surroundings) : Client.Intake σ :=
  if e.readable then c.intake s.responder t.now (t.reads e.fd) s.state
  else ⟨.ok (), c, t.reads e.fd, s.state⟩

def afterWrites (s : Origin σ) (e : Event) (c : Client) (t : Surroundings) : Client.Delivery σ :=
  let read := s.afterReads e c t
  if read.result.isOk && e.writable then
    read.client.deliver s.responder t.now (t.writes e.fd) s.readiness read.state
  else ⟨read.result, read.client, [], t.writes e.fd, s.readiness, read.state⟩

def eventFresh (s : Origin σ) (t : Surroundings) (e : Event) : Bool :=
  if e.fd = s.listener then !e.readable || s.acceptsFresh t.accepts
  else s.clients[e.fd]?.all fun c =>
    s.fileFresh c (s.afterReads e c t).client && s.fileFresh c (s.afterWrites e c t).client

def eventsFresh (s : Origin σ) (t : Surroundings) : List Event → Bool
  | [] => true
  | e :: events => s.eventFresh t e && (s.onEvent e t).1.eventsFresh t events

/-- A cycle in which whatever events are served, in whatever order. -/
structure Turn where
  timeout : Option Nat
  around : Surroundings
  arrange : List Event → List Event

def awaited (s : Origin σ) (u : Turn) : Origin σ :=
  let s := (s.beforeWait u.timeout u.around.entered u.around.bounded).1
  { s with readiness := (s.readiness.wait u.around.attempts).2 }

def eventsOf (s : Origin σ) (u : Turn) : List Event :=
  let s := (s.beforeWait u.timeout u.around.entered u.around.bounded).1
  match s.readiness.wait u.around.attempts with
  | (.ok _, r) => u.arrange r.ready
  | (.error _, _) => []

def turn (s : Origin σ) (u : Turn) : Origin σ :=
  ((s.awaited u).onEvents u.around (s.eventsOf u)).1

/-- A cycle is the turn that serves the ready events in the order in which they were found. -/
theorem turn_eq_cycle (s : Origin σ) (timeout : Option Nat) (t : Surroundings) :
    s.turn ⟨timeout, t, id⟩ = (s.cycle timeout t).origin := by
  rw [turn, awaited, eventsOf, cycle]
  dsimp only
  cases ((s.beforeWait timeout t.entered t.bounded).1.readiness.wait t.attempts) with
  | mk result r =>
    cases result with
    | error e => rfl
    | ok n => rfl

def run (s : Origin σ) (turns : List Turn) : Origin σ := turns.foldl turn s

def runFresh (s : Origin σ) : List Turn → Bool
  | [] => true
  | u :: turns =>
    (s.awaited u).eventsFresh u.around (s.eventsOf u) && (s.turn u).runFresh turns

theorem mem_openFds {s : Origin σ} {fd : Fd} :
    fd ∈ s.openFds ↔ fd = s.listener ∨
      ∃ (g : Fd) (c : Client), s.clients[g]? = some c ∧ (fd = g ∨ c.file? = some fd) := by
  simp only [openFds, List.mem_cons, List.mem_flatMap, Prod.exists,
    Std.TreeMap.mem_toList_iff_getElem?_eq_some, Option.mem_toList]

/-! ### Interest -/

def entry (s : Origin σ) (fd : Fd) : Option Interest :=
  if fd = s.listener then (if s.pausedSince.isSome then none else some { read := true })
  else s.clients[fd]?.map Client.interest

/-- At most the file of the connection `g` has this number. -/
structure Spare (s : Origin σ) (g fd : Fd) : Prop where
  listener : fd ≠ s.listener
  socket : s.clients[fd]? = none
  file : ∀ (g' : Fd) (c : Client), g' ≠ g → s.clients[g']? = some c → c.file? ≠ some fd

structure Coherent (s : Origin σ) : Prop where
  keyed : ∀ {fd : Fd} {c : Client}, s.clients[fd]? = some c → c.fd = fd
  listener : s.clients[s.listener]? = none
  files : ∀ {g fd : Fd} {c : Client}, s.clients[g]? = some c → c.file? = some fd → s.Spare g fd
  client : ∀ {fd : Fd} {c : Client}, s.clients[fd]? = some c → c.Coherent
  alive : ∀ {fd : Fd} {c : Client}, s.clients[fd]? = some c → c.isOver = false
  armed : ∀ fd, s.readiness.armed[fd]? = s.entry fd

theorem spare_of_not_mem {s : Origin σ} {fd : Fd} (h : fd ∉ s.openFds) (g : Fd) :
    s.Spare g fd := by
  rw [mem_openFds, not_or] at h
  obtain ⟨hlistener, hclients⟩ := h
  refine ⟨hlistener, ?_, ?_⟩
  · cases hc : s.clients[fd]? with
    | none => rfl
    | some c => exact absurd ⟨fd, c, hc, .inl rfl⟩ hclients
  · intro g' c _ hc hfile
    exact hclients ⟨g', c, hc, .inr hfile⟩

theorem coherent_listening (listener : Fd) (responder : Responder σ) (state : σ) :
    (listening listener responder state).Coherent where
  keyed h := by simp [listening] at h
  listener := by simp [listening]
  files h := by simp [listening] at h
  client h := by simp [listening] at h
  alive h := by simp [listening] at h
  armed fd := by
    have hnone : ({} : Readiness).armed[listener]? = none := Std.TreeMap.getElem?_emptyc
    have harm := Readiness.armed_arm_of_none fd .read hnone
    simp only [listening, entry, harm]
    by_cases hfd : fd = listener
    · simp [hfd, Interest.set]
    · simp [hfd, Ne.symm hfd]

/-! ### Looking up a client -/

section
variable (clients : Std.TreeMap Fd Client) (c : Client) (fd : Fd)

theorem get_insert :
    (clients.insert c.fd c)[fd]? = if c.fd = fd then some c else clients[fd]? := by
  simp [Std.TreeMap.getElem?_insert]

theorem get_erase : (clients.erase c.fd)[fd]? = if c.fd = fd then none else clients[fd]? := by
  simp [Std.TreeMap.getElem?_erase]

variable {clients c fd} {d : Client}

theorem of_get_insert (h : (clients.insert c.fd c)[fd]? = some d) :
    fd = c.fd ∧ d = c ∨ fd ≠ c.fd ∧ clients[fd]? = some d := by
  rw [get_insert] at h
  by_cases hfd : c.fd = fd
  · rw [if_pos hfd, Option.some.injEq] at h
    exact .inl ⟨hfd.symm, h.symm⟩
  · rw [if_neg hfd] at h
    exact .inr ⟨Ne.symm hfd, h⟩

theorem of_get_erase (h : (clients.erase c.fd)[fd]? = some d) : clients[fd]? = some d := by
  rw [get_erase] at h
  by_cases hfd : c.fd = fd
  · rw [if_pos hfd] at h
    cases h
  · rwa [if_neg hfd] at h

theorem get_erase_of_none (h : clients[fd]? = none) : (clients.erase c.fd)[fd]? = none := by
  rw [get_erase, h, ite_self]

end

/-! ### What keeps the invariant -/

section
variable {s : Origin σ} {c : Client} {r : Readiness}

/-- Nothing is armed under a spare number. -/
theorem Coherent.armed_of_spare (hs : s.Coherent) {g fd : Fd} (h : s.Spare g fd) :
    s.readiness.armed[fd]? = none := by
  rw [hs.armed, entry, if_neg h.listener, h.socket, Option.map_none]

theorem Spare.put {g fd : Fd} (h : s.Spare g fd) (hne : c.fd ≠ fd)
    (hfile : g ≠ c.fd → c.file? ≠ some fd) (r : Readiness) (state : σ) :
    Spare { s with readiness := r, state, clients := s.clients.insert c.fd c } g fd where
  listener := h.listener
  socket := by
    dsimp only
    rw [get_insert, if_neg hne]
    exact h.socket
  file g' d hg hd := by
    obtain ⟨rfl, rfl⟩ | ⟨-, hold⟩ := of_get_insert hd
    · exact hfile (Ne.symm hg)
    · exact h.file g' d hg hold

/-- A connection is put among the clients, be it new or known. -/
theorem Coherent.put (hs : s.Coherent) (hr : ∀ fd : Fd, r.armed[fd]? = s.readiness.armed[fd]?)
    (hfd : c.fd ≠ s.listener) (hc : c.Coherent) (halive : c.isOver = false)
    (hsocket : ∀ (g : Fd) (d : Client), g ≠ c.fd → s.clients[g]? = some d → d.file? ≠ some c.fd)
    (hfile : ∀ fd, c.file? = some fd → c.fd ≠ fd ∧ s.Spare c.fd fd) (state : σ) :
    Coherent { s with readiness := c.arm r, state, clients := s.clients.insert c.fd c } := by
  constructor
  · intro fd d hd
    obtain ⟨rfl, rfl⟩ | ⟨-, hold⟩ := of_get_insert hd
    · rfl
    · exact hs.keyed hold
  · dsimp only
    rw [get_insert, if_neg hfd]
    exact hs.listener
  · intro g fd d hd hf
    obtain ⟨rfl, rfl⟩ | ⟨hg, hold⟩ := of_get_insert hd
    · obtain ⟨hne, hspare⟩ := hfile fd hf
      apply hspare.put hne
      intro hself
      exact absurd rfl hself
    · apply (hs.files hold hf).put
      · rintro rfl
        exact hsocket g d hg hold hf
      · intro _ hf'
        exact (hfile fd hf').2.file g d hg hold hf
  · intro fd d hd
    obtain ⟨-, rfl⟩ | ⟨-, hold⟩ := of_get_insert hd
    · exact hc
    · exact hs.client hold
  · intro fd d hd
    obtain ⟨-, rfl⟩ | ⟨-, hold⟩ := of_get_insert hd
    · exact halive
    · exact hs.alive hold
  · intro fd
    simp only [entry, get_insert]
    rw [Client.armed_arm, hc.interest_isEmpty, halive, hr, hs.armed, entry]
    by_cases hg : c.fd = fd
    · subst hg
      simp [hfd]
    · simp [hg]

theorem Coherent.drop (hs : s.Coherent) (hr : ∀ fd : Fd, r.armed[fd]? = s.readiness.armed[fd]?)
    (hfd : c.fd ≠ s.listener) (hc : c.Unarmed r) (state : σ) :
    Coherent { s with
      readiness := (c.release r).2, state, clients := s.clients.erase c.fd } := by
  constructor
  · intro fd d hd
    exact hs.keyed (of_get_erase hd)
  · exact get_erase_of_none hs.listener
  · intro g fd d hd hf
    have hspare := hs.files (of_get_erase hd) hf
    refine ⟨hspare.listener, get_erase_of_none hspare.socket, ?_⟩
    intro g' d' hg' hd'
    exact hspare.file g' d' hg' (of_get_erase hd')
  · intro fd d hd
    exact hs.client (of_get_erase hd)
  · intro fd d hd
    exact hs.alive (of_get_erase hd)
  · intro fd
    simp only [entry, get_erase]
    rw [Client.armed_release hc, hr, hs.armed, entry]
    by_cases hg : c.fd = fd
    · subst hg
      simp [hfd]
    · simp [hg]

/-- A change of the pause changes the listener's entry alone. -/
theorem Coherent.of_listener (hs : s.Coherent) {since : Option Instant}
    (hother : ∀ fd : Fd, fd ≠ s.listener → r.armed[fd]? = s.readiness.armed[fd]?)
    (hlistener : r.armed[s.listener]? = if since.isSome then none else some { read := true }) :
    Coherent { s with readiness := r, pausedSince := since } where
  keyed := hs.keyed
  listener := hs.listener
  files h hf := ⟨(hs.files h hf).listener, (hs.files h hf).socket, (hs.files h hf).file⟩
  client := hs.client
  alive := hs.alive
  armed fd := by
    by_cases hfd : fd = s.listener
    · simp only [entry, hfd, if_true, hlistener]
    · simp only [entry, hfd, if_false, hother fd hfd, hs.armed]

theorem Coherent.resume (hs : s.Coherent) (hp : s.pausedSince.isSome = true) :
    s.resume.Coherent := by
  have hnone : s.readiness.armed[s.listener]? = none := by
    rw [hs.armed, entry, if_pos rfl, if_pos hp]
  apply hs.of_listener
  · intro fd hfd
    exact Readiness.armed_arm_of_ne fd .read (Ne.symm hfd)
  · rw [Readiness.armed_arm_of_none _ .read hnone, if_pos rfl]
    rfl

theorem Coherent.pause (hs : s.Coherent) (instant : Instant) : (s.pause instant).Coherent := by
  have hread : (s.readiness.armedFor s.listener).set false .read = {} := by
    rw [Readiness.armedFor_eq, hs.armed, entry, if_pos rfl]
    cases s.pausedSince.isSome <;> rfl
  apply hs.of_listener
  · intro fd hfd
    exact Readiness.armed_disarm_of_ne fd .read (Ne.symm hfd)
  · rw [Readiness.disarm, Readiness.armed_setArmed, if_pos rfl, hread]
    rfl

theorem Coherent.takeIn (hs : s.Coherent) {fd : Fd} (hfd : fd ∉ s.openFds) :
    (s.takeIn fd).Coherent := by
  have hspare := spare_of_not_mem hfd fd
  apply hs.put (fun _ => rfl) hspare.listener (Client.coherent_fresh fd) rfl
  · exact hspare.file
  · intro f hf
    cases hf

theorem Coherent.acceptWaiting (hs : s.Coherent) (instant : Instant)
    {accepts : List (Except Fault Fd)} (hk : s.acceptsFresh accepts = true) :
    (s.acceptWaiting instant accepts).1.Coherent := by
  induction accepts generalizing s with
  | nil => exact hs
  | cons a rest ih =>
    cases a with
    | ok fd =>
      rw [acceptsFresh, Bool.and_eq_true] at hk
      have hfd : fd ∉ s.openFds := by simpa using hk.1
      exact ih (hs.takeIn hfd) hk.2
    | error f =>
      cases f with
      | wouldBlock => exact hs
      | interrupted => exact ih hs hk
      | _ => exact hs.pause instant

theorem Coherent.close (hs : s.Coherent) (hr : ∀ fd : Fd, r.armed[fd]? = s.readiness.armed[fd]?)
    (hfd : c.fd ≠ s.listener) (hc : c.Unarmed r) (state : σ) :
    (close { s with readiness := r, state } c).Coherent := by
  have hdrop := hs.drop hr hfd hc state
  rw [Origin.close]
  dsimp only
  cases hp : s.pausedSince with
  | none => simpa [hp] using hdrop
  | some since =>
    have hresume := hdrop.resume (by simp [hp])
    simpa [hp] using hresume

end

/-! ### Events -/

section
variable {s : Origin σ} {e : Event} {t : Surroundings} {c : Client}

theorem serve_eq (s : Origin σ) (e : Event) (c : Client) (t : Surroundings) :
    (s.serve e c t).1 =
      let wrote := s.afterWrites e c t
      if !wrote.result.isOk || wrote.client.isOver then
        close { s with readiness := wrote.readiness, state := wrote.state } wrote.client
      else { s with
        readiness := wrote.client.arm wrote.readiness
        state := wrote.state
        clients := s.clients.insert wrote.client.fd wrote.client } := by
  rw [serve]
  exact apply_ite Prod.fst _ _ _

theorem fd_afterReads (s : Origin σ) (e : Event) (c : Client) (t : Surroundings) :
    (s.afterReads e c t).client.fd = c.fd := by
  rw [afterReads]
  split
  · exact Client.fd_react s.responder c s.state (.readable t.now (t.reads e.fd))
  · rfl

theorem fd_afterWrites (s : Origin σ) (e : Event) (c : Client) (t : Surroundings) :
    (s.afterWrites e c t).client.fd = c.fd := by
  have hread := s.fd_afterReads e c t
  rw [afterWrites]
  split
  · have hreact := Client.fd_react s.responder (s.afterReads e c t).client
      (s.afterReads e c t).state (.writable t.now (t.writes e.fd) s.readiness)
    exact hreact.trans hread
  · exact hread

theorem coherent_afterReads (hc : c.Coherent) : (s.afterReads e c t).client.Coherent := by
  rw [afterReads]
  split
  · exact hc.react s.responder s.state (.readable t.now (t.reads e.fd))
  · exact hc

theorem coherent_afterWrites (hc : c.Coherent) : (s.afterWrites e c t).client.Coherent := by
  have hread : (s.afterReads e c t).client.Coherent := coherent_afterReads hc
  rw [afterWrites]
  split
  · exact hread.react s.responder _ (.writable t.now (t.writes e.fd) s.readiness)
  · exact hread

/-- A connection's file has a number to itself, be it an old file or a new one. -/
theorem Coherent.spare_of_fresh (hs : s.Coherent) {g fd : Fd} {c' : Client}
    (hc : s.clients[g]? = some c) (hk : s.fileFresh c c' = true) (hf : c'.file? = some fd) :
    s.Spare g fd := by
  rw [fileFresh, hf, Option.all_some, Bool.or_eq_true] at hk
  obtain hold | hnew := hk
  · exact hs.files hc (by simpa using hold)
  · have hfd : fd ∉ s.openFds := by simpa using hnew
    exact spare_of_not_mem hfd g

theorem Coherent.unarmed (hs : s.Coherent) {g : Fd} {c' : Client} (hc : s.clients[g]? = some c)
    (hk : s.fileFresh c c' = true) : c'.Unarmed s.readiness := by
  intro fd hf
  exact hs.armed_of_spare (hs.spare_of_fresh hc hk hf)

theorem Coherent.serve (hs : s.Coherent) {g : Fd} (hc : s.clients[g]? = some c)
    (hread : s.fileFresh c (s.afterReads e c t).client = true)
    (hwrite : s.fileFresh c (s.afterWrites e c t).client = true) :
    (s.serve e c t).1.Coherent := by
  have hkey : c.fd = g := hs.keyed hc
  have hfd : (s.afterWrites e c t).client.fd = g := (s.fd_afterWrites e c t).trans hkey
  have hg : g ≠ s.listener := by
    rintro rfl
    rw [hs.listener] at hc
    cases hc
  have harmed : ∀ fd : Fd, (s.afterWrites e c t).readiness.armed[fd]? = s.readiness.armed[fd]? := by
    intro fd
    rw [afterWrites]
    split
    · exact (Client.disarms_deliver ..).armed (hs.unarmed hc hread) fd
    · rfl
  have hunarmed : (s.afterWrites e c t).client.Unarmed (s.afterWrites e c t).readiness := by
    intro fd hf
    rw [harmed]
    exact hs.unarmed hc hwrite fd hf
  rw [serve_eq]
  dsimp only
  split
  · exact hs.close harmed (hfd ▸ hg) hunarmed _
  · rename_i hgoes
    have halive : (s.afterWrites e c t).client.isOver = false := by simp_all
    apply hs.put harmed (hfd ▸ hg) (coherent_afterWrites (hs.client hc)) halive
    · intro g' d hg' hd hf
      have hsocket := (hs.files hd hf).socket
      rw [hfd, hc] at hsocket
      cases hsocket
    · intro fd hf
      have hspare := hs.spare_of_fresh hc hwrite hf
      rw [hfd]
      refine ⟨?_, hspare⟩
      rintro rfl
      have hsocket := hspare.socket
      rw [hc] at hsocket
      cases hsocket

theorem Coherent.onEvent (hs : s.Coherent) (hk : s.eventFresh t e = true) :
    (s.onEvent e t).1.Coherent := by
  rw [eventFresh] at hk
  rw [Origin.onEvent]
  by_cases he : e.fd = s.listener
  · rw [if_pos he] at hk ⊢
    cases hr : e.readable with
    | false => exact hs
    | true =>
      rw [hr, Bool.not_true, Bool.false_or] at hk
      exact hs.acceptWaiting t.serving hk
  · rw [if_neg he] at hk ⊢
    rw [Std.TreeMap.get?_eq_getElem?]
    cases hc : s.clients[e.fd]? with
    | none => exact hs
    | some c =>
      rw [hc, Option.all_some, Bool.and_eq_true] at hk
      exact hs.serve hc hk.1 hk.2

theorem Coherent.onEvents (hs : s.Coherent) {events : List Event}
    (hk : s.eventsFresh t events = true) : (s.onEvents t events).1.Coherent := by
  induction events generalizing s with
  | nil => exact hs
  | cons e events ih =>
    rw [eventsFresh, Bool.and_eq_true] at hk
    exact ih (hs.onEvent hk.1) hk.2

end

/-! ### Turns -/

section
variable {s : Origin σ}

theorem Coherent.beforeWait (hs : s.Coherent) (timeout : Option Nat)
    (entered bounded : Instant) : (s.beforeWait timeout entered bounded).1.Coherent := by
  rw [Origin.beforeWait]
  split
  · exact hs
  · rename_i since hp
    split
    · exact hs.resume (by simp [hp])
    · exact hs

theorem Coherent.awaited (hs : s.Coherent) (u : Turn) : (s.awaited u).Coherent := by
  have hbefore := hs.beforeWait u.timeout u.around.entered u.around.bounded
  apply hbefore.of_listener
  · intro fd _
    rw [Readiness.armed_wait]
  · rw [Readiness.armed_wait, hbefore.armed, entry, if_pos rfl]

theorem Coherent.turn (hs : s.Coherent) {u : Turn}
    (hk : (s.awaited u).eventsFresh u.around (s.eventsOf u) = true) : (s.turn u).Coherent :=
  (hs.awaited u).onEvents hk

theorem Coherent.run (hs : s.Coherent) {turns : List Turn} (hk : s.runFresh turns = true) :
    (s.run turns).Coherent := by
  induction turns generalizing s with
  | nil => exact hs
  | cons u turns ih =>
    rw [runFresh, Bool.and_eq_true] at hk
    exact ih (hs.turn hk.1) hk.2

end

/-! ### The rest is left alone -/

section
variable {s : Origin σ} {e : Event} {t : Surroundings} {g : Fd}

theorem clients_close (s : Origin σ) (c : Client) : (s.close c).clients = s.clients.erase c.fd := by
  rw [close]
  dsimp only
  split <;> rfl

theorem listener_close (s : Origin σ) (c : Client) : (s.close c).listener = s.listener := by
  rw [close]
  dsimp only
  split <;> rfl

theorem listener_onEvent (he : e.fd ≠ s.listener) : (s.onEvent e t).1.listener = s.listener := by
  rw [onEvent, if_neg he]
  split
  · rename_i c _
    rw [serve_eq]
    dsimp only
    split
    · exact listener_close _ _
    · rfl
  · rfl

/-- An event of one connection leaves every other connection as it was. -/
theorem clients_onEvent (hkey : ∀ {c : Client}, s.clients[e.fd]? = some c → c.fd = e.fd)
    (he : e.fd ≠ s.listener) (hg : g ≠ e.fd) :
    (s.onEvent e t).1.clients[g]? = s.clients[g]? := by
  rw [Origin.onEvent, if_neg he, Std.TreeMap.get?_eq_getElem?]
  cases hc : s.clients[e.fd]? with
  | none => rfl
  | some c =>
    have hfd : (s.afterWrites e c t).client.fd = e.fd :=
      (s.fd_afterWrites e c t).trans (hkey hc)
    dsimp only
    rw [serve_eq]
    dsimp only
    split
    · rw [clients_close, get_erase, hfd, if_neg (Ne.symm hg)]
    · rw [get_insert, hfd, if_neg (Ne.symm hg)]

theorem Coherent.clients_onEvent (hs : s.Coherent) (he : e.fd ≠ s.listener) (hg : g ≠ e.fd) :
    (s.onEvent e t).1.clients[g]? = s.clients[g]? :=
  Origin.clients_onEvent hs.keyed he hg

theorem Coherent.armed_onEvent (hs : s.Coherent) (hk : s.eventFresh t e = true)
    (he : e.fd ≠ s.listener) (hg : g ≠ e.fd) (hlistener : g ≠ s.listener) :
    (s.onEvent e t).1.readiness.armed[g]? = s.readiness.armed[g]? := by
  rw [(hs.onEvent hk).armed, hs.armed, entry, entry, listener_onEvent he, if_neg hlistener,
    if_neg hlistener, hs.clients_onEvent he hg]

end

/-- As long as the kernel gives out only numbers that are not in use, after any turns the interest
set is exact: the listener is armed unless accepting is paused, each connection for what it can
go on with, which is something, and nothing else is armed, least of all a number that is not open
or a file being sent. An event of one connection touches neither another connection nor its
entry. -/
theorem armed_run (listener : Fd) (responder : Responder σ) (state : σ) (turns : List Turn)
    (hk : (listening listener responder state).runFresh turns = true) :
    let s := (listening listener responder state).run turns
    (∀ fd, s.readiness.armed[fd]? = s.entry fd) ∧
    (∀ (fd : Fd) (c : Client), s.clients[fd]? = some c →
      c.fd = fd ∧ c.isOver = false ∧ (c.awaitsInput = true ∨ c.hasOutput = true)) ∧
    (∀ fd, fd ∉ s.openFds → s.readiness.armed[fd]? = none) ∧
    (∀ (g fd : Fd) (c : Client), s.clients[g]? = some c → c.file? = some fd →
      s.Spare g fd ∧ s.readiness.armed[fd]? = none) ∧
    ∀ e t, e.fd ≠ s.listener → s.eventFresh t e = true → ∀ g, g ≠ e.fd →
      (s.onEvent e t).1.clients[g]? = s.clients[g]? ∧
        (g ≠ s.listener →
          (s.onEvent e t).1.readiness.armed[g]? = s.readiness.armed[g]?) := by
  intro s
  have hs : s.Coherent := (coherent_listening listener responder state).run hk
  refine ⟨hs.armed, ?_, ?_, ?_, ?_⟩
  · intro fd c hc
    have halive := hs.alive hc
    refine ⟨hs.keyed hc, halive, ?_⟩
    by_contra hnothing
    rw [not_or, Bool.not_eq_true, Bool.not_eq_true] at hnothing
    rw [(hs.client hc).isOver_iff.2 hnothing] at halive
    cases halive
  · intro fd hfd
    exact hs.armed_of_spare (spare_of_not_mem hfd fd)
  · intro g fd c hc hf
    exact ⟨hs.files hc hf, hs.armed_of_spare (hs.files hc hf)⟩
  · intro e t he hfresh g hg
    exact ⟨hs.clients_onEvent he hg, hs.armed_onEvent hfresh he hg⟩

/-- A connection is accepted, and its request for the page begins to be answered: the file is open,
and accepting once more fails and pauses. -/
def visit : List Turn :=
  [{ timeout := none
     around :=
      { now := .epoch, entered := 0, serving := 0
        attempts := [.ok fun _ => { input := true }]
        accepts := [.error .interrupted, .ok 5]
        reads := fun _ => []
        writes := fun _ => [] }
     arrange := id },
   { timeout := some 10
     around :=
      { now := .epoch, entered := 1, serving := 2
        attempts := [.ok fun _ => { input := true }]
        accepts := [.error .other]
        reads := fun _ => [.bytes (Text.encode "GET / HTTP/1.1\r\n\r\n")]
        writes := fun _ => [] }
     arrange := List.reverse }]

theorem armed_run_visit :
    let s := (listening 3 Site.onePage.responder [7]).run visit
    s.openFds = [3, 5, 7] ∧ (∀ fd, s.readiness.armed[fd]? = s.entry fd) := by
  intro s
  have hopen : s.openFds = [3, 5, 7] := by decide +kernel
  have hk : (listening 3 Site.onePage.responder [7]).runFresh visit = true := by decide +kernel
  exact ⟨hopen, (armed_run 3 Site.onePage.responder [7] visit hk).1⟩

end HttpOrigin.Origin
