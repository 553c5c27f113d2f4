import HttpOrigin.Proofs.Descriptors
import Mathlib.Data.Finset.Erase
import Mathlib.Data.Finset.Insert

/-! Interest and events over whole runs. The interest is a set of descriptors with their kinds, to
which calls add and from which they take away. The events are those that the last wait found: later
changes of the interest leave them alone, and only discarding a descriptor takes its event out. -/
namespace HttpOrigin

theorem Interest.exists_has_of_not_isEmpty {a : Interest} (h : a.isEmpty = false) :
    ∃ kind, a.has kind = true := by
  cases hr : a.read with
  | true => exact ⟨.read, hr⟩
  | false =>
    cases hw : a.write with
    | true => exact ⟨.write, hw⟩
    | false => simp [Interest.isEmpty, hr, hw] at h

theorem Interest.eq_of_has {a b : Interest} (h : ∀ kind, a.has kind = true ↔ b.has kind = true) :
    a = b := by
  have hread : a.read = b.read := Bool.eq_iff_iff.2 (h .read)
  have hwrite : a.write = b.write := Bool.eq_iff_iff.2 (h .write)
  cases a
  cases b
  simp_all

def Signals.shows (s : Signals) : Direction → Bool
  | .read => s.input || s.broken
  | .write => s.output || s.broken

theorem Signals.shows_of_broken {s : Signals} (h : s.broken = true) (a : Interest) :
    (s.requested a).any = true ∧ ∀ kind, (s.requested a).shows kind = true := by
  have hbroken : (s.requested a).broken = true := h
  refine ⟨by rw [any, hbroken, Bool.or_true], fun kind => ?_⟩
  cases kind <;> rw [shows, hbroken, Bool.or_true]

/-- What is reported about an armed descriptor shows through something that it is armed for. -/
theorem Signals.exists_shows {s : Signals} {a : Interest} (hany : (s.requested a).any = true)
    (ha : ∃ kind, a.has kind = true) :
    ∃ kind, a.has kind = true ∧ (s.requested a).shows kind = true := by
  obtain ⟨kind, hkind⟩ := ha
  cases hbroken : s.broken with
  | true => exact ⟨kind, hkind, (shows_of_broken hbroken a).2 kind⟩
  | false =>
    have hquiet : (s.requested a).broken = false := hbroken
    rw [any, hquiet, Bool.or_false, Bool.or_eq_true, requested] at hany
    obtain hin | hout := hany
    · rw [Bool.and_eq_true] at hin
      exact ⟨.read, hin.2, by simp [shows, requested, hin]⟩
    · rw [Bool.and_eq_true] at hout
      exact ⟨.write, hout.2, by simp [shows, requested, hout]⟩

open Signals in
theorem Event.ofSignals?_eq_some_iff {fd : Fd} {a : Interest} {s : Signals} {e : Event} :
    Event.ofSignals? fd a s = some e ↔ e.fd = fd ∧ (s.requested a).any = true ∧
      ∀ kind, e.is kind = (a.has kind && (s.requested a).shows kind) := by
  have hkinds : (∀ kind, e.is kind = (a.has kind && (s.requested a).shows kind)) ↔
      e.readable = (a.read && (s.input || s.broken)) ∧
        e.writable = (a.write && (s.output || s.broken)) := by
    have hread : (a.has .read && (s.requested a).shows .read)
        = (a.read && (s.input || s.broken)) := by
      cases hr : a.read <;> simp [Interest.has, shows, requested, broken, hr]
    have hwrite : (a.has .write && (s.requested a).shows .write)
        = (a.write && (s.output || s.broken)) := by
      cases hw : a.write <;> simp [Interest.has, shows, requested, broken, hw]
    constructor
    · intro h
      exact ⟨(h .read).trans hread, (h .write).trans hwrite⟩
    · rintro ⟨hr, hw⟩ kind
      cases kind with
      | read => exact hr.trans hread.symm
      | write => exact hw.trans hwrite.symm
  rw [hkinds, Event.ofSignals?]
  cases e
  by_cases hany : (s.requested a).any = true
  · simp [hany, eq_comm]
  · simp [hany]

namespace Readiness

inductive Op where
  | arm (fd : Fd) (kind : Direction)
  | disarm (fd : Fd) (kind : Direction)
  | discard (fd : Fd)
  | wait (attempts : Attempts)

def perform (r : Readiness) : Op → Readiness
  | .arm fd kind => r.arm fd kind
  | .disarm fd kind => r.disarm fd kind
  | .discard fd => r.discard fd
  | .wait attempts => (r.wait attempts).2

def run (r : Readiness) (ops : List Op) : Readiness := ops.foldl perform r

def Op.apply (asked : Finset (Fd × Direction)) : Op → Finset (Fd × Direction)
  | .arm fd kind => insert (fd, kind) asked
  | .disarm fd kind => asked.erase (fd, kind)
  | .discard fd => (asked.erase (fd, .read)).erase (fd, .write)
  | .wait _ => asked

def askedBy (ops : List Op) : Finset (Fd × Direction) := ops.foldl Op.apply ∅

/-! ### What poll is asked and what it answers -/

def polled (r : Readiness) : List (Fd × Interest) := r.armed.toList

/-- What poll answers in the end. An interrupted attempt is no answer, and when the time is up
nothing is reported. -/
def answer : Attempts → Except Fault (Fd → Signals)
  | [] => .ok fun _ => {}
  | .ok signals :: _ => .ok signals
  | .error .interrupted :: rest => answer rest
  | .error f :: _ => .error f

def reported (r : Readiness) (signals : Fd → Signals) (fd : Fd) : Signals :=
  (signals fd).requested (r.armedFor fd)

def Op.refreshes : Op → Bool
  | .wait attempts => (answer attempts).isOk
  | .arm _ _ | .disarm _ _ | .discard _ => false

def Op.discards (fd : Fd) : Op → Bool
  | .discard gd => gd == fd
  | .arm _ _ | .disarm _ _ | .wait _ => false

/-! ### One wait -/

section
variable {r : Readiness} {signals : Fd → Signals} {attempts : Attempts}

theorem events_of_silence (r : Readiness) : r.events (fun _ => {}) = [] := by
  rw [events, List.filterMap_eq_nil_iff]
  intro p _
  rfl

theorem wait_of_ok (r : Readiness) (h : answer attempts = .ok signals) :
    r.wait attempts = (.ok (r.events signals).length, { r with ready := r.events signals }) := by
  induction attempts with
  | nil =>
    cases h
    rw [wait, events_of_silence]
    rfl
  | cons a rest ih =>
    cases a with
    | ok found =>
      cases h
      rfl
    | error f =>
      cases f with
      | interrupted => exact ih h
      | _ => cases h

theorem wait_of_error (r : Readiness) {f : Fault} (h : answer attempts = .error f) :
    r.wait attempts = (.error (.io f), r) := by
  induction attempts with
  | nil => cases h
  | cons a rest ih =>
    cases a with
    | ok found => cases h
    | error g =>
      cases g with
      | interrupted => exact ih h
      | _ =>
        cases h
        rfl

/-- A wait changes nothing but the list of what is ready. -/
theorem armed_wait (r : Readiness) (attempts : Attempts) :
    (r.wait attempts).2.armed = r.armed := by
  cases h : answer attempts with
  | ok signals => rw [wait_of_ok r h]
  | error f => rw [wait_of_error r h]

theorem mem_polled {fd : Fd} {a : Interest} : (fd, a) ∈ r.polled ↔ r.armed[fd]? = some a :=
  Std.TreeMap.mem_toList_iff_getElem?_eq_some

theorem pairwise_polled (r : Readiness) : r.polled.Pairwise (·.1 < ·.1) := by
  have hordered := Std.TreeMap.ordered_keys_toList (t := r.armed)
  simp only [compare_lt_iff_lt] at hordered
  exact hordered

/-- An event is what is reported about an armed descriptor, seen through its kinds. -/
theorem mem_events {e : Event} :
    e ∈ r.events signals ↔ (∃ a, (e.fd, a) ∈ r.polled) ∧
      (r.reported signals e.fd).any = true ∧
      ∀ kind, e.is kind = (r.isArmed e.fd kind && (r.reported signals e.fd).shows kind) := by
  have harmed : ∀ a, (e.fd, a) ∈ r.polled → r.armedFor e.fd = a := by
    intro a ha
    rw [armedFor_eq, mem_polled.1 ha, Option.getD_some]
  have hmem : e ∈ r.events signals ↔ ∃ a, (e.fd, a) ∈ r.polled ∧
      Event.ofSignals? e.fd a (signals e.fd) = some e := by
    rw [events, List.mem_filterMap]
    constructor
    · rintro ⟨⟨fd, a⟩, ha, he⟩
      obtain rfl : e.fd = fd := (Event.ofSignals?_eq_some_iff.1 he).1
      exact ⟨a, ha, he⟩
    · rintro ⟨a, ha, he⟩
      exact ⟨(e.fd, a), ha, he⟩
  rw [hmem]
  constructor
  · rintro ⟨a, ha, he⟩
    obtain ⟨-, hany, hkinds⟩ := Event.ofSignals?_eq_some_iff.1 he
    simp only [reported, isArmed, harmed a ha]
    exact ⟨⟨a, ha⟩, hany, hkinds⟩
  · rintro ⟨⟨a, ha⟩, hany, hkinds⟩
    simp only [reported, isArmed, harmed a ha] at hany hkinds
    exact ⟨a, ha, Event.ofSignals?_eq_some_iff.2 ⟨rfl, hany, hkinds⟩⟩

/-- There is an event exactly if there is something to report. -/
theorem exists_event_iff {fd : Fd} : (∃ e ∈ r.events signals, e.fd = fd) ↔
    (∃ a, (fd, a) ∈ r.polled) ∧ (r.reported signals fd).any = true := by
  constructor
  · rintro ⟨e, he, rfl⟩
    obtain ⟨hpolled, hany, -⟩ := mem_events.1 he
    exact ⟨hpolled, hany⟩
  · rintro ⟨hpolled, hany⟩
    let e : Event :=
      { fd
        readable := r.isArmed fd .read && (r.reported signals fd).shows .read
        writable := r.isArmed fd .write && (r.reported signals fd).shows .write }
    have hkinds : ∀ kind,
        e.is kind = (r.isArmed fd kind && (r.reported signals fd).shows kind) := by
      intro kind
      cases kind <;> rfl
    exact ⟨e, mem_events.2 ⟨hpolled, hany, hkinds⟩, rfl⟩

theorem pairwise_events (r : Readiness) (signals : Fd → Signals) :
    (r.events signals).Pairwise (·.fd < ·.fd) := by
  rw [events, List.pairwise_filterMap]
  apply r.pairwise_polled.imp
  intro p q hlt e he f hf
  rw [(Event.ofSignals?_eq_some_iff.1 he).1, (Event.ofSignals?_eq_some_iff.1 hf).1]
  exact hlt

end

/-! ### Whole runs -/

structure Tracks (r : Readiness) (asked : Finset (Fd × Direction)) : Prop where
  isArmed : ∀ fd kind, r.isArmed fd kind = true ↔ (fd, kind) ∈ asked
  occupied : ∀ {fd : Fd} {a : Interest}, r.armed[fd]? = some a → a.isEmpty = false

theorem tracks_nothing : Tracks {} ∅ where
  isArmed fd kind := by
    cases kind <;> simp [isArmed, armedFor_eq, Interest.has]
  occupied h := by
    rw [Std.TreeMap.getElem?_emptyc] at h
    cases h

section
variable {r : Readiness} {asked : Finset (Fd × Direction)}

theorem Tracks.occupied_setArmed (h : r.Tracks asked) {fd gd : Fd} {a b : Interest}
    (hb : (r.setArmed fd a).armed[gd]? = some b) : b.isEmpty = false := by
  rw [armed_setArmed] at hb
  by_cases hfd : fd = gd
  · rw [if_pos hfd] at hb
    cases ha : a.isEmpty with
    | true => simp [ha] at hb
    | false =>
      rw [ha, if_neg Bool.false_ne_true, Option.some.injEq] at hb
      rw [← hb, ha]
  · rw [if_neg hfd] at hb
    exact h.occupied hb

theorem Tracks.perform (h : r.Tracks asked) (op : Op) :
    (r.perform op).Tracks (op.apply asked) := by
  cases op with
  | arm fd kind =>
    refine ⟨fun gd l => ?_, h.occupied_setArmed⟩
    rw [Readiness.perform, isArmed_arm, Bool.or_eq_true, decide_eq_true_eq, h.isArmed, Op.apply,
      Finset.mem_insert, Prod.mk.injEq, eq_comm (a := gd), eq_comm (a := l)]
  | disarm fd kind =>
    refine ⟨fun gd l => ?_, h.occupied_setArmed⟩
    rw [Readiness.perform, isArmed_disarm, Bool.and_eq_true, Bool.not_eq_true',
      decide_eq_false_iff_not, h.isArmed, Op.apply, Finset.mem_erase, ne_eq, Prod.mk.injEq,
      eq_comm (a := gd), eq_comm (a := l)]
  | discard fd =>
    constructor
    · intro gd l
      rw [Readiness.perform, isArmed_discard, Bool.and_eq_true, Bool.not_eq_true',
        decide_eq_false_iff_not, h.isArmed, Op.apply]
      cases l <;> simp [eq_comm]
    · intro gd a ha
      rw [Readiness.perform, armed_discard] at ha
      split at ha
      · cases ha
      · exact h.occupied ha
  | wait attempts =>
    have harmed : (r.perform (.wait attempts)).armed = r.armed := armed_wait r attempts
    constructor
    · intro gd l
      have hsame : (r.perform (.wait attempts)).isArmed gd l = r.isArmed gd l := by
        simp only [Readiness.isArmed, armedFor, harmed]
      rw [hsame]
      exact h.isArmed gd l
    · intro gd a ha
      rw [harmed] at ha
      exact h.occupied ha

theorem Tracks.run (h : r.Tracks asked) (ops : List Op) :
    (r.run ops).Tracks (ops.foldl Op.apply asked) := by
  induction ops generalizing r asked with
  | nil => exact h
  | cons op ops ih => exact ih (h.perform op)

theorem Tracks.polled_of_mem (h : r.Tracks asked) {fd : Fd} {kind : Direction}
    (hk : (fd, kind) ∈ asked) : ∃ a, (fd, a) ∈ r.polled := by
  have hhas := (h.isArmed fd kind).2 hk
  rw [Readiness.isArmed, armedFor_eq] at hhas
  cases ha : r.armed[fd]? with
  | none =>
    rw [ha] at hhas
    cases kind <;> cases hhas
  | some a => exact ⟨a, mem_polled.2 ha⟩

theorem Tracks.has_of_polled (h : r.Tracks asked) {fd : Fd} {a : Interest}
    (ha : (fd, a) ∈ r.polled) (kind : Direction) : a.has kind = true ↔ (fd, kind) ∈ asked := by
  rw [← h.isArmed, Readiness.isArmed, armedFor_eq, mem_polled.1 ha, Option.getD_some]

/-- What poll is given is the set that is asked for, and never a descriptor that is armed for
nothing. -/
theorem Tracks.mem_polled_iff (h : r.Tracks asked) {fd : Fd} {a : Interest} :
    (fd, a) ∈ r.polled ↔
      (∃ kind, a.has kind = true) ∧ ∀ kind, a.has kind = true ↔ (fd, kind) ∈ asked := by
  constructor
  · intro ha
    have hsome := h.occupied (mem_polled.1 ha)
    exact ⟨Interest.exists_has_of_not_isEmpty hsome, h.has_of_polled ha⟩
  · rintro ⟨⟨kind, hkind⟩, hall⟩
    obtain ⟨b, hb⟩ := h.polled_of_mem ((hall kind).1 hkind)
    have hsame : b = a := Interest.eq_of_has fun k => (h.has_of_polled hb k).trans (hall k).symm
    rwa [← hsame]

theorem Tracks.is_iff (h : r.Tracks asked) {signals : Fd → Signals} {e : Event}
    (he : e ∈ r.events signals) (kind : Direction) :
    e.is kind = true ↔ (e.fd, kind) ∈ asked ∧ (r.reported signals e.fd).shows kind = true := by
  rw [(mem_events.1 he).2.2, Bool.and_eq_true, h.isArmed]

/-- No event is empty: this is why a descriptor that is armed for nothing must not be kept. -/
theorem Tracks.exists_is (h : r.Tracks asked) {signals : Fd → Signals} {e : Event}
    (he : e ∈ r.events signals) : ∃ kind, e.is kind = true := by
  obtain ⟨⟨a, ha⟩, hany, hkinds⟩ := mem_events.1 he
  have hsome : ∃ kind, (r.armedFor e.fd).has kind = true := by
    rw [armedFor_eq, mem_polled.1 ha, Option.getD_some]
    exact (h.mem_polled_iff.1 ha).1
  obtain ⟨kind, hhas, hshows⟩ := Signals.exists_shows hany hsome
  refine ⟨kind, ?_⟩
  rw [hkinds, Readiness.isArmed, hhas, Bool.true_and]
  exact hshows

/-- What is broken is ready for whatever it is armed for. -/
theorem Tracks.isReady_of_broken (h : r.Tracks asked) {signals : Fd → Signals} {fd : Fd}
    {kind : Direction} (hk : (fd, kind) ∈ asked) (hbroken : (signals fd).broken = true) :
    ∃ e ∈ r.events signals, e.fd = fd ∧ e.is kind = true := by
  obtain ⟨hany, hshows⟩ := Signals.shows_of_broken hbroken (r.armedFor fd)
  obtain ⟨e, he, rfl⟩ := exists_event_iff.2 ⟨h.polled_of_mem hk, hany⟩
  exact ⟨e, he, rfl, (h.is_iff he kind).2 ⟨hk, hshows kind⟩⟩

end

theorem ready_perform (r : Readiness) {op : Op} (hop : op.refreshes = false) :
    (r.perform op).ready = r.ready.filter fun e => !op.discards e.fd := by
  cases op with
  | arm fd kind => simp [Readiness.perform, Op.discards, arm, setArmed]
  | disarm fd kind => simp [Readiness.perform, Op.discards, disarm, setArmed]
  | discard fd =>
    simp only [Readiness.perform, Op.discards, discard, beq_eq_decide, decide_not,
      eq_comm (a := fd)]
  | wait attempts =>
    cases ha : answer attempts with
    | ok signals => simp [Op.refreshes, ha, Except.isOk, Except.toBool] at hop
    | error f => simp [Readiness.perform, wait_of_error r ha, Op.discards]

theorem ready_run (r : Readiness) {ops : List Op} (hops : ∀ op ∈ ops, op.refreshes = false) :
    (r.run ops).ready = r.ready.filter fun e => !ops.any (Op.discards e.fd) := by
  induction ops generalizing r with
  | nil => simp [run]
  | cons op ops ih =>
    rw [List.forall_mem_cons] at hops
    have hrest := ih (r.perform op) hops.2
    rw [ready_perform r hops.1, List.filter_filter] at hrest
    simpa [run, Bool.and_comm] using hrest

/-- After any calls the interest is the set that they add up to, and poll is given exactly this
set, sorted and without a descriptor that is armed for nothing. A wait that fails changes nothing.
One that succeeds finds an event for each descriptor about which anything is reported, in ascending
order, and the event shows at least one kind, and only kinds that the descriptor is armed for; what
is broken shows through all of these. Whatever is armed, disarmed or waited for in vain afterwards
leaves the events alone, and discarding a descriptor takes out its own. -/
theorem events_of_calls (earlier : List Op) (attempts : Attempts) :
    let r := run {} earlier
    let (result, found) := r.wait attempts
    (∀ fd kind, r.isArmed fd kind = true ↔ (fd, kind) ∈ askedBy earlier) ∧
    r.polled.Pairwise (·.1 < ·.1) ∧
    (∀ fd a, (fd, a) ∈ r.polled ↔
      (∃ kind, a.has kind = true) ∧ ∀ kind, a.has kind = true ↔ (fd, kind) ∈ askedBy earlier) ∧
    match answer attempts with
    | .error f => result = .error (.io f) ∧ found = r
    | .ok signals =>
      result = .ok found.ready.length ∧ found.armed = r.armed ∧
      found.ready.Pairwise (·.fd < ·.fd) ∧
      (∀ fd, (∃ e ∈ found.ready, e.fd = fd) ↔
        (∃ a, (fd, a) ∈ r.polled) ∧ (r.reported signals fd).any = true) ∧
      (∀ e ∈ found.ready, (∃ kind, e.is kind = true) ∧
        ∀ kind, e.is kind = true ↔
          (e.fd, kind) ∈ askedBy earlier ∧ (r.reported signals e.fd).shows kind = true) ∧
      (∀ fd kind, (fd, kind) ∈ askedBy earlier → (signals fd).broken = true →
        found.isReady fd kind = true) ∧
      ∀ later : List Op, (∀ op ∈ later, op.refreshes = false) →
        (found.run later).ready = found.ready.filter fun e => !later.any (Op.discards e.fd) := by
  intro r
  have htracks : r.Tracks (askedBy earlier) := tracks_nothing.run earlier
  dsimp only
  refine ⟨htracks.isArmed, r.pairwise_polled, fun _ _ => htracks.mem_polled_iff, ?_⟩
  cases ha : answer attempts with
  | error f =>
    rw [wait_of_error r ha]
    exact ⟨rfl, rfl⟩
  | ok signals =>
    rw [wait_of_ok r ha]
    refine ⟨rfl, rfl, pairwise_events r signals, fun _ => exists_event_iff, ?_, ?_, ?_⟩
    · intro e he
      exact ⟨htracks.exists_is he, htracks.is_iff he⟩
    · intro fd kind hk hbroken
      obtain ⟨e, he, hfd, hkind⟩ := htracks.isReady_of_broken hk hbroken
      rw [isReady, List.any_eq_true]
      exact ⟨e, he, by rw [hfd, hkind, beq_self_eq_true, Bool.and_true]⟩
    · intro later hlater
      exact ready_run _ hlater

end Readiness

end HttpOrigin
