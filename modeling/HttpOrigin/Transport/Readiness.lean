import HttpOrigin.Transport.Fault
import Std.Data.TreeMap

/-! Readiness of descriptors: an interest set, changed one descriptor and kind at a time, and the
list found ready by the last wait. Changes of interest leave the list alone; only forgetting a
descriptor takes its event out of it. -/
namespace HttpOrigin

abbrev Fd := Int

def millisecond : Nat := 1000000

inductive Direction where
  | read
  | write
  deriving DecidableEq, Repr

structure Interest where
  read : Bool := false
  write : Bool := false
  deriving DecidableEq, Repr

namespace Interest

def has (a : Interest) : Direction → Bool
  | .read => a.read
  | .write => a.write

def set (a : Interest) (on : Bool) : Direction → Interest
  | .read => { a with read := on }
  | .write => { a with write := on }

def isEmpty (a : Interest) : Bool := !a.read && !a.write

@[simp] theorem has_set (a : Interest) (on : Bool) (k l : Direction) :
    (a.set on k).has l = if k = l then on else a.has l := by
  cases k <;> cases l <;> rfl

end Interest

structure Signals where
  input : Bool := false
  output : Bool := false
  hangUp : Bool := false
  error : Bool := false
  invalid : Bool := false
  deriving DecidableEq, Repr

namespace Signals

def broken (s : Signals) : Bool := s.hangUp || s.error || s.invalid

def any (s : Signals) : Bool := s.input || s.output || s.broken

def requested (s : Signals) (a : Interest) : Signals :=
  { s with input := s.input && a.read, output := s.output && a.write }

end Signals

structure Event where
  fd : Fd
  readable : Bool
  writable : Bool
  deriving DecidableEq, Repr

def Event.is (e : Event) : Direction → Bool
  | .read => e.readable
  | .write => e.writable

/-- The event of a descriptor, if anything is reported about it. What is broken shows through every
kind it is armed for, so that the operation which follows meets the failure. -/
def Event.ofSignals? (fd : Fd) (a : Interest) (s : Signals) : Option Event :=
  if (s.requested a).any then
    some ⟨fd, a.read && (s.input || s.broken), a.write && (s.output || s.broken)⟩
  else none

structure Readiness where
  /-- The armed descriptors; none is held that is armed for nothing. -/
  armed : Std.TreeMap Fd Interest := ∅
  ready : List Event := []

namespace Readiness

def armedFor (r : Readiness) (fd : Fd) : Interest := r.armed.getD fd {}

def isArmed (r : Readiness) (fd : Fd) (kind : Direction) : Bool := (r.armedFor fd).has kind

def isReady (r : Readiness) (fd : Fd) (kind : Direction) : Bool :=
  r.ready.any fun e => e.fd == fd && e.is kind

def setArmed (r : Readiness) (fd : Fd) (a : Interest) : Readiness :=
  { r with armed := if a.isEmpty then r.armed.erase fd else r.armed.insert fd a }

def arm (r : Readiness) (fd : Fd) (kind : Direction) : Readiness :=
  r.setArmed fd ((r.armedFor fd).set true kind)

def disarm (r : Readiness) (fd : Fd) (kind : Direction) : Readiness :=
  r.setArmed fd ((r.armedFor fd).set false kind)

def discard (r : Readiness) (fd : Fd) : Readiness where
  armed := r.armed.erase fd
  ready := r.ready.filter (·.fd ≠ fd)

def longestBound : Nat := 2147483647

/-- The bound of a wait in the whole milliseconds that poll takes, no more than it can take; without
a bound it takes -1. -/
def pollBound (timeout : Option Nat) : Int :=
  timeout.elim (-1) fun nanoseconds => (min (nanoseconds / millisecond) longestBound : Nat)

/-- The answers of the kernel to the attempts of one wait: what it reports about each descriptor. -/
abbrev Attempts := List (Except Fault (Fd → Signals))

def events (r : Readiness) (signals : Fd → Signals) : List Event :=
  r.armed.toList.filterMap fun (fd, a) => Event.ofSignals? fd a (signals fd)

/-- Replaces the ready list and counts it. An interrupted attempt is followed by the next; when the
attempts run out the time is up and nothing is ready. A failed wait leaves the list as it was. -/
def wait (r : Readiness) : Attempts → Except TransportError Nat × Readiness
  | [] => (.ok 0, { r with ready := [] })
  | .ok signals :: _ => (.ok (r.events signals).length, { r with ready := r.events signals })
  | .error .interrupted :: rest => r.wait rest
  | .error f :: _ => (.error (.io f), r)

@[simp] theorem armedFor_setArmed (r : Readiness) (fd gd : Fd) (a : Interest) :
    (r.setArmed fd a).armedFor gd = if fd = gd then a else r.armedFor gd := by
  by_cases ha : a.isEmpty
  · have : a = {} := by
      cases a
      simp_all [Interest.isEmpty]
    simp only [setArmed, ha, if_true, armedFor, Std.TreeMap.getD_erase, Std.compare_eq_iff_eq]
    split <;> simp_all
  · simp only [setArmed, ha, Bool.false_eq_true, if_false, armedFor, Std.TreeMap.getD_insert,
      Std.compare_eq_iff_eq]

theorem isArmed_arm (r : Readiness) (fd gd : Fd) (k l : Direction) :
    (r.arm fd k).isArmed gd l = (decide (fd = gd ∧ k = l) || r.isArmed gd l) := by
  simp only [arm, isArmed, armedFor_setArmed]
  by_cases hf : fd = gd <;> by_cases hk : k = l <;> simp [hf, hk]

theorem isArmed_disarm (r : Readiness) (fd gd : Fd) (k l : Direction) :
    (r.disarm fd k).isArmed gd l = (!decide (fd = gd ∧ k = l) && r.isArmed gd l) := by
  simp only [disarm, isArmed, armedFor_setArmed]
  by_cases hf : fd = gd <;> by_cases hk : k = l <;> simp [hf, hk]

theorem isArmed_discard (r : Readiness) (fd gd : Fd) (l : Direction) :
    (r.discard fd).isArmed gd l = (!decide (fd = gd) && r.isArmed gd l) := by
  simp only [discard, isArmed, armedFor, Std.TreeMap.getD_erase, Std.compare_eq_iff_eq]
  by_cases hf : fd = gd <;> cases l <;> simp [hf, Interest.has]

end Readiness

end HttpOrigin
