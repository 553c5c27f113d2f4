import HttpOrigin.Bytes
import HttpOrigin.Transport.Fault

/-! A descriptor that never blocks, described by what its next calls meet. A script that has run
out blocks. -/
namespace HttpOrigin

/-- What a read call meets. Bytes that do not fit the caller's space stay for the next call; the
arrival of no bytes is the end of the stream. -/
inductive Arrival where
  | bytes (data : Bytes)
  | fault (fault : Fault)
  deriving DecidableEq, Repr

inductive Acceptance where
  | upTo (count : Nat)
  | everything
  | fault (fault : Fault)
  deriving DecidableEq, Repr

namespace Arrival

def endOfStream : Arrival := .bytes []

/-- One read call with space for `space` bytes: its result and what later calls meet. -/
def read (space : Nat) : List Arrival → Except Fault Bytes × List Arrival
  | [] => (.error .wouldBlock, [])
  | .fault f :: rest => (.error f, rest)
  | .bytes data :: rest =>
    if data.length ≤ space then (.ok data, rest)
    else (.ok (data.take space), .bytes (data.drop space) :: rest)

def weight : List Arrival → Nat
  | [] => 0
  | .fault _ :: rest => 1 + weight rest
  | .bytes data :: rest => 1 + data.length + weight rest

/-- A read that brings bytes leaves less to be read. -/
theorem weight_lt_of_read_ok {space : Nat} {script rest : List Arrival} {b : UInt8} {bs : Bytes}
    (h : read space script = (.ok (b :: bs), rest)) : weight rest < weight script := by
  cases script with
  | nil => simp [read] at h
  | cons a script =>
    cases a with
    | fault f => simp [read] at h
    | bytes data =>
      simp only [read] at h
      split at h
      · simp only [Prod.mk.injEq, Except.ok.injEq] at h
        simp only [weight, ← h.2]
        omega
      · rename_i hlen
        simp only [Prod.mk.injEq, Except.ok.injEq] at h
        have : 0 < space := by
          rcases Nat.eq_zero_or_pos space with rfl | hpos
          · simp at h
          · exact hpos
        simp only [weight, ← h.2, List.length_drop]
        omega

/-- An interrupted read has used up the interruption. -/
theorem weight_lt_of_read_interrupted {space : Nat} {script rest : List Arrival}
    (h : read space script = (.error .interrupted, rest)) : weight rest < weight script := by
  cases script with
  | nil => simp [read] at h
  | cons a script =>
    cases a with
    | fault f =>
      simp only [read, Prod.mk.injEq] at h
      simp only [weight, ← h.2]
      omega
    | bytes data =>
      simp only [read] at h
      split at h <;> simp at h

end Arrival

namespace Acceptance

def taken (offered : Nat) : Acceptance → Except Fault Nat
  | .upTo count => .ok (min count offered)
  | .everything => .ok offered
  | .fault f => .error f

theorem le_of_taken {offered n : Nat} {a : Acceptance} (h : a.taken offered = .ok n) :
    n ≤ offered := by
  cases a <;> simp only [taken, Except.ok.injEq, reduceCtorEq] at h <;> omega

def write (offered : Nat) : List Acceptance → Except Fault Nat × List Acceptance
  | [] => (.error .wouldBlock, [])
  | item :: rest => (item.taken offered, rest)

end Acceptance

end HttpOrigin
