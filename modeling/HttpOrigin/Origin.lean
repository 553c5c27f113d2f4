import HttpOrigin.Client

/-! The origin server: a listener, the clients by their descriptors, and the interest in all of
them. A cycle waits once and serves what is ready. What the kernel answers during a cycle is given
with it, so a cycle is a function. When accepting fails for good it pauses, because the listener
would stay ready; it goes on when a connection has closed or a while has passed. -/
namespace HttpOrigin

/-- A reading of the clock that never goes back, in nanoseconds. -/
abbrev Instant := Nat

def longestPause : Nat := 250 * millisecond

structure Origin (σ : Type) where
  responder : Responder σ
  state : σ
  listener : Fd
  readiness : Readiness
  clients : Std.TreeMap Fd Client
  pausedSince : Option Instant

structure Surroundings where
  now : Timestamp
  entered : Instant
  /-- The clock when a wait during a pause gets its bound. -/
  bounded : Instant := entered
  serving : Instant
  attempts : Readiness.Attempts
  /-- What successive calls of accept give; a list that has run out blocks. -/
  accepts : List (Except Fault Fd)
  reads : Fd → List Arrival
  writes : Fd → List Acceptance

inductive Action where
  | accepted (fd : Fd)
  | served (fd : Fd) (unread : List Arrival) (written : Bytes)
  | closed (fd : Fd)
  deriving DecidableEq, Repr

namespace Origin

variable {σ : Type}

def listening (listener : Fd) (responder : Responder σ) (state : σ) : Origin σ where
  responder
  state
  listener
  readiness := Readiness.arm {} listener .read
  clients := ∅
  pausedSince := none

def clientCount (s : Origin σ) : Nat := s.clients.size

def pause (s : Origin σ) (instant : Instant) : Origin σ :=
  { s with readiness := s.readiness.disarm s.listener .read, pausedSince := some instant }

def resume (s : Origin σ) : Origin σ :=
  { s with readiness := s.readiness.arm s.listener .read, pausedSince := none }

def takeIn (s : Origin σ) (fd : Fd) : Origin σ :=
  let c : Client := { fd }
  { s with readiness := c.arm s.readiness, clients := s.clients.insert fd c }

/-- Accepts until that would block. A call that was interrupted is made again; any other failure
pauses accepting. -/
def acceptWaiting (s : Origin σ) (instant : Instant) :
    List (Except Fault Fd) → Origin σ × List Action
  | [] => (s, [])
  | .ok fd :: rest =>
    let (s, actions) := (s.takeIn fd).acceptWaiting instant rest
    (s, .accepted fd :: actions)
  | .error .wouldBlock :: _ => (s, [])
  | .error .interrupted :: rest => s.acceptWaiting instant rest
  | .error _ :: _ => (s.pause instant, [])

def close (s : Origin σ) (c : Client) : Origin σ :=
  let s := { s with
    readiness := (c.release s.readiness).2
    clients := s.clients.erase c.fd }
  if s.pausedSince.isSome then s.resume else s

def serve (s : Origin σ) (e : Event) (c : Client) (t : Surroundings) :
    Origin σ × List Action :=
  let read : Client.Intake σ :=
    if e.readable then c.intake s.responder t.now (t.reads e.fd) s.state
    else ⟨.ok (), c, t.reads e.fd, s.state⟩
  let wrote : Client.Delivery σ :=
    if read.result.isOk && e.writable then
      read.client.deliver s.responder t.now (t.writes e.fd) s.readiness read.state
    else ⟨read.result, read.client, [], t.writes e.fd, s.readiness, read.state⟩
  let c := wrote.client
  let s := { s with readiness := wrote.readiness, state := wrote.state }
  let served := Action.served e.fd read.unread wrote.written
  if !wrote.result.isOk || c.isOver then (s.close c, [served, .closed e.fd])
  else
    ({ s with readiness := c.arm s.readiness, clients := s.clients.insert c.fd c },
      [served])

def onEvent (s : Origin σ) (e : Event) (t : Surroundings) : Origin σ × List Action :=
  if e.fd = s.listener then
    if e.readable then s.acceptWaiting t.serving t.accepts else (s, [])
  else match s.clients.get? e.fd with
    | some c => s.serve e c t
    | none => (s, [])

def onEvents (s : Origin σ) (t : Surroundings) : List Event → Origin σ × List Action
  | [] => (s, [])
  | e :: events =>
    let (s, actions) := s.onEvent e t
    let (s, more) := s.onEvents t events
    (s, actions ++ more)

/-- Ends a pause that has lasted long enough; a wait during a pause lasts no longer than what is
left of it. -/
def beforeWait (s : Origin σ) (timeout : Option Nat) (entered bounded : Instant) :
    Origin σ × Option Nat :=
  match s.pausedSince with
  | none => (s, timeout)
  | some since =>
    if longestPause ≤ entered - since then (s.resume, timeout)
    else
      let left := longestPause - (bounded - since)
      (s, some (timeout.elim left (min left)))

structure Cycle (σ : Type) where
  result : Except HttpError Nat
  origin : Origin σ
  bound : Int
  actions : List Action

/-- Waits once, for so many nanoseconds at most, and serves what is ready. Errors of single clients
close them and nothing else. -/
def cycle (s : Origin σ) (timeout : Option Nat) (t : Surroundings) : Cycle σ :=
  let (s, timeout) := s.beforeWait timeout t.entered t.bounded
  let bound := Readiness.pollBound timeout
  match s.readiness.wait t.attempts with
  | (.error e, readiness) => ⟨.error (.ofTransport e), { s with readiness }, bound, []⟩
  | (.ok n, readiness) =>
    let (s, actions) := onEvents { s with readiness } t readiness.ready
    ⟨.ok n, s, bound, actions⟩

end Origin

end HttpOrigin
