import HttpOrigin.Transport.Readiness
import HttpOrigin.Transport.Script

/-! The far end of a connected stream socket: what it has sent and whether it is still there. From
it follow what the kernel reports about the near end and what reads there meet. -/
namespace HttpOrigin

structure Peer where
  unread : Bytes := []
  shut : Bool := false
  closed : Bool := false
  deriving DecidableEq, Repr

namespace Peer

def send (p : Peer) (data : Bytes) : Peer := { p with unread := p.unread ++ data }

def isDone (p : Peer) : Bool := p.shut || p.closed

def signals (p : Peer) : Signals where
  input := !p.unread.isEmpty || p.isDone
  output := true
  hangUp := p.closed

def arrivals (p : Peer) : List Arrival :=
  (if p.unread.isEmpty then [] else [.bytes p.unread]) ++ (if p.isDone then [.endOfStream] else [])

end Peer

abbrev Peers := Std.TreeMap Fd Peer

def Peers.signals (peers : Peers) (fd : Fd) : Signals :=
  if fd < 0 then {}
  else match peers.get? fd with
    | some p => p.signals
    | none => { invalid := true }

/-- One attempt to poll when the process may have `limit` descriptors: more than that many cannot
be polled at once. -/
def Peers.poll (peers : Peers) (limit : Option Nat) (r : Readiness) : Readiness.Attempts :=
  if limit.any (· < r.armed.size) then [.error .invalidArgument] else [.ok peers.signals]

end HttpOrigin
