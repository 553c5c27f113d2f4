/-! What can go wrong when bytes are moved. -/
namespace HttpOrigin

inductive Fault where
  | connectionReset
  | connectionAborted
  | brokenPipe
  | notConnected
  | timedOut
  | permissionDenied
  | unexpectedEnd
  | other
  /-- Nothing can be moved now; never an error, but the signal to stop. -/
  | wouldBlock
  | interrupted
  /-- The peer takes no bytes although some were offered. -/
  | nothingAccepted
  | invalidArgument
  deriving DecidableEq, Repr

def Fault.message : Fault → String
  | connectionReset => "connection reset"
  | connectionAborted => "connection aborted"
  | brokenPipe => "broken pipe"
  | notConnected => "not connected"
  | timedOut => "timed out"
  | permissionDenied => "permission denied"
  | unexpectedEnd => "unexpected end of file"
  | other => "other error"
  | wouldBlock => "operation would block"
  | interrupted => "operation interrupted"
  | nothingAccepted => "peer accepted no bytes"
  | invalidArgument => "Invalid argument (os error 22)"

/-- A fault after which the operation is neither stopped quietly nor made again. -/
def Fault.isHard : Fault → Bool
  | wouldBlock | interrupted => false
  | _ => true

inductive TransportError where
  | io (fault : Fault)
  | lineTooLong (limit : Nat)
  deriving DecidableEq, Repr

def TransportError.message : TransportError → String
  | io fault => "I/O error: " ++ fault.message
  | lineTooLong limit => "Line exceeds " ++ toString limit ++ " bytes"

end HttpOrigin
