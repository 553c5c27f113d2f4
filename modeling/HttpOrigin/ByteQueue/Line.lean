import HttpOrigin.ByteQueue.Basic
import HttpOrigin.Line
import HttpOrigin.Text.Utf8
import HttpOrigin.Transport.Fault

/-! Reading lines of text out of a queue. -/
namespace HttpOrigin.ByteQueue

/-- Consumes the first line with its ending and gives its text. Nothing is consumed while no line
is complete, nor when the line is too long. -/
def readLine (b : ByteQueue) : Except TransportError (Option String) × ByteQueue :=
  match Line.scan b.toList with
  | .incomplete => (.ok none, b)
  | .tooLong => (.error (.lineTooLong maxLine), b)
  | .line text rest => (.ok (some (Text.decode text)), b.skip (b.length - rest.length))

end HttpOrigin.ByteQueue
