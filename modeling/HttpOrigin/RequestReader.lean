import HttpOrigin.Line
import HttpOrigin.Wire.Request
import HttpOrigin.Text.Utf8

/-! Reading requests out of a byte stream, a piece at a time. All that has been read of a request
is in the stage, so the pieces in which it arrives make no difference. The reader works on plain
byte strings and calls nobody; it stops at the first complete request. -/
namespace HttpOrigin

inductive Head where
  | start
  | fields (request : Request)
  deriving DecidableEq, Repr

namespace Head

inductive Step where
  | head (head : Head)
  | body (request : Request)
  | request (request : Request)
  | refused (error : HttpError)
  deriving DecidableEq, Repr

/-- The blank line after the head. Only a POST has a body, and it has to say how long it is. -/
def finish (r : Request) : Step :=
  match r.method with
  | .get | .head => .request r
  | .post =>
    match r.bodyLength with
    | .ok n => .body { r with contentLength := some n }
    | .error e => .refused e

/-- A field line: first its form is judged, then the number of fields. -/
def addField (r : Request) (line : String) : Step :=
  match Fields.ofLine line with
  | .error e => .refused e
  | .ok (name, value) =>
    match r.fields.insert? name value with
    | none => .refused (.badRequest .tooManyFields)
    | some longer => .head (.fields { r with fields := longer })

def next (h : Head) (line : String) : Step :=
  match h with
  | start =>
    if line.isEmpty then .head start
    else match Request.ofLine line with
      | .ok r => .head (.fields r)
      | .error e => .refused e
  | fields r => if line.isEmpty then finish r else addField r line

end Head

inductive Stage where
  | head (head : Head)
  | body (request : Request)
  deriving DecidableEq, Repr

namespace Stage

def idle : Stage := head .start

instance : Inhabited Stage := ⟨idle⟩

def isIdle (s : Stage) : Bool := s == idle

def pending? : Stage → Option Request
  | head .start => none
  | head (.fields r) | body r => some r

inductive Stop where
  | waiting (stage : Stage) (rest : Bytes)
  | request (request : Request) (rest : Bytes)
  | refused (error : HttpError) (rest : Bytes)
  deriving DecidableEq, Repr

def takeBody (r : Request) (input : Bytes) : Stop :=
  let length := r.contentLength.getD 0
  if input.length < length then .waiting (body r) input
  else .request { r with body := input.take length } (input.drop length)

def advance (s : Stage) (input : Bytes) : Stop :=
  match s with
  | body r => takeBody r input
  | head h =>
    match _h : Line.scan input with
    | .incomplete => .waiting (head h) input
    | .tooLong => .refused (.badRequest .lineTooLong) input
    | .line text rest =>
      match h.next (Text.decode text) with
      | .head h' => advance (head h') rest
      | .body r => advance (body r) rest
      | .request r => .request r rest
      | .refused e => .refused e rest
termination_by input.length
decreasing_by all_goals exact Line.length_rest_lt (by assumption)

/-- One if the stage may be left without consuming a byte. -/
def weight : Stage → Nat
  | head _ => 0
  | body _ => 1

theorem length_rest_le {s : Stage} {input rest : Bytes} {r : Request}
    (h : s.advance input = .request r rest) : 2 * rest.length < 2 * input.length + s.weight := by
  fun_induction advance s input with
  | case1 input r' =>
    simp only [takeBody] at h
    split at h
    · simp at h
    · simp only [Stop.request.injEq] at h
      simp only [← h.2, List.length_drop, weight]
      omega
  | case2 => simp at h
  | case3 => simp at h
  | case4 input _ text rest' hscan h' _ ih =>
    have := Line.length_rest_lt hscan
    have := ih h
    simp only [weight] at *
    omega
  | case5 input _ text rest' hscan r' _ ih =>
    have := Line.length_rest_lt hscan
    have := ih h
    simp only [weight] at *
    omega
  | case6 input _ text rest' hscan r' _ =>
    have := Line.length_rest_lt hscan
    simp only [Stop.request.injEq] at h
    simp only [← h.2, weight]
    omega
  | case7 => simp at h

end Stage

end HttpOrigin
