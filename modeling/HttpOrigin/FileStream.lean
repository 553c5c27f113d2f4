import HttpOrigin.Transport.Readiness
import HttpOrigin.Transport.Script

/-! A file on its way to a socket through one staged chunk. A step makes at most one read and one
write. The source is closed once: at its end, at the first failure on either side, or on demand. -/
namespace HttpOrigin

structure FileStream where
  fd : Fd
  /-- What reads of the file meet, or `none` once it is closed. -/
  source : Option (List Arrival)
  chunk : Bytes := []
  offset : Nat := 0
  deriving DecidableEq, Repr

namespace FileStream

def ofSource (fd : Fd) (source : List Arrival) : FileStream := { fd, source := some source }

def ofBytes (fd : Fd) (content : Bytes) : FileStream :=
  ofSource fd [.bytes content, .endOfStream]

def isOpen (s : FileStream) : Bool := s.source.isSome

def staged (s : FileStream) : Bytes := s.chunk.drop s.offset

def pending (s : FileStream) : Nat := s.chunk.length - s.offset

/-- Closes the source and takes its read interest back; false if it was closed before. -/
def close (s : FileStream) (r : Readiness) : Bool × FileStream × Readiness :=
  match s.source with
  | some _ => (true, { s with source := none }, r.disarm s.fd .read)
  | none => (false, s, r)

inductive Progress where
  | more
  | complete
  deriving DecidableEq, Repr

structure Step where
  result : Except TransportError Progress
  stream : FileStream
  written : Bytes
  unused : List Acceptance
  readiness : Readiness

def finish (s : FileStream) (r : Readiness) (script : List Acceptance)
    (result : Except TransportError Progress) : Step :=
  let (_, stream, readiness) := s.close r
  { result, stream, written := [], unused := script, readiness }

def sendStaged (s : FileStream) (r : Readiness) (script : List Acceptance) : Step :=
  match Acceptance.write s.pending script with
  | (.ok 0, rest) => s.finish r rest (.error (.io .nothingAccepted))
  | (.ok n, rest) =>
    ⟨.ok .more, { s with offset := s.offset + n }, s.staged.take n, rest, r⟩
  | (.error f, rest) =>
    if f.isHard then s.finish r rest (.error (.io f)) else ⟨.ok .more, s, [], rest, r⟩

def step (s : FileStream) (r : Readiness) (script : List Acceptance) : Step :=
  match s.source with
  | none => ⟨.ok .complete, s, [], script, r⟩
  | some source =>
    if s.offset < s.chunk.length then s.sendStaged r script
    else match Arrival.read chunkSize source with
      | (.ok [], rest) => finish { s with source := some rest } r script (.ok .complete)
      | (.ok data, rest) =>
        sendStaged { s with source := some rest, chunk := data, offset := 0 } r script
      | (.error f, rest) =>
        let s := { s with source := some rest }
        if f.isHard then s.finish r script (.error (.io f)) else ⟨.ok .more, s, [], script, r⟩

end FileStream

end HttpOrigin
