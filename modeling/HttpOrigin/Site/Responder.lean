import HttpOrigin.Responder
import HttpOrigin.Wire.Answer
import HttpOrigin.Site.MediaType

/-! The responder that serves a site. GET answers with a head and the file, HEAD with the head
alone, and POST is not implemented. Its state holds the numbers that the next opened files get. -/
namespace HttpOrigin

/-- The number that the file gets, and the numbers that are left. Opening fails when there is none,
or when the file cannot be read. -/
def File.open? (f : File) : List Fd → Option (Fd × List Fd)
  | [] => none
  | fd :: opens => if f.readable then some (fd, opens) else none

theorem File.open?_eq_some_iff {f : File} {opens rest : List Fd} {fd : Fd} :
    f.open? opens = some (fd, rest) ↔ f.readable = true ∧ opens = fd :: rest := by
  cases opens with
  | nil => simp [open?]
  | cons fd' opens => cases h : f.readable <;> simp [open?, h]

theorem File.open?_eq_none_iff {f : File} {opens : List Fd} :
    f.open? opens = none ↔ f.readable = false ∨ opens = [] := by
  cases opens with
  | nil => simp [open?]
  | cons fd opens => cases h : f.readable <;> simp [open?, h]

namespace Site

def head (now : Timestamp) (r : Request) (found : Located) : List Bytes :=
  [Answer.statusLine .ok,
    Answer.field "Content-Type" (MediaType.ofName (found.path.getLastD "")),
    Answer.field "Content-Length" (toString found.file.content.length),
    Answer.field "Date" now.text,
    Answer.field "Last-Modified" (found.file.modified.getD now).text,
    Answer.field "Server" Answer.serverName,
    Answer.field "Connection" (if r.asksToClose then "close" else "keep-alive"),
    Answer.headEnd]

def respond (s : Site) (withBody : Bool) (now : Timestamp) (r : Request) (outbox : Outbox)
    (opens : List Fd) : Responded (List Fd) :=
  match s.find r.uri with
  | .error status => ⟨.error status, outbox, opens⟩
  | .ok found =>
    match found.file.open? opens with
    | none => ⟨.error .internalServerError, outbox, opens⟩
    | some (fd, opens) =>
      { result := .ok ()
        outbox :=
          { output := outbox.output.appendAll (head now r found)
            stream := if withBody then some (.ofBytes fd found.file.content) else outbox.stream }
        state := opens }

def responder (s : Site) : Responder (List Fd) where
  get := s.respond true
  head := s.respond false
  post _ _ outbox opens := ⟨.error .notImplemented, outbox, opens⟩

section
variable {s : Site} {found : Located} {r : Request} {opens rest : List Fd} (withBody : Bool)
  (now : Timestamp) (outbox : Outbox)

theorem respond_of_error {status : Status} (hfind : s.find r.uri = .error status) :
    s.respond withBody now r outbox opens = ⟨.error status, outbox, opens⟩ := by
  simp only [respond, hfind]

theorem respond_of_unopened (hfind : s.find r.uri = .ok found)
    (hopen : found.file.open? opens = none) :
    s.respond withBody now r outbox opens = ⟨.error .internalServerError, outbox, opens⟩ := by
  simp only [respond, hfind, hopen]

theorem respond_of_opened {fd : Fd} (hfind : s.find r.uri = .ok found)
    (hopen : found.file.open? opens = some (fd, rest)) :
    s.respond withBody now r outbox opens =
      { result := .ok ()
        outbox :=
          { output := outbox.output.appendAll (head now r found)
            stream := if withBody then some (.ofBytes fd found.file.content) else outbox.stream }
        state := rest } := by
  simp only [respond, hfind, hopen]

end

end Site

end HttpOrigin
