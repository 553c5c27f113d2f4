import HttpOrigin.Proofs.Appending
import HttpOrigin.Proofs.Descriptors

/-! The number of an open file has no part in what a connection does. A site is run again with
files that all have one number and can always be opened: as long as the numbers do not run out, a
connection comes to the same. -/
namespace HttpOrigin

def FileStream.unnumbered (s : FileStream) : FileStream := { s with fd := 0 }

def Outbox.unnumbered (o : Outbox) : Outbox :=
  { o with stream := o.stream.map FileStream.unnumbered }

/-! ### A file on its way -/

namespace FileStream
variable (s : FileStream) (r r' : Readiness) (script : List Acceptance)

structure Step.Matches (x y : Step) : Prop where
  result : x.result = y.result
  stream : x.stream = y.stream.unnumbered
  written : x.written = y.written
  unused : x.unused = y.unused

theorem finish_unnumbered (result : Except TransportError Progress) :
    (s.unnumbered.finish r' script result).Matches (s.finish r script result) := by
  cases hs : s.source <;> constructor <;> simp [finish, close, unnumbered, hs]

theorem sendStaged_unnumbered :
    (s.unnumbered.sendStaged r' script).Matches (s.sendStaged r script) := by
  have hpending : s.unnumbered.pending = s.pending := rfl
  rw [sendStaged, sendStaged, hpending]
  cases Acceptance.write s.pending script with
  | mk answer rest =>
    cases answer with
    | ok n =>
      cases n with
      | zero => exact s.finish_unnumbered r r' rest _
      | succ n => exact ⟨rfl, rfl, rfl, rfl⟩
    | error f =>
      cases hf : f.isHard with
      | true =>
        simp only [hf, if_true]
        exact s.finish_unnumbered r r' rest _
      | false =>
        simp only [hf, Bool.false_eq_true, if_false]
        exact ⟨rfl, rfl, rfl, rfl⟩

theorem step_unnumbered : (s.unnumbered.step r' script).Matches (s.step r script) := by
  have hsource : s.unnumbered.source = s.source := rfl
  rw [step, step, hsource]
  cases hs : s.source with
  | none => exact ⟨rfl, rfl, rfl, rfl⟩
  | some source =>
    by_cases hstaged : s.offset < s.chunk.length
    · have hstaged' : s.unnumbered.offset < s.unnumbered.chunk.length := hstaged
      simp only [if_pos hstaged, if_pos hstaged']
      exact s.sendStaged_unnumbered r r' script
    · have hstaged' : ¬ s.unnumbered.offset < s.unnumbered.chunk.length := hstaged
      simp only [if_neg hstaged, if_neg hstaged']
      cases Arrival.read chunkSize source with
      | mk answer rest =>
        cases answer with
        | ok data =>
          cases data with
          | nil => exact finish_unnumbered { s with source := some rest } r r' script _
          | cons b bs =>
            exact sendStaged_unnumbered
              { s with source := some rest, chunk := b :: bs, offset := 0 } r r' script
        | error f =>
          cases hf : f.isHard with
          | true =>
            simp only [hf, if_true]
            exact finish_unnumbered { s with source := some rest } r r' script _
          | false =>
            simp only [hf, Bool.false_eq_true, if_false]
            exact ⟨rfl, rfl, rfl, rfl⟩

end FileStream

/-! ### A site without numbers -/

/-- Answers with one number at hand, and forgets that it was taken. -/
def Responder.once (respond : Timestamp → Request → Outbox → List Fd → Responded (List Fd))
    (now : Timestamp) (r : Request) (outbox : Outbox) (_ : Unit) : Responded Unit :=
  let responded := respond now r outbox [0]
  ⟨responded.result, responded.outbox, ()⟩

namespace Site

/-- The site with files that all have the number 0 and can always be opened. -/
def numberless (s : Site) : Responder Unit where
  get := Responder.once s.responder.get
  head := Responder.once s.responder.head
  post := Responder.once s.responder.post

variable (s : Site) (now : Timestamp) (r : Request) (outbox : Outbox)

theorem once_respond (withBody : Bool) {opens : List Fd} (ho : opens ≠ []) :
    Responder.once (s.respond withBody) now r outbox.unnumbered () =
      ⟨(s.respond withBody now r outbox opens).result,
        (s.respond withBody now r outbox opens).outbox.unnumbered, ()⟩ := by
  obtain ⟨fd, rest, rfl⟩ := List.exists_cons_of_ne_nil ho
  unfold Responder.once respond
  cases s.find r.uri with
  | error status => rfl
  | ok found =>
    simp only [File.open?]
    cases found.file.readable with
    | false => rfl
    | true => cases withBody <;> rfl

theorem forMethod_numberless (m : Method) {opens : List Fd} (ho : opens ≠ []) :
    s.numberless.forMethod m now r outbox.unnumbered () =
      ⟨(s.responder.forMethod m now r outbox opens).result,
        (s.responder.forMethod m now r outbox opens).outbox.unnumbered, ()⟩ := by
  cases m with
  | get => exact s.once_respond now r outbox true ho
  | head => exact s.once_respond now r outbox false ho
  | post => rfl

end Site

theorem ne_nil_of_suffix {l m : List Fd} (h : l <:+ m) (hl : l ≠ []) : m ≠ [] := by
  rintro rfl
  exact hl (List.suffix_nil.1 h)

namespace Client

def unnumbered (c : Client) : Client :=
  { c with stream := c.stream.map FileStream.unnumbered }

/-! ### Moving bytes -/

def Transfer.unnumbered (t : Transfer) : Transfer := { t with client := t.client.unnumbered }

def Event.bare : Event → Event
  | readable now script => .readable now script
  | writable now script _ => .writable now script {}

theorem transferIn_unnumbered (c : Client) (script : List Arrival) :
    c.unnumbered.transferIn script = (c.transferIn script).unnumbered := by
  have hawaits : c.unnumbered.awaitsInput = c.awaitsInput := rfl
  have hinput : c.unnumbered.input = c.input := rfl
  rw [transferIn, transferIn, hawaits, hinput]
  cases c.awaitsInput with
  | false => rfl
  | true =>
    simp only [if_true]
    cases (c.input.receive script).result <;> rfl

theorem transferStream_unnumbered (c : Client) (stream : FileStream) (script : List Acceptance)
    (r r' : Readiness) :
    c.unnumbered.transferStream stream.unnumbered script r'
      = (c.transferStream stream script r).unnumbered := by
  obtain ⟨hresult, hstream, hwritten, -⟩ := stream.step_unnumbered r r' script
  rw [transferStream, transferStream, hresult, hstream, hwritten]
  cases (stream.step r script).result with
  | error e => rfl
  | ok progress => cases progress <;> rfl

theorem transferOut_unnumbered (c : Client) (script : List Acceptance) (r r' : Readiness) :
    c.unnumbered.transferOut script r' = (c.transferOut script r).unnumbered := by
  have hflush : c.unnumbered.flush script = c.flush script := rfl
  rw [transferOut, transferOut, hflush]
  cases (c.flush script).result with
  | error e => rfl
  | ok n =>
    have hstream : c.unnumbered.stream = c.stream.map FileStream.unnumbered := rfl
    dsimp only
    rw [hstream]
    cases c.stream with
    | none => rfl
    | some stream =>
      have hmoved := transferStream_unnumbered { c with output := (c.flush script).queue } stream
        (c.flush script).unused r r'
      cases hempty : (c.flush script).queue.isEmpty with
      | false =>
        simp only [Bool.false_eq_true, if_false]
        rfl
      | true =>
        simp only [if_true]
        exact congrArg (Transfer.behind (c.flush script).written) hmoved

theorem transfer_unnumbered (c : Client) (e : Event) :
    c.unnumbered.transfer e.bare = (c.transfer e).unnumbered := by
  cases e with
  | readable now script => exact c.transferIn_unnumbered script
  | writable now script r => exact c.transferOut_unnumbered script r {}

/-! ### Serving requests -/

section
variable (s : Site) (now : Timestamp)

theorem respond_numberless (c : Client) {opens : List Fd} (ho : opens ≠ []) (r : Request) :
    c.unnumbered.respond s.numberless now () r =
      ⟨(c.respond s.responder now opens r).result,
        (c.respond s.responder now opens r).outbox.unnumbered, ()⟩ :=
  s.forMethod_numberless now r c.outbox r.method ho

theorem respond_suffix (c : Client) (opens : List Fd) (r : Request) :
    (c.respond s.responder now opens r).state <:+ opens :=
  s.forMethod_suffix now r c.outbox r.method opens

theorem answered_unnumbered (c : Client) (rest : Bytes) (outbox : Outbox) :
    c.unnumbered.answered rest outbox.unnumbered = (c.answered rest outbox).unnumbered := by
  simp [answered, unnumbered, Outbox.unnumbered]

theorem serve_suffix (c : Client) (opens : List Fd) :
    (serve s.responder now c opens).2 <:+ opens :=
  kept_serve (P := (· <:+ opens))
    (fun m now r outbox left hl => (s.forMethod_suffix now r outbox m left).trans hl) now c
    List.suffix_rfl

theorem serve_unnumbered (c : Client) (opens : List Fd)
    (hleft : (serve s.responder now c opens).2 ≠ []) :
    serve s.numberless now c.unnumbered ()
      = ((serve s.responder now c opens).1.unnumbered, ()) := by
  induction c, opens using serve_induction s.responder now with
  | stopped c opens hs =>
    rw [serve_of_not_serving hs, serve_of_not_serving (c := c.unnumbered) hs]
  | waiting c opens stage rest hs ha =>
    rw [serve_of_waiting hs ha, serve_of_waiting (c := c.unnumbered) hs ha]
    rfl
  | refused c opens e rest hs ha =>
    rw [serve_of_refused hs ha, serve_of_refused (c := c.unnumbered) hs ha]
    rfl
  | declined c opens r rest status hs ha hr =>
    rw [serve_of_declined hs ha hr] at hleft ⊢
    have ho := ne_nil_of_suffix (respond_suffix s now c opens r) hleft
    have hsame := respond_numberless s now c ho r
    have hr' := (congrArg Responded.result hsame).trans hr
    rw [serve_of_declined (c := c.unnumbered) hs ha hr', hsame]
    rfl
  | closing c opens r rest hs ha hr hclose =>
    rw [serve_of_closing hs ha hr hclose] at hleft ⊢
    have ho := ne_nil_of_suffix (respond_suffix s now c opens r) hleft
    have hsame := respond_numberless s now c ho r
    have hr' := (congrArg Responded.result hsame).trans hr
    rw [serve_of_closing (c := c.unnumbered) hs ha hr' hclose, hsame, answered_unnumbered]
    rfl
  | keeping c opens r rest hs ha hr hkeep ih =>
    rw [serve_of_keeping hs ha hr hkeep] at hleft ⊢
    have hmid := ne_nil_of_suffix (serve_suffix s now _ _) hleft
    have ho := ne_nil_of_suffix (respond_suffix s now c opens r) hmid
    have hsame := respond_numberless s now c ho r
    have hr' := (congrArg Responded.result hsame).trans hr
    rw [serve_of_keeping (c := c.unnumbered) hs ha hr' hkeep, hsame, answered_unnumbered]
    exact ih hleft

end

/-! ### Events -/

theorem react_suffix (s : Site) (c : Client) (opens : List Fd) (e : Event) :
    (c.react s.responder opens e).state <:+ opens :=
  kept_react (P := (· <:+ opens))
    (fun m now r outbox left hl => (s.forMethod_suffix now r outbox m left).trans hl) c e
    List.suffix_rfl

/-- As long as numbers are left, an event comes to the same without them. -/
theorem react_unnumbered (s : Site) (c : Client) (opens : List Fd) (e : Event)
    (hleft : (c.react s.responder opens e).state ≠ []) :
    c.unnumbered.react s.numberless () e.bare =
      ⟨(c.react s.responder opens e).result, (c.react s.responder opens e).client.unnumbered,
        (c.react s.responder opens e).written, ()⟩ := by
  have hnow : e.bare.now = e.now := by cases e <;> rfl
  rw [react_eq, Transfer.resume] at hleft ⊢
  rw [react_eq, Transfer.resume, transfer_unnumbered, hnow]
  cases hserves : (c.transfer e).serves with
  | false => simp [Transfer.unnumbered, hserves]
  | true =>
    rw [hserves, if_pos rfl] at hleft
    have hserved := serve_unnumbered s e.now (c.transfer e).client opens hleft
    simp [Transfer.unnumbered, hserves, hserved]

end Client

end HttpOrigin
