import HttpOrigin.Proofs.Account
import HttpOrigin.Proofs.ReplyReader
import Mathlib.Data.List.Forall2

/-! The answers of a site as its peer reads them. What is written on a connection is one answer for
each request the responder was called for, in their order, and at most one error after them; each
says itself where it ends. -/
namespace HttpOrigin

/-! ### The head of a page -/

namespace Site

def fields (now : Timestamp) (r : Request) (found : Located) : List (String × String) :=
  [("Content-Type", MediaType.ofName (found.path.getLastD "")),
    ("Content-Length", toString found.file.content.length),
    ("Date", now.text),
    ("Last-Modified", (found.file.modified.getD now).text),
    ("Server", Answer.serverName),
    ("Connection", if r.asksToClose then "close" else "keep-alive")]

theorem plain_fields (now : Timestamp) (r : Request) (found : Located) :
    ∀ f ∈ fields now r found, Answer.Plain f := by
  have hmedia : ∀ value ∈ MediaType.unknown :: MediaType.table.map (·.2),
      Fields.Bare value.toList ∧ '\r' ∉ value.toList := by decide
  obtain ⟨hbare, hcr⟩ := hmedia _ (MediaType.ofName_mem (found.path.getLastD ""))
  simp only [fields, List.forall_mem_cons]
  refine ⟨Answer.plain_of_bare (by decide) hbare hcr, Answer.plain_contentLength _,
    Answer.plain_date (by decide) now, Answer.plain_date (by decide) _, Answer.plain_server, ?_,
    by simp⟩
  cases r.asksToClose <;> exact Answer.plain_of_bare (by decide) (by decide) (by decide)

theorem getAll_fields (now : Timestamp) (r : Request) (found : Located) :
    Fields.getAll ⟨fields now r found⟩ "Content-Length"
        = [toString found.file.content.length] ∧
      Fields.getAll ⟨fields now r found⟩ "Connection"
        = [if r.asksToClose then "close" else "keep-alive"] := by
  simp +decide only [fields, Fields.getAll_cons, if_true, if_false]
  exact ⟨rfl, rfl⟩

end Site

/-! ### Entries of an account -/

namespace Client.Entry

def closes : Entry → Bool
  | answered _ r _ _ => r.asksToClose
  | declined _ _ _ _ | refused _ _ => true

end Client.Entry

namespace Site

/-- The error that a site gives when there are so many numbers left: it posts nothing, and a file
may be missing or not to be opened. -/
def Declines (s : Site) (left : List Fd) (m : Method) (uri : String) (status : Status) : Prop :=
  match m with
  | .get | .head =>
    s.find uri = .error status ∨
      (∃ found, s.find uri = .ok found ∧ found.file.open? left = none) ∧
        status = .internalServerError
  | .post => status = .notImplemented

inductive Makes (s : Site) (left : List Fd) : Client.Entry → Prop where
  | page (now : Timestamp) {r : Request} {found : Located} :
      s.find r.uri = .ok found → found.file.readable = true →
      Makes s left (.answered .get r (head now r found).flatten found.file.content)
  | head (now : Timestamp) {r : Request} {found : Located} :
      s.find r.uri = .ok found → found.file.readable = true →
      Makes s left (.answered .head r (head now r found).flatten [])
  | declined (now : Timestamp) {m : Method} {r : Request} {status : Status} :
      s.Declines left m r.uri status → Makes s left (.declined m r now status)
  | refused (now : Timestamp) {e : HttpError} {status : Status} : e.status? = some status →
      Makes s left (.refused now e)

/-- The reply to a request: the file that was asked for, its length alone, or the page of the
error. -/
inductive Tells (s : Site) (left : List Fd) : Client.Entry → Reply → Prop where
  | page {r : Request} {found : Located} {added file : Bytes} {reply : Reply} :
      s.find r.uri = .ok found → found.file.readable = true → reply.code = 200 →
      reply.announced = found.file.content.length → reply.body = found.file.content →
      Tells s left (.answered .get r added file) reply
  | head {r : Request} {found : Located} {added file : Bytes} {reply : Reply} :
      s.find r.uri = .ok found → found.file.readable = true → reply.code = 200 →
      reply.announced = found.file.content.length → reply.body = [] →
      Tells s left (.answered .head r added file) reply
  | declined {m : Method} {r : Request} {now : Timestamp} {status : Status} {reply : Reply} :
      s.Declines left m r.uri status → reply.IsError status →
      Tells s left (.declined m r now status) reply
  | refused {now : Timestamp} {e : HttpError} {status : Status} {reply : Reply} :
      e.status? = some status → reply.IsError status → Tells s left (.refused now e) reply

structure Answers (s : Site) (left : List Fd) (entry : Client.Entry) (reply : Reply) : Prop where
  read : ∀ rest, Reply.read? entry.toHead (entry.bytes ++ rest) = some (reply, rest)
  tells : s.Tells left entry reply
  connection : reply.connection = [if entry.closes then "close" else "keep-alive"]

section
variable {s : Site} {left : List Fd} {entry : Client.Entry} {uri : String} {status : Status}

theorem answers_error {now : Timestamp} (hbody : ¬ (entry.toHead = true ∧ status.code = 200))
    (hbytes : entry.bytes = (Answer.error now status).flatten)
    (hcloses : entry.closes = true)
    (htells : ∀ reply : Reply, reply.IsError status → s.Tells left entry reply) :
    ∃ reply, s.Answers left entry reply := by
  obtain ⟨reply, herror, hread⟩ := Reply.read?_error now hbody
  refine ⟨reply, fun rest => ?_, htells reply herror, ?_⟩
  · rw [hbytes]
    exact hread rest
  · rw [hcloses]
    exact herror.connection

theorem code_of_find (h : s.find uri = .error status) : status.code ≠ 200 := by
  rw [find] at h
  split at h
  · cases h
    decide
  · dsimp only at h
    split at h
    · cases h
      decide
    · split at h
      · cases h
      · cases h
        decide

theorem code_of_declines {m : Method} (h : s.Declines left m uri status) : status.code ≠ 200 := by
  cases m with
  | get | head =>
    obtain hfind | ⟨-, rfl⟩ := h
    · exact code_of_find hfind
    · decide
  | post =>
    cases h
    decide

/-- A file that could not be opened cannot be opened with fewer numbers. -/
theorem Declines.mono {later : List Fd} {m : Method} (h : s.Declines left m uri status)
    (hl : later <:+ left) : s.Declines later m uri status := by
  cases m with
  | get | head =>
    refine h.imp_right fun ⟨⟨found, hfind, hopen⟩, hstatus⟩ => ⟨⟨found, hfind, ?_⟩, hstatus⟩
    rw [File.open?_eq_none_iff] at hopen ⊢
    refine hopen.imp_right fun hnil => ?_
    rw [hnil] at hl
    exact List.suffix_nil.1 hl
  | post => exact h

theorem Makes.mono {later : List Fd} (h : s.Makes left entry) (hl : later <:+ left) :
    s.Makes later entry := by
  cases h with
  | page now hfind hreadable => exact .page now hfind hreadable
  | head now hfind hreadable => exact .head now hfind hreadable
  | declined now hdeclines => exact .declined now (hdeclines.mono hl)
  | refused now hstatus => exact .refused now hstatus

theorem Makes.answers (h : s.Makes left entry) : ∃ reply, s.Answers left entry reply := by
  cases h with
  | @page now r found hfind hreadable =>
    obtain ⟨hlength, hconnection⟩ := getAll_fields now r found
    refine ⟨⟨200, ⟨fields now r found⟩, found.file.content.length, found.file.content⟩, ?_,
      .page hfind hreadable rfl rfl rfl, hconnection⟩
    exact Answer.read?_append false .ok (plain_fields now r found)
      (Reply.announced?_of_getAll hlength) rfl
  | @head now r found hfind hreadable =>
    obtain ⟨hlength, hconnection⟩ := getAll_fields now r found
    refine ⟨⟨200, ⟨fields now r found⟩, found.file.content.length, []⟩, ?_,
      .head hfind hreadable rfl rfl rfl, hconnection⟩
    exact Answer.read?_append true .ok (plain_fields now r found)
      (Reply.announced?_of_getAll hlength) rfl
  | declined now hdeclines =>
    exact answers_error (fun h => code_of_declines hdeclines h.2) rfl rfl fun _ =>
      .declined hdeclines
  | @refused now e status hstatus =>
    have hbytes : Client.Entry.bytes (.refused now e) = (Answer.error now status).flatten := by
      rw [Client.Entry.bytes, hstatus, Option.getD_some]
    have hbody : ¬ (Client.Entry.toHead (.refused now e) = true ∧ status.code = 200) := by
      rintro ⟨hhead, -⟩
      cases hhead
    exact answers_error hbody hbytes rfl fun _ => .refused hstatus

/-- Entry by entry, a peer that knows which requests were for heads reads one reply each. -/
theorem readAll?_log {log : List Client.Entry} (h : ∀ entry ∈ log, s.Makes left entry) :
    ∃ replies, Reply.readAll? (log.map Client.Entry.toHead) (log.flatMap Client.Entry.bytes)
        = some replies ∧ List.Forall₂ (s.Answers left) log replies := by
  induction log with
  | nil => exact ⟨[], rfl, .nil⟩
  | cons entry log ih =>
    obtain ⟨reply, hreply⟩ := (h entry (List.mem_cons_self ..)).answers
    obtain ⟨replies, hread, hall⟩ := ih fun e he => h e (List.mem_cons_of_mem entry he)
    refine ⟨reply :: replies, ?_, .cons hreply hall⟩
    rw [List.map_cons, List.flatMap_cons, Reply.readAll?, hreply.read]
    simp only [Option.bind_eq_bind, Option.bind_some, hread]
    rfl

end

end Site

/-! ### Accounts of a site -/

/-- Each entry of an account has this property with the state it is made in, and keeps it as the
state goes on. -/
structure Responder.Gives {σ : Type} (h : Responder σ) (P : σ → Client.Entry → Prop) : Prop where
  call : ∀ m now r output state, output.WellFormed →
    let responded := h.forMethod m now r ⟨output, none⟩ state
    P responded.state (.ofCall m now r ⟨output, none⟩ responded)
  refusal : ∀ state now e, e.status?.isSome = true → P state (.refused now e)
  kept : ∀ entry m now r outbox state, P state entry →
    P (h.forMethod m now r outbox state).state entry

theorem FileStream.remaining_ofBytes (fd : Fd) (content : Bytes) :
    (ofBytes fd content).remaining = content := by
  cases content with
  | nil => rfl
  | cons b bs => exact List.append_nil (b :: bs)

theorem Site.makes_respond (s : Site) (m : Method) (hm : m ≠ .post) (now : Timestamp) (r : Request)
    {output : ByteQueue} (hw : output.WellFormed) (opens : List Fd) :
    let responded := s.respond (m == .get) now r ⟨output, none⟩ opens
    s.Makes responded.state (.ofCall m now r ⟨output, none⟩ responded) := by
  intro responded
  cases hfind : s.find r.uri with
  | error status =>
    have hresponded : responded = _ := respond_of_error _ now _ hfind
    rw [hresponded]
    refine .declined now ?_
    cases m with
    | get | head => exact .inl hfind
    | post => exact absurd rfl hm
  | ok found =>
    cases hopen : found.file.open? opens with
    | none =>
      have hresponded : responded = _ := respond_of_unopened _ now _ hfind hopen
      rw [hresponded]
      refine .declined now ?_
      cases m with
      | get | head => exact .inr ⟨⟨found, hfind, hopen⟩, rfl⟩
      | post => exact absurd rfl hm
    | some opened =>
      obtain ⟨fd, left⟩ := opened
      have hreadable := (File.open?_eq_some_iff.1 hopen).1
      have hresponded : responded = _ := respond_of_opened _ now _ hfind hopen
      rw [hresponded, Client.Entry.ofCall_of_ok rfl, Outbox.added_appendAll hw]
      cases m with
      | get =>
        have hmakes : s.Makes left (.answered .get r (head now r found).flatten
            (FileStream.ofBytes fd found.file.content).remaining) := by
          rw [FileStream.remaining_ofBytes]
          exact .page now hfind hreadable
        exact hmakes
      | head => exact .head now hfind hreadable
      | post => exact absurd rfl hm

theorem Site.gives_makes (s : Site) :
    (Client.accounted s.responder).Gives fun state => s.Makes state.1 where
  call := by
    intro m now r output state hw
    rw [Client.accounted, Responder.forMethod_noted]
    cases m with
    | get => exact s.makes_respond .get (by decide) now r hw state.1
    | head => exact s.makes_respond .head (by decide) now r hw state.1
    | post => exact .declined now rfl
  refusal := by
    intro state now e he
    obtain ⟨status, hstatus⟩ := Option.isSome_iff_exists.1 he
    exact .refused now hstatus
  kept := by
    intro entry m now r outbox state hmakes
    rw [Client.accounted, Responder.forMethod_noted]
    exact hmakes.mono (s.forMethod_suffix now r outbox m state.1)

namespace Client

section
variable {σ : Type} {h : Responder σ} {P : σ → Entry → Prop} (hg : h.Gives P)
include hg

theorem Sound.gives_respond {c : Client} (hc : c.Sound) (hs : c.Serving) (now : Timestamp)
    (state : σ) (r : Request) :
    P (c.respond h now state r).state
      (.ofCall r.method now r c.outbox (c.respond h now state r)) := by
  rw [respond, outbox, hc.paired.stream_none hs.1]
  exact hg.call r.method now r c.output state hc.output

theorem forall_mem_log (hh : h.AppendOnly) (now : Timestamp) {c : Client} (state : σ)
    (hc : c.Sound) : ∀ entry ∈ log h now c state, P (serve h now c state).2 entry := by
  induction c, state using serve_induction h now with
  | stopped c state hs =>
    rw [log_of_not_serving hs]
    simp
  | waiting c state stage rest hs ha =>
    rw [log_of_waiting hs ha]
    simp
  | refused c state e rest hs ha =>
    rw [log_of_refused hs ha, List.forall_mem_singleton]
    exact hg.refusal _ now e (Stage.status?_of_refused ha)
  | declined c state r rest status hs ha hr =>
    have hgives := hc.gives_respond hg hs now state r
    rw [Entry.ofCall_of_error hr] at hgives
    rw [log_of_declined hs ha hr, List.forall_mem_singleton, serve_of_declined hs ha hr]
    exact hgives
  | closing c state r rest hs ha hr hclose =>
    have hgives := hc.gives_respond hg hs now state r
    rw [Entry.ofCall_of_ok hr] at hgives
    rw [log_of_closing hs ha hr hclose, List.forall_mem_singleton,
      serve_of_closing hs ha hr hclose]
    exact hgives
  | keeping c state r rest hs ha hr hkeep ih =>
    have hgives := hc.gives_respond hg hs now state r
    have he := hc.extends_respond hs hh now state r
    rw [Entry.ofCall_of_ok hr] at hgives
    rw [log_of_keeping hs ha hr hkeep, List.forall_mem_cons, serve_of_keeping hs ha hr hkeep]
    exact ⟨kept_serve (hg.kept _) now _ hgives, ih (hc.answered he rest)⟩

theorem forall_mem_eventLog (hh : h.AppendOnly) {c : Client} (hc : c.Sound) (state : σ)
    (e : Event) : ∀ entry ∈ c.eventLog h state e, P (c.react h state e).state entry := by
  rw [eventLog, react_eq, Transfer.resume]
  obtain ⟨err, -, hserves, -⟩ | ⟨-, hsound, -⟩ := hc.transfer e
  · rw [hserves]
    simp
  · cases (c.transfer e).serves with
    | false => simp
    | true => exact forall_mem_log hg hh e.now state hsound

theorem Session.forall_mem_log_run (hh : h.AppendOnly) {s : Session σ} (hb : s.Balanced)
    (hl : ∀ entry ∈ s.log, P s.state entry) (events : List Event) :
    ∀ entry ∈ (s.run h events).log, P (s.run h events).state entry := by
  induction events generalizing s with
  | nil => exact hl
  | cons e events ih =>
    refine ih (hb.step hh e) ?_
    cases hresult : s.result with
    | error err =>
      rw [step, hresult]
      exact hl
    | ok u =>
      have hold := fun entry hmem => kept_react (hg.kept entry) s.client e (hl entry hmem)
      have hmore := forall_mem_eventLog hg hh (hb.sound hresult) s.state e
      rw [step, hresult]
      exact List.forall_mem_append.2 ⟨hold, hmore⟩

end

/-! ### Schedules without failures -/

def Event.Smooth : Event → Prop
  | .readable _ script => Arrival.Steady script
  | .writable _ script _ => Acceptance.Gentle script

theorem Sound.transfer_smooth {c : Client} (hc : c.Sound) {e : Event} (he : e.Smooth) :
    (c.transfer e).result = .ok () := by
  cases e with
  | readable now script =>
    obtain ⟨-, receipt, hok⟩ := (ByteQueue.receive_conserves hc.input script).2.1 he
    obtain ⟨-, ht⟩ | ⟨err, -, hr, -⟩ | ⟨receipt, -, -, ht⟩ := c.transferIn_cases script
    · rw [Client.transfer, ht]
    · rw [hok] at hr
      cases hr
    · rw [Client.transfer, ht]
  | writable now script r => exact (hc.transferOut script r).2 he

namespace Session

variable {σ : Type}

theorem result_run_smooth {h : Responder σ} (hh : h.AppendOnly) {s : Session σ} (hb : s.Balanced)
    (hok : s.result = .ok ()) {events : List Event} (he : ∀ e ∈ events, e.Smooth) :
    (s.run h events).result = .ok () := by
  induction events generalizing s with
  | nil => exact hok
  | cons e events ih =>
    rw [List.forall_mem_cons] at he
    refine ih (hb.step hh e) ?_ he.2
    have htransfer := (hb.sound hok).transfer_smooth he.1
    rw [step, hok]
    dsimp only
    rw [react_eq, Transfer.resume]
    split <;> exact htransfer

/-- The log is that of the calls, and at most one refusal behind them. -/
theorem Orderly.log_eq {s : Session (σ × List Entry)} (ho : s.Orderly) :
    ∃ refused, s.log = s.state.2 ++ refused ∧ refused.length ≤ 1 ∧
      ∀ entry ∈ refused, entry.isCall = false := by
  have hcalls := ho.calls
  have herrors := ho.errors
  obtain hnil | ⟨front, last, hlog⟩ := List.eq_nil_or_concat s.log
  · refine ⟨[], ?_, by simp, by simp⟩
    rw [hcalls, hnil]
    rfl
  · rw [List.concat_eq_append] at hlog
    rw [hlog, List.dropLast_concat] at herrors
    have hfront : front.filter Entry.isCall = front := by
      refine List.filter_eq_self.2 fun entry hmem => ?_
      have hanswer := herrors entry hmem
      cases entry with
      | answered | declined => rfl
      | refused => cases hanswer
    rw [hcalls, hlog, List.filter_append, hfront]
    cases hlast : last.isCall with
    | true => exact ⟨[], by simp [hlast], by simp, by simp⟩
    | false => exact ⟨[last], by simp [hlast], by simp, by simpa using hlast⟩

theorem Balanced.written_of_sent {s : Session σ} (hb : s.Balanced) (hok : s.result = .ok ())
    (hsent : s.client.hasOutput = false) : s.written = s.log.flatMap Entry.bytes := by
  obtain ⟨hempty, hstream⟩ : s.client.output.isEmpty = true ∧ s.client.stream = none := by
    simpa [hasOutput] using hsent
  have hnothing := (ByteQueue.isEmpty_iff (hb.sound hok).output).1 hempty
  rw [← hb.balance hok, owed_of_stream_none hstream, hnothing, List.append_nil]

theorem makes_run (s : Site) (fd : Fd) (opens : List Fd) (events : List Event) :
    let t := run (accounted s.responder) { client := { fd }, state := (opens, []) } events
    ∀ entry ∈ t.log, s.Makes t.state.1 entry :=
  forall_mem_log_run s.gives_makes (s.blind_responder.appendOnly.noted Entry.ofCall)
    (balanced_fresh fd (opens, [])) (by simp) events

/-- Where no call fails and all is sent, what was written is read as one reply for each request the
responder was called for, in their order, and one for the request that could not be read, if there
was one. Nothing else was written. -/
theorem one_reply_per_request (s : Site) (fd : Fd) (opens : List Fd) (events : List Event) :
    let t := run (accounted s.responder) { client := { fd }, state := (opens, []) } events
    ((∀ e ∈ events, e.Smooth) → t.result = .ok ()) ∧
    (t.result = .ok () → t.client.hasOutput = false →
      ∃ refused replies, t.log = t.state.2 ++ refused ∧ refused.length ≤ 1 ∧
        (∀ entry ∈ refused, entry.isCall = false) ∧
        Reply.readAll? (t.log.map Entry.toHead) t.written = some replies ∧
        List.Forall₂ (s.Tells t.state.1) t.log replies) := by
  intro t
  have hh := s.blind_responder.appendOnly.noted Entry.ofCall
  have hfresh := balanced_fresh fd (opens, ([] : List Entry))
  have hb : t.Balanced := hfresh.run hh events
  have ho : t.Orderly := (orderly_fresh fd opens).run s.responder events
  refine ⟨result_run_smooth hh hfresh rfl, fun hok hsent => ?_⟩
  obtain ⟨refused, hlog, hone, hcalls⟩ := ho.log_eq
  obtain ⟨replies, hread, hall⟩ := Site.readAll?_log (makes_run s fd opens events)
  rw [hb.written_of_sent hok hsent]
  exact ⟨refused, replies, hlog, hone, hcalls, hread, hall.imp fun _ _ ha => ha.tells⟩

/-- A page, its head alone, and the page of the error behind them. -/
theorem one_reply_per_request_onePage :
    ∃ t page head missing, t = run (accounted Site.onePage.responder)
        { client := { fd := 5 }, state := ([7, 8], []) } pipeline ∧
      Reply.readAll? [false, true, false] t.written = some [page, head, missing] ∧
      page.code = 200 ∧ page.body = Text.encode "hello" ∧
      head.code = 200 ∧ head.announced = 5 ∧ head.body = [] ∧ missing.IsError .notFound := by
  have hsmooth : ∀ e ∈ pipeline, e.Smooth := by
    simp [pipeline, Event.Smooth, Arrival.Steady, Arrival.isSteady, Acceptance.Gentle,
      Acceptance.isGentle]
  have hfind : Site.onePage.find "/"
      = .ok ⟨[Site.indexName], ⟨Text.encode "hello", some .epoch, true⟩⟩ := by decide +kernel
  obtain ⟨-, hsent, r, r', r'', added, added', now, huri, huri', hlog⟩ := run_pipeline
  obtain ⟨hok, hreplies⟩ := one_reply_per_request Site.onePage 5 [7, 8] pipeline
  obtain ⟨-, replies, -, -, -, hread, hall⟩ := hreplies (hok hsmooth) hsent
  rw [hlog] at hread hall
  obtain _ | ⟨hpage, _ | ⟨hhead, _ | ⟨hmissing, _ | _⟩⟩⟩ := hall
  obtain ⟨hfound, -, hcode, -, hbody⟩ | _ := hpage
  obtain _ | ⟨hfound', -, hcode', hlength', hbody'⟩ := hhead
  obtain _ | _ | ⟨-, herror⟩ := hmissing
  rw [huri, hfind] at hfound
  rw [huri', hfind] at hfound'
  cases hfound
  cases hfound'
  exact ⟨_, _, _, _, rfl, hread, hcode, hbody, hcode', hlength', hbody', herror⟩

end Session

end Client

end HttpOrigin
