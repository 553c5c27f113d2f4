import HttpOrigin.Proofs.Replies

/-! The end of a connection. Once it closes it reads nothing and calls nothing any more, and what it
wrote says so: an answer that announces the end is the last one. -/
namespace HttpOrigin.Client

variable {σ : Type}

/-! ### Nothing happens after the end -/

theorem closing_react (h : Responder σ) {c : Client} (hc : c.closing = true) (state : σ)
    (e : Event) :
    (c.react h state e).client.closing = true ∧ (c.react h state e).state = state := by
  have hclosing := (closing_transfer c e).trans hc
  have hs : ¬ (c.transfer e).client.Serving := by
    intro hserving
    cases hclosing.symm.trans hserving.2
  rw [react_eq, Transfer.resume, serve_of_not_serving hs]
  split <;> exact ⟨hclosing, rfl⟩

theorem closing_perform (h : Responder σ) {p : Client × σ} (hc : p.1.closing = true)
    (call : Call) : (call.perform h p).1.closing = true ∧ (call.perform h p).2 = p.2 := by
  cases call with
  | event e => exact closing_react h hc p.2 e
  | refuse now status => exact ⟨rfl, rfl⟩

theorem closing_performAll (h : Responder σ) {p : Client × σ} (hc : p.1.closing = true)
    (calls : List Call) :
    (performAll h p calls).1.closing = true ∧ (performAll h p calls).2 = p.2 := by
  induction calls generalizing p with
  | nil => exact ⟨hc, rfl⟩
  | cons call calls ih =>
    obtain ⟨hnext, hsame⟩ := closing_perform h hc call
    obtain ⟨hlast, hstate⟩ := ih hnext
    exact ⟨hlast, hstate.trans hsame⟩

theorem intake_of_closing (h : Responder σ) (now : Timestamp) {c : Client} (hc : c.closing = true)
    (script : List Arrival) (state : σ) :
    c.intake h now script state = ⟨.ok (), c, script, state⟩ := by
  have hawaits : c.awaitsInput = false := by simp [awaitsInput, hc]
  rw [intake, hawaits]
  rfl

/-! ### What the answers announce -/

def Entry.Closes : Entry → Prop
  | answered _ r _ _ => Request.ClosedBy r.fields
  | declined _ _ _ _ | refused _ _ => True

theorem Entry.closes_iff {entry : Entry} : entry.closes = true ↔ entry.Closes := by
  cases entry with
  | answered m r added file => exact Request.asksToClose_iff
  | declined | refused => exact ⟨fun _ => trivial, fun _ => rfl⟩

/-- Only the last entry of a log may end the connection, and it closes after it. -/
theorem closes_log (h : Responder σ) (now : Timestamp) (c : Client) (state : σ) :
    (∀ entry ∈ (log h now c state).dropLast, entry.closes = false) ∧
      ((serve h now c state).1.closing = false →
        ∀ entry ∈ log h now c state, entry.closes = false) := by
  induction c, state using serve_induction h now with
  | stopped c state hs =>
    rw [log_of_not_serving hs]
    exact ⟨by simp, by simp⟩
  | waiting c state stage rest hs ha =>
    rw [log_of_waiting hs ha]
    exact ⟨by simp, by simp⟩
  | refused c state e rest hs ha =>
    rw [log_of_refused hs ha, serve_of_refused hs ha]
    exact ⟨by simp, fun hopen => by cases hopen⟩
  | declined c state r rest status hs ha hr =>
    rw [log_of_declined hs ha hr, serve_of_declined hs ha hr]
    exact ⟨by simp, fun hopen => by cases hopen⟩
  | closing c state r rest hs ha hr hclose =>
    rw [log_of_closing hs ha hr hclose, serve_of_closing hs ha hr hclose]
    exact ⟨by simp, fun hopen => by cases hopen⟩
  | keeping c state r rest hs ha hr hkeep ih =>
    obtain ⟨hlast, hopen⟩ := ih
    have hfirst : ∀ entry ∈ [Entry.answered r.method r
        ((c.respond h now state r).outbox.added c.output) (c.respond h now state r).outbox.file],
        entry.closes = false := by
      simpa [Entry.closes] using hkeep
    rw [log_of_keeping hs ha hr hkeep, serve_of_keeping hs ha hr hkeep]
    refine ⟨Entry.forall_mem_dropLast_append hfirst hlast, fun hclosing => ?_⟩
    exact List.forall_mem_append.2 ⟨hfirst, hopen hclosing⟩

theorem closes_eventLog (h : Responder σ) (c : Client) (state : σ) (e : Event) :
    (∀ entry ∈ (c.eventLog h state e).dropLast, entry.closes = false) ∧
      ((c.react h state e).client.closing = false →
        ∀ entry ∈ c.eventLog h state e, entry.closes = false) := by
  rw [eventLog, react_eq, Transfer.resume]
  cases (c.transfer e).serves with
  | false => exact ⟨by simp, by simp⟩
  | true => exact closes_log h e.now (c.transfer e).client state

namespace Session

/-- Only the last entry of the log may end the connection, and it closes after it. -/
structure Candid (s : Session σ) : Prop where
  last : ∀ entry ∈ s.log.dropLast, entry.closes = false
  closing : s.client.closing = false → ∀ entry ∈ s.log, entry.closes = false

theorem Candid.step (h : Responder σ) {s : Session σ} (hs : s.Candid) (e : Event) :
    (s.step h e).Candid := by
  cases hresult : s.result with
  | error err =>
    rw [Session.step, hresult]
    exact hs
  | ok u =>
    rw [Session.step, hresult]
    cases hclosing : s.client.closing with
    | true =>
      obtain ⟨hlog, hstill⟩ := eventLog_of_closing h hclosing s.state e
      dsimp only
      rw [hlog, List.append_nil]
      refine ⟨hs.last, fun hopen => ?_⟩
      cases hstill.symm.trans hopen
    | false =>
      have hold := hs.closing hclosing
      obtain ⟨hlast, hopen⟩ := closes_eventLog h s.client s.state e
      exact ⟨Entry.forall_mem_dropLast_append hold hlast, fun hopen' =>
        List.forall_mem_append.2 ⟨hold, hopen hopen'⟩⟩

theorem Candid.run (h : Responder σ) {s : Session σ} (hs : s.Candid) (events : List Event) :
    (s.run h events).Candid := by
  induction events generalizing s with
  | nil => exact hs
  | cons e events ih => exact ih (hs.step h e)

end Session

/-! ### Replies -/

section
variable {s : Site} {left : List Fd} {log : List Entry} {replies : List Reply}

theorem connection_of_answers {entry : Entry} {reply : Reply} (h : s.Answers left entry reply) :
    reply.connection = ["close"] ∧ entry.Closes ∨
      reply.connection = ["keep-alive"] ∧ ¬ entry.Closes := by
  have hconnection := h.connection
  rw [← Entry.closes_iff]
  cases hcloses : entry.closes with
  | true =>
    rw [hcloses] at hconnection
    exact .inl ⟨hconnection, rfl⟩
  | false =>
    rw [hcloses] at hconnection
    exact .inr ⟨hconnection, Bool.false_ne_true⟩

theorem keepAlive_of_answers (h : List.Forall₂ (s.Answers left) log replies)
    (hk : ∀ entry ∈ log, entry.closes = false) :
    ∀ reply ∈ replies, reply.connection = ["keep-alive"] := by
  induction h with
  | nil => simp
  | cons hreply _ ih =>
    rw [List.forall_mem_cons] at hk ⊢
    have hconnection := hreply.connection
    rw [hk.1] at hconnection
    exact ⟨hconnection, ih hk.2⟩

theorem keepAlive_of_dropLast (h : List.Forall₂ (s.Answers left) log replies)
    (hk : ∀ entry ∈ log.dropLast, entry.closes = false) :
    ∀ reply ∈ replies.dropLast, reply.connection = ["keep-alive"] := by
  rw [List.dropLast_eq_take] at hk ⊢
  rw [← h.length_eq]
  exact keepAlive_of_answers (List.forall₂_take _ h) hk

end

/-- A connection that closes keeps closing, reads no byte more and calls no responder again. In the
stream that a site makes of a connection, of which a part or all was written, a reply announces the
end just if its request asked for it or it is an error, and all replies before the last announce
that the connection goes on; so does the last unless the connection closes. -/
theorem last_if_closing (h : Responder σ) (state : σ) (s : Site) (fd : Fd) (opens : List Fd)
    (calls : List Call) (events : List Event) :
    (let p := performAll h.recorded ({ fd }, (state, [])) calls
     p.1.closing = true → ∀ more,
      let q := performAll h.recorded p more
      q.1.closing = true ∧ q.2 = p.2 ∧
        ∀ now script, q.1.intake h.recorded now script q.2 = ⟨.ok (), q.1, script, q.2⟩) ∧
    (let t := Session.run (accounted s.responder) { client := { fd }, state := (opens, []) } events
     let stream := t.log.flatMap Entry.bytes
     t.written <+: stream ∧ (t.result = .ok () → t.written ++ t.client.owed = stream) ∧
      ∃ replies, Reply.readAll? (t.log.map Entry.toHead) stream = some replies ∧
        List.Forall₂ (fun entry reply => reply.connection = ["close"] ∧ entry.Closes ∨
          reply.connection = ["keep-alive"] ∧ ¬ entry.Closes) t.log replies ∧
        (∀ reply ∈ replies.dropLast, reply.connection = ["keep-alive"]) ∧
        (t.client.closing = false → ∀ reply ∈ replies, reply.connection = ["keep-alive"])) := by
  constructor
  · intro p hclosing more q
    obtain ⟨hstill, hstate⟩ := closing_performAll h.recorded hclosing more
    exact ⟨hstill, hstate, fun now script => intake_of_closing h.recorded now hstill script q.2⟩
  · intro t stream
    have hb : t.Balanced := (Session.balanced_fresh fd (opens, [])).run
      (s.blind_responder.appendOnly.noted Entry.ofCall) events
    have hfresh : Session.Candid { client := { fd }, state := (opens, ([] : List Entry)) } :=
      ⟨by simp, by simp⟩
    have hcandid : t.Candid := hfresh.run (accounted s.responder) events
    obtain ⟨replies, hread, hall⟩ := Site.readAll?_log (Session.makes_run s fd opens events)
    exact ⟨hb.written_prefix, hb.balance, replies, hread,
      hall.imp fun _ _ ha => connection_of_answers ha, keepAlive_of_dropLast hall hcandid.last,
      fun hopen => keepAlive_of_answers hall (hcandid.closing hopen)⟩

set_option maxRecDepth 4000 in
/-- A request that asks to close with one more behind it, and two answers with an error behind
them. -/
theorem last_if_closing_onePage :
    ∃ p t page head missing,
      p = performAll Site.onePage.responder.recorded ({ fd := 5 }, ([7], [])) [.event
        (.readable .epoch [.bytes (Text.encode "HEAD / HTTP/1.1\r\nConnection: Close\r\n\r\n")])] ∧
      p.1.closing = true ∧
      (performAll Site.onePage.responder.recorded p [.event
        (.readable .epoch [.bytes (Text.encode "GET / HTTP/1.1\r\n\r\n")])]).2 = p.2 ∧
      t = Session.run (accounted Site.onePage.responder)
        { client := { fd := 5 }, state := ([7, 8], []) } Session.pipeline ∧
      Reply.readAll? [false, true, false] (t.log.flatMap Entry.bytes)
        = some [page, head, missing] ∧
      page.connection = ["keep-alive"] ∧ head.connection = ["keep-alive"] ∧
      missing.connection = ["close"] := by
  obtain ⟨hstays, -, -, replies, hread, hall, hkept, -⟩ := last_if_closing
    Site.onePage.responder [7] Site.onePage 5 [7, 8]
    [.event (.readable .epoch
      [.bytes (Text.encode "HEAD / HTTP/1.1\r\nConnection: Close\r\n\r\n")])]
    Session.pipeline
  have hclosing : (performAll Site.onePage.responder.recorded ({ fd := 5 }, ([7], [])) [.event
        (.readable .epoch
          [.bytes (Text.encode "HEAD / HTTP/1.1\r\nConnection: Close\r\n\r\n")])]).1.closing
      = true := by
    decide +kernel
  obtain ⟨-, -, r, r', r'', added, added', now, -, -, hlog⟩ := Session.run_pipeline
  rw [hlog] at hread hall
  obtain _ | ⟨-, _ | ⟨-, _ | ⟨hmissing, _ | _⟩⟩⟩ := hall
  refine ⟨_, _, _, _, _, rfl, hclosing, (hstays hclosing _).2.1, rfl, by rw [hlog]; exact hread,
    hkept _ (by simp), hkept _ (by simp), ?_⟩
  obtain ⟨hclose, -⟩ | ⟨-, hopen⟩ := hmissing
  · exact hclose
  · exact absurd trivial hopen

end HttpOrigin.Client
