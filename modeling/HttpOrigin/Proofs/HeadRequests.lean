import HttpOrigin.Proofs.Replies

/-! GET and HEAD. A site answers both alike, but for the file, which follows the head that GET gets.
On a connection a HEAD that succeeds gets a head and nothing else; one that fails gets the page of
the error behind the head, as every other request does. -/
namespace HttpOrigin

/-! ### Files that are read to their end -/

namespace Arrival

inductive Yields (space : Nat) : List Arrival → Bytes → Prop where
  | ended {script rest : List Arrival} : read space script = (.ok [], rest) →
      Yields space script []
  | more {script rest : List Arrival} {data bytes : Bytes} :
      read space script = (.ok data, rest) → data ≠ [] → Yields space rest bytes →
      Yields space script (data ++ bytes)

theorem yields_endOfStream (space : Nat) : Yields space [.endOfStream] [] := by
  have hread : read space [.endOfStream] = (.ok [], []) := by simp [read, endOfStream]
  exact .ended hread

/-- The bytes may be cut into any number of reads. -/
theorem yields_bytes {space : Nat} (hs : 0 < space) (content : Bytes) :
    Yields space [.bytes content, .endOfStream] content := by
  induction hn : content.length using Nat.strongRecOn generalizing content with
  | ind n ih =>
    by_cases hfits : content.length ≤ space
    · have hread : read space [.bytes content, .endOfStream] = (.ok content, [.endOfStream]) :=
        if_pos hfits
      cases content with
      | nil => exact .ended hread
      | cons b bs =>
        have hall := Yields.more hread (List.cons_ne_nil b bs) (yields_endOfStream space)
        rwa [List.append_nil] at hall
    · have hread : read space [.bytes content, .endOfStream]
          = (.ok (content.take space), [.bytes (content.drop space), .endOfStream]) :=
        if_neg hfits
      have hsome : content.take space ≠ [] := by
        rw [← List.length_pos_iff, List.length_take]
        omega
      have hless : (content.drop space).length < n := by
        rw [List.length_drop]
        omega
      have hall := Yields.more hread hsome (ih _ hless _ rfl)
      rwa [List.take_append_drop] at hall

end Arrival

/-! ### Heads -/

def Bytes.EndsWithHead (bytes : Bytes) : Prop := ∃ front, cut? blank bytes = some (front, [])

def Reply.IsHead (bytes : Bytes) (code length : Nat) : Prop :=
  ∃ front fields, Bytes.cut? Bytes.blank bytes = some (front, []) ∧
    Reply.head? front = some (code, fields) ∧ Reply.announced? fields = some length

theorem Reply.IsHead.endsWithHead {bytes : Bytes} {code length : Nat}
    (h : IsHead bytes code length) : bytes.EndsWithHead := by
  obtain ⟨front, -, hcut, -⟩ := h
  exact ⟨front, hcut⟩

namespace Site

theorem isHead_head (now : Timestamp) (r : Request) (found : Located) :
    Reply.IsHead (head now r found).flatten 200 found.file.content.length := by
  obtain ⟨front, hcut, hhead⟩ := Answer.cut?_flatten_head .ok (plain_fields now r found) []
  rw [List.append_nil] at hcut
  exact ⟨front, _, hcut, hhead, Reply.announced?_of_getAll (getAll_fields now r found).1⟩

/-- The page of an error stands behind the head, whatever the request was. -/
theorem cut?_error (now : Timestamp) (status : Status) :
    ∃ front, Bytes.cut? Bytes.blank (Answer.error now status).flatten
      = some (front, Answer.errorPage status) := by
  obtain ⟨front, hcut, -⟩ :=
    Answer.cut?_flatten_head status (Answer.plain_errorFields now status) (Answer.errorPage status)
  refine ⟨front, ?_⟩
  rw [Answer.error_eq, List.flatten_append, List.flatten_singleton]
  exact hcut

theorem errorPage_ne_nil (status : Status) : Answer.errorPage status ≠ [] := by
  rw [Answer.errorPage, Text.encode_append, Text.encode_append]
  intro hnil
  have hlast := (List.append_eq_nil_iff.1 hnil).2
  exact absurd hlast (by decide)

/-! ### One request -/

/-- With the same request data, GET and HEAD give the same result, which is a success just if there
is a file and it can be opened. Then both add the same head, which announces the length of the file;
GET puts a file there of which reads bring just that many bytes, and HEAD leaves what was there.
When they fail, both leave everything as it was. -/
theorem head_as_get (s : Site) (now : Timestamp) (r : Request) (outbox : Outbox) (opens : List Fd)
    (hw : outbox.output.WellFormed) :
    let get := s.responder.get now { r with method := .get } outbox opens
    let head := s.responder.head now { r with method := .head } outbox opens
    get.result = head.result ∧
    (get.result = .ok () ↔
      (∃ found, s.find r.uri = .ok found ∧ found.file.readable = true) ∧ opens ≠ []) ∧
    (get.result = .ok () →
      ∃ found added fd source, s.find r.uri = .ok found ∧
        get.outbox.output.toList = outbox.output.toList ++ added ∧
        head.outbox.output.toList = outbox.output.toList ++ added ∧
        Reply.IsHead added 200 found.file.content.length ∧
        get.outbox.stream = some (.ofSource fd source) ∧
        (∀ space, 0 < space → Arrival.Yields space source found.file.content) ∧
        head.outbox.stream = outbox.stream) ∧
    ∀ status, get.result = .error status → get.outbox = outbox ∧ head.outbox = outbox := by
  intro get head
  cases hfind : s.find r.uri with
  | error status =>
    have hget : get = ⟨.error status, outbox, opens⟩ := respond_of_error true now outbox hfind
    have hhead : head = ⟨.error status, outbox, opens⟩ := respond_of_error false now outbox hfind
    rw [hget, hhead]
    simp
  | ok found =>
    cases hopen : found.file.open? opens with
    | none =>
      have hget : get = ⟨.error .internalServerError, outbox, opens⟩ :=
        respond_of_unopened true now outbox hfind hopen
      have hhead : head = ⟨.error .internalServerError, outbox, opens⟩ :=
        respond_of_unopened false now outbox hfind hopen
      have hunopened := File.open?_eq_none_iff.1 hopen
      rw [hget, hhead]
      refine ⟨rfl, ⟨nofun, ?_⟩, nofun, fun _ _ => ⟨rfl, rfl⟩⟩
      rintro ⟨⟨found', hfound, hreadable⟩, hsome⟩
      cases hfound
      obtain hno | hnil := hunopened
      · rw [hreadable] at hno
        cases hno
      · exact absurd hnil hsome
    | some opened =>
      obtain ⟨fd, left⟩ := opened
      obtain ⟨hreadable, rfl⟩ := File.open?_eq_some_iff.1 hopen
      have hget : get = ⟨.ok (), ⟨outbox.output.appendAll (Site.head now r found),
          some (.ofBytes fd found.file.content)⟩, left⟩ :=
        respond_of_opened true now outbox hfind hopen
      have hhead : head = ⟨.ok (), ⟨outbox.output.appendAll (Site.head now r found),
          outbox.stream⟩, left⟩ :=
        respond_of_opened false now outbox hfind hopen
      have hadded := ByteQueue.toList_appendAll hw (Site.head now r found)
      rw [hget, hhead]
      refine ⟨rfl, ⟨fun _ => ⟨⟨found, rfl, hreadable⟩, List.cons_ne_nil fd left⟩, fun _ => rfl⟩,
        fun _ => ?_, nofun⟩
      exact ⟨found, _, fd, _, rfl, hadded, hadded, isHead_head now r found, rfl,
        fun _ hs => Arrival.yields_bytes hs found.file.content, rfl⟩

/-- Behind an earlier answer, and where a file was put before. -/
theorem head_as_get_onePage :
    let outbox : Outbox := ⟨ByteQueue.empty.append [104, 105], some (.ofBytes 4 [33])⟩
    let get := onePage.responder.get .epoch { method := .get, uri := "/?q" } outbox [7]
    let head := onePage.responder.head .epoch { method := .head, uri := "/?q" } outbox [7]
    outbox.output.WellFormed ∧ get.result = .ok () ∧ head.result = .ok () ∧
      ∃ added, get.outbox.output.toList = [104, 105] ++ added ∧
        head.outbox.output.toList = [104, 105] ++ added ∧ Reply.IsHead added 200 5 ∧
        head.outbox.stream = some (.ofBytes 4 [33]) := by
  intro outbox get head
  have hw : outbox.output.WellFormed := by decide +kernel
  have hfind : onePage.find "/?q"
      = .ok ⟨[indexName], ⟨Text.encode "hello", some .epoch, true⟩⟩ := by
    decide +kernel
  obtain ⟨hsame, hiff, hok, -⟩ := head_as_get onePage .epoch { uri := "/?q" } outbox [7] hw
  have hget : get.result = .ok () := hiff.2 ⟨⟨_, hfind, rfl⟩, List.cons_ne_nil 7 []⟩
  obtain ⟨found, added, fd, source, hfound, hadded, hadded', hhead, -, -, hkept⟩ := hok hget
  rw [hfind] at hfound
  cases hfound
  have houtput : outbox.output.toList = [104, 105] := by decide +kernel
  rw [houtput] at hadded hadded'
  exact ⟨hw, hget, hsame.symm.trans hget, added, hadded, hadded', hhead, hkept⟩

end Site

/-! ### A connection -/

namespace Client

/-- The answer to a HEAD is a head alone; or it is an error, of which the page stands behind the
head. -/
inductive Entry.AnswersHead (s : Site) (left : List Fd) : Entry → Prop where
  | alone {r : Request} {found : Site.Located} {added : Bytes} :
      s.find r.uri = .ok found → found.file.readable = true →
      Reply.IsHead added 200 found.file.content.length →
      AnswersHead s left (.answered .head r added [])
  | page {r : Request} {now : Timestamp} {status : Status} {front : Bytes} :
      s.Declines left .head r.uri status →
      Bytes.cut? Bytes.blank (Answer.error now status).flatten
        = some (front, Answer.errorPage status) →
      AnswersHead s left (.declined .head r now status)

theorem Entry.answersHead_of_makes {s : Site} {left : List Fd} {entry : Entry}
    (h : s.Makes left entry) (hhead : entry.toHead = true) : entry.AnswersHead s left := by
  cases h with
  | page now hfind hreadable => cases hhead
  | head now hfind hreadable => exact .alone hfind hreadable (Site.isHead_head now _ _)
  | @declined now m r status hdeclines =>
    have hm : m = .head := by simpa [toHead] using hhead
    subst hm
    obtain ⟨front, hcut⟩ := Site.cut?_error now status
    exact .page hdeclines hcut
  | refused hstatus => cases hhead

theorem Entry.AnswersHead.endsWithHead_iff {s : Site} {left : List Fd} {entry : Entry}
    (h : entry.AnswersHead s left) : entry.bytes.EndsWithHead ↔ entry.isAnswer = true := by
  cases h with
  | @alone r found added _ _ hhead =>
    have hbytes : bytes (.answered .head r added []) = added := List.append_nil added
    rw [hbytes]
    exact ⟨fun _ => rfl, fun _ => hhead.endsWithHead⟩
  | @page r now status front _ hcut =>
    refine ⟨fun hends => ?_, nofun⟩
    obtain ⟨front', hcut'⟩ := hends
    have hsame := Option.some.inj (hcut.symm.trans hcut')
    exact absurd (Prod.mk.inj hsame).2 (Site.errorPage_ne_nil status)

namespace Session

/-- In what is written on a connection, each HEAD for which the responder was called has an answer
of its own, at its place. It is a head with nothing behind it just if the request succeeded; the
page of an error stands behind the head, and then the answer is the last one. -/
theorem head_alone_iff_answered (s : Site) (fd : Fd) (opens : List Fd) (events : List Event) :
    let t := run (accounted s.responder) { client := { fd }, state := (opens, []) } events
    t.written <+: t.log.flatMap Entry.bytes ∧
      (t.result = .ok () → t.written ++ t.client.owed = t.log.flatMap Entry.bytes) ∧
      t.state.2 = t.log.filter Entry.isCall ∧
      (∀ entry ∈ t.log.dropLast, entry.isAnswer = true) ∧
      ∀ entry ∈ t.log, entry.toHead = true →
        entry.AnswersHead s t.state.1 ∧ (entry.bytes.EndsWithHead ↔ entry.isAnswer = true) := by
  intro t
  have hb : t.Balanced := (balanced_fresh fd (opens, [])).run
    (s.blind_responder.appendOnly.noted Entry.ofCall) events
  have ho : t.Orderly := (orderly_fresh fd opens).run s.responder events
  refine ⟨hb.written_prefix, hb.balance, ho.calls, ho.errors, fun entry hmem hhead => ?_⟩
  have hanswers := Entry.answersHead_of_makes (makes_run s fd opens events entry hmem) hhead
  exact ⟨hanswers, hanswers.endsWithHead_iff⟩

set_option maxRecDepth 4000 in
/-- A HEAD for the page and one for a missing file behind it. -/
theorem head_alone_iff_answered_onePage :
    ∃ t entry entry', t = run (accounted Site.onePage.responder)
        { client := { fd := 5 }, state := ([7], []) } [.readable .epoch [.bytes
          (Text.encode "HEAD / HTTP/1.1\r\n\r\nHEAD /missing HTTP/1.1\r\n\r\n")]] ∧
      t.log = [entry, entry'] ∧ entry.bytes.EndsWithHead ∧ ¬ entry'.bytes.EndsWithHead := by
  obtain ⟨-, -, -, -, hheads⟩ := head_alone_iff_answered Site.onePage 5 [7]
    [.readable .epoch [.bytes
      (Text.encode "HEAD / HTTP/1.1\r\n\r\nHEAD /missing HTTP/1.1\r\n\r\n")]]
  have hlog : (run (accounted Site.onePage.responder)
        { client := { fd := 5 }, state := ([7], []) } [.readable .epoch [.bytes
          (Text.encode "HEAD / HTTP/1.1\r\n\r\nHEAD /missing HTTP/1.1\r\n\r\n")]]).log.map
        (fun entry => (entry.toHead, entry.isAnswer)) = [(true, true), (true, false)] := by
    decide +kernel
  obtain ⟨entry, rest, hfirst, hentry, hrest⟩ := List.map_eq_cons_iff.1 hlog
  obtain ⟨entry', rfl, hentry'⟩ := List.map_eq_singleton_iff.1 hrest
  obtain ⟨hhead, hanswer⟩ := Prod.mk.inj hentry
  obtain ⟨hhead', hanswer'⟩ := Prod.mk.inj hentry'
  rw [hfirst, List.forall_mem_cons, List.forall_mem_singleton] at hheads
  refine ⟨_, entry, entry', rfl, hfirst, (hheads.1 hhead).2.2 hanswer, fun hends => ?_⟩
  rw [(hheads.2 hhead').2.1 hends] at hanswer'
  cases hanswer'

set_option maxRecDepth 4000 in
/-- The page that answers a HEAD for a missing file. -/
theorem head_of_missing_not_alone :
    let t := run (accounted Site.onePage.responder) { client := { fd := 5 }, state := ([7], []) }
      [.readable .epoch [.bytes (Text.encode "HEAD /missing HTTP/1.1\r\n\r\n")],
        .writable .epoch [.everything] {}]
    ∃ entry, t.log = [entry] ∧ t.state.2 = [entry] ∧ entry.toHead = true ∧
      t.written = entry.bytes ∧ ¬ entry.bytes.EndsWithHead := by
  intro t
  obtain ⟨hlog, hwritten⟩ : t.log.map (fun entry =>
        (entry.toHead, (Bytes.cut? Bytes.blank entry.bytes).map (·.2)))
          = [(true, some (Answer.errorPage .notFound))] ∧
      t.written = t.log.flatMap Entry.bytes := by decide +kernel
  have hcalls : t.state.2 = t.log.filter Entry.isCall :=
    ((orderly_fresh 5 [7]).run Site.onePage.responder _).calls
  obtain ⟨entry, hone, hentry⟩ := List.map_eq_singleton_iff.1 hlog
  obtain ⟨hhead, hcut⟩ := Prod.mk.inj hentry
  rw [hone, List.flatMap_singleton] at hwritten
  have hcall : entry.isCall = true := by
    cases entry with
    | answered | declined => rfl
    | refused => cases hhead
  rw [hone, List.filter_cons_of_pos hcall] at hcalls
  refine ⟨entry, hone, hcalls, hhead, hwritten, ?_⟩
  rintro ⟨front, hends⟩
  rw [hends] at hcut
  exact Site.errorPage_ne_nil .notFound (Option.some.inj hcut).symm

end Session

end Client

end HttpOrigin
