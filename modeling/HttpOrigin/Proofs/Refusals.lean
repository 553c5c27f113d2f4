import HttpOrigin.Proofs.BodyFraming

/-! Which line a request is refused for, said without the reader: the first one that may not stand
behind those before it, too long, of no form, one too many, or the blank line of a POST that does
not say how long its body is. -/
namespace HttpOrigin

namespace Request

/-- Why a line opens no request: the words are counted first, and the method is judged before the
version. -/
inductive Misopened (line : String) : HttpError → Prop where
  | malformed : (∀ token uri version, ¬ Worded line token uri version) →
      Misopened line (.badRequest .malformedRequestLine)
  | method {token uri version : String} : Worded line token uri version →
      (∀ m : Method, Text.sameIgnoringCase token m.text = false) →
      Misopened line (.methodNotAllowed token)
  | version {token uri version : String} {m : Method} : Worded line token uri version →
      Text.sameIgnoringCase token m.text = true →
      Text.sameIgnoringCase version Version.http11.text = false →
      Misopened line (.versionNotSupported version)

end Request

theorem Method.ofToken_eq_error_iff {token : String} {e : HttpError} :
    ofToken token = .error e ↔
      (∀ m : Method, Text.sameIgnoringCase token m.text = false) ∧ e = .methodNotAllowed token := by
  constructor
  · intro h
    refine ⟨fun m => ?_, ?_⟩
    · rw [Bool.eq_false_iff]
      intro hsame
      rw [ofToken_eq_ok_iff.2 hsame] at h
      cases h
    · rw [ofToken] at h
      split at h
      · cases h
      · cases h
        rfl
  · rintro ⟨hnone, rfl⟩
    simp [ofToken, hnone]

theorem Version.ofToken_eq_error_iff {token : String} {e : HttpError} :
    ofToken token = .error e ↔
      Text.sameIgnoringCase token http11.text = false ∧ e = .versionNotSupported token := by
  rw [ofToken]
  cases Text.sameIgnoringCase token http11.text with
  | true => simp
  | false => simp [eq_comm]

namespace Request

theorem ofLine_eq_error_iff {line : String} {e : HttpError} :
    ofLine line = .error e ↔ Misopened line e := by
  constructor
  · intro h
    rw [ofLine] at h
    split at h
    · rename_i token uri version hwords
      have hworded := words_eq_iff.1 hwords
      cases hm : Method.ofToken token with
      | error e' =>
        rw [hm] at h
        obtain ⟨hnone, rfl⟩ := Method.ofToken_eq_error_iff.1 hm
        cases h
        exact .method hworded hnone
      | ok m =>
        cases hv : Version.ofToken version with
        | error e' =>
          rw [hm, hv] at h
          obtain ⟨hnone, rfl⟩ := Version.ofToken_eq_error_iff.1 hv
          cases h
          exact .version hworded (Method.ofToken_eq_ok_iff.1 hm) hnone
        | ok v =>
          rw [hm, hv] at h
          cases h
    · rename_i hwords
      cases h
      exact .malformed fun token uri version hworded =>
        hwords token uri version (words_eq_iff.2 hworded)
  · intro h
    cases h with
    | malformed hnone =>
      rw [ofLine]
      split
      · rename_i token uri version hwords
        exact absurd (words_eq_iff.1 hwords) (hnone token uri version)
      · rfl
    | method hworded hnone =>
      simp only [ofLine, words_eq_iff.2 hworded, Method.ofToken_eq_error_iff.2 ⟨hnone, rfl⟩]
      rfl
    | version hworded hm hnone =>
      simp only [ofLine, words_eq_iff.2 hworded, Method.ofToken_eq_ok_iff.2 hm,
        Version.ofToken_eq_error_iff.2 ⟨hnone, rfl⟩]
      rfl

end Request

namespace Fields

theorem malformed_of_ofLine {line : String} {e : HttpError} (h : ofLine line = .error e) :
    e = .badRequest .malformedField := by
  rw [ofLine] at h
  split at h
  · cases h
    rfl
  · dsimp only at h
    split at h
    · cases h
      rfl
    · cases h

theorem ofLine_eq_error_iff {line : String} {e : HttpError} :
    ofLine line = .error e ↔
      (∀ name value, ¬ NamedBy line name value) ∧ e = .badRequest .malformedField := by
  constructor
  · intro h
    refine ⟨fun name value hnamed => ?_, malformed_of_ofLine h⟩
    rw [ofLine_eq_ok_iff.2 hnamed] at h
    cases h
  · rintro ⟨hnone, rfl⟩
    cases h : ofLine line with
    | ok entry => exact absurd (ofLine_eq_ok_iff.1 h) (hnone entry.1 entry.2)
    | error e => rw [malformed_of_ofLine h]

end Fields

namespace Head

inductive Rejects : Head → String → HttpError → Prop where
  | opening {line : String} {e : HttpError} : line ≠ "" → Request.Misopened line e →
      Rejects start line e
  | malformed {r : Request} {line : String} : line ≠ "" →
      (∀ name value, ¬ Fields.NamedBy line name value) →
      Rejects (fields r) line (.badRequest .malformedField)
  | surplus {r : Request} {line name value : String} : Fields.NamedBy line name value →
      maxFields ≤ r.fields.size → Rejects (fields r) line (.badRequest .tooManyFields)
  | unmeasured {r : Request} {e : HttpError} : r.method = .post →
      Request.Unmeasured r.fields e → Rejects (fields r) "" e

/-- The line at the front of the bytes may not stand there, and so much is left when it is refused:
all from a line that is too long on, else what is behind the line. -/
inductive Offends (hd : Head) (w : Bytes) : HttpError → Bytes → Prop where
  | tooLong {line after : Bytes} : Line.Begins line after w → maxLine < line.length →
      Offends hd w (.badRequest .lineTooLong) w
  | endless : Bytes.lf ∉ w → maxLine + 1 < w.length → Offends hd w (.badRequest .lineTooLong) w
  | rejected {line after : Bytes} {e : HttpError} : Line.Says (hd.Rejects · e) line →
      w = line ++ after → Offends hd w e after

def FirstOffence (w : Bytes) (e : HttpError) (left : Bytes) : Prop :=
  ∃ (hd : Head) (before rest : Bytes), hd.ReadFrom before ∧ w = before ++ rest ∧
    hd.Offends rest e left

theorem ReadFrom.value_ne {r : Request} {before : Bytes} (h : (fields r).ReadFrom before) :
    ∀ entry ∈ r.fields.entries, entry.2 ≠ "" := by
  -- Only a head with fields is asked about, but the induction is over all of them.
  have hall : ∀ {hd : Head} {before : Bytes}, hd.ReadFrom before →
      ∀ r, hd = fields r → ∀ entry ∈ r.fields.entries, entry.2 ≠ "" := by
    intro hd before h
    induction h with
    | nothing | blank => nofun
    | opening =>
      rintro r ⟨⟩
      simp
    | @field before line r' name value _ hline _ ih =>
      rintro r ⟨⟩ entry hentry
      obtain ⟨text, -, a, b, c, d, -, -, -, -, -, -, hvalue, -⟩ := hline
      obtain hentry | hentry := List.mem_append.1 hentry
      · exact ih r' rfl entry hentry
      · obtain rfl := List.mem_singleton.1 hentry
        rintro rfl
        exact hvalue.ne_nil rfl
  exact hall h r rfl

section
variable {hd hd' : Head} {before text line w left : Bytes} {e : HttpError}

theorem ReadFrom.next (h : hd.ReadFrom before) (hline : Line.Spells text line)
    (hnext : hd.next (Text.decode text) = .head hd') : hd'.ReadFrom (before ++ line) := by
  cases hd with
  | start =>
    obtain ⟨hempty, hn⟩ | ⟨m, uri, hopened, hn⟩ | ⟨e, hn⟩ :=
      next_start_cases (Text.decode text) <;> rw [hn] at hnext
    · cases hnext
      obtain rfl := Text.decode_eq_empty_iff.1 hempty
      exact .blank h hline
    · cases hnext
      exact .opening h ⟨text, hline, hopened⟩
    · cases hnext
  | fields r =>
    obtain ⟨-, hn⟩ | ⟨name, value, hnamed, hroom, hn⟩ | ⟨e, hn⟩ :=
      next_fields_cases r (Text.decode text) <;> rw [hn] at hnext
    · obtain ⟨-, hf⟩ | ⟨n, -, -, hf⟩ | ⟨e, hf⟩ := finish_cases r <;>
        rw [hf] at hnext <;> cases hnext
    · cases hnext
      exact .field h ⟨text, hline, hnamed⟩ hroom
    · cases hnext

theorem next_of_rejects {line : String} (h : hd.Rejects line e) : hd.next line = .refused e := by
  cases h with
  | opening hne he => simp [next, hne, Request.ofLine_eq_error_iff.2 he]
  | malformed hne hnone =>
    simp [next, hne, addField, Fields.ofLine_eq_error_iff.2 ⟨hnone, rfl⟩]
  | surplus hnamed hfull =>
    have hline := Fields.ofLine_eq_ok_iff.2 hnamed
    have hne : line ≠ "" := by
      rintro rfl
      cases hline
    have hroom : ¬ Fields.size _ < maxFields := Nat.not_lt.2 hfull
    simp [next, hne, addField, hline, Fields.insert?, hroom]
  | unmeasured hm he =>
    simp [next, finish, hm, Request.bodyLength_of_unmeasured he]

theorem rejects_of_next (h : hd.ReadFrom before) {line : String}
    (hnext : hd.next line = .refused e) : hd.Rejects line e := by
  cases hd with
  | start =>
    by_cases hempty : line = ""
    · subst hempty
      cases hnext
    · rw [next, if_neg (by simpa using hempty)] at hnext
      cases hr : Request.ofLine line with
      | ok r =>
        rw [hr] at hnext
        cases hnext
      | error e' =>
        rw [hr] at hnext
        cases hnext
        exact .opening hempty (Request.ofLine_eq_error_iff.1 hr)
  | fields r =>
    by_cases hempty : line = ""
    · subst hempty
      have hfinish : finish r = .refused e := hnext
      cases hm : r.method with
      | get | head => simp [finish, hm] at hfinish
      | post =>
        cases hlength : r.bodyLength with
        | ok n => simp [finish, hm, hlength] at hfinish
        | error e' =>
          simp only [finish, hm, hlength, Step.refused.injEq] at hfinish
          subst hfinish
          exact .unmeasured hm (Request.unmeasured_of_bodyLength h.value_ne hlength)
    · rw [next, if_neg (by simpa using hempty), addField] at hnext
      cases hf : Fields.ofLine line with
      | error e' =>
        rw [hf] at hnext
        cases hnext
        obtain ⟨hnone, rfl⟩ := Fields.ofLine_eq_error_iff.1 hf
        exact .malformed hempty hnone
      | ok entry =>
        obtain ⟨name, value⟩ := entry
        rw [hf] at hnext
        by_cases hroom : r.fields.size < maxFields
        · simp [Fields.insert?, hroom] at hnext
        · simp only [Fields.insert?, if_neg hroom, Step.refused.injEq] at hnext
          subst hnext
          exact .surplus (Fields.ofLine_eq_ok_iff.1 hf) (Nat.le_of_not_lt hroom)

theorem Rejects.ne_responder {line : String} (h : hd.Rejects line e) (status : Status) :
    e ≠ .responder status := by
  cases h with
  | malformed | surplus => nofun
  | opening _ he => cases he <;> nofun
  | unmeasured _ he => cases he <;> nofun

theorem FirstOffence.ne_responder (h : FirstOffence w e left) (status : Status) :
    e ≠ .responder status := by
  obtain ⟨hd, before, rest, -, -, hoffends⟩ := h
  cases hoffends with
  | tooLong | endless => nofun
  | rejected hline _ =>
    obtain ⟨text, -, hrejects⟩ := hline
    exact hrejects.ne_responder status

theorem advance_of_offends (h : hd.Offends w e left) :
    (Stage.head hd).advance w = .refused e left := by
  cases h with
  | tooLong hbegins hlong =>
    rw [Stage.advance_head, Line.scan_of_begins hbegins, if_pos hlong]
  | endless hfree hlong => rw [Stage.advance_head, Line.scan_of_free hfree, if_pos hlong]
  | rejected hline hw =>
    obtain ⟨text, hspells, hrejects⟩ := hline
    rw [hw, Stage.advance_of_spells hspells, next_of_rejects hrejects]

theorem offends_of_scan (h : Line.scan w = .tooLong) :
    hd.Offends w (.badRequest .lineTooLong) w := by
  by_cases hlf : Bytes.lf ∈ w
  · obtain ⟨line, after, hbegins⟩ := Line.exists_begins hlf
    rw [Line.scan_of_begins hbegins] at h
    by_cases hlong : maxLine < line.length
    · exact .tooLong hbegins hlong
    · rw [if_neg hlong] at h
      cases h
  · rw [Line.scan_of_free hlf] at h
    by_cases hlong : maxLine + 1 < w.length
    · exact .endless hlf hlong
    · rw [if_neg hlong] at h
      cases h

/-- Where reading refuses, the lines before it are those that the head holds by then. -/
theorem firstOffence_of_advance (h : hd.ReadFrom before)
    (ha : (Stage.head hd).advance w = .refused e left) : FirstOffence (before ++ w) e left := by
  induction hn : w.length using Nat.strongRecOn generalizing hd before w with
  | ind n ih =>
    subst hn
    rw [Stage.advance_head] at ha
    cases hscan : Line.scan w with
    | incomplete =>
      rw [hscan] at ha
      cases ha
    | tooLong =>
      rw [hscan] at ha
      cases ha
      exact ⟨hd, before, left, h, rfl, offends_of_scan hscan⟩
    | line text rest =>
      have hless := Line.length_rest_lt hscan
      obtain ⟨line, hline, rfl⟩ := Line.spells_of_scan hscan
      rw [hscan] at ha
      dsimp only at ha
      cases hnext : hd.next (Text.decode text) with
      | head hd' =>
        rw [hnext] at ha
        rw [← List.append_assoc]
        exact ih _ hless (h.next hline hnext) ha rfl
      | body r =>
        rw [hnext] at ha
        dsimp only at ha
        rw [Stage.advance_body, Stage.takeBody] at ha
        split at ha <;> cases ha
      | request r =>
        rw [hnext] at ha
        cases ha
      | refused e' =>
        rw [hnext] at ha
        cases ha
        exact ⟨hd, before, line ++ left, h, rfl,
          .rejected ⟨text, hline, rejects_of_next h hnext⟩ rfl⟩

theorem advance_idle_eq_refused_iff :
    Stage.idle.advance w = .refused e left ↔ FirstOffence w e left := by
  constructor
  · intro h
    exact firstOffence_of_advance .nothing h
  · rintro ⟨hd, before, rest, hread, rfl, hoffends⟩
    rw [advance_of_readFrom hread, advance_of_offends hoffends]

end

end Head

namespace Exchange
open ByteQueue (Inflow)

variable {σ : Type}

theorem result_answer (h : Responder σ) (now : Timestamp) (r : Request) (input : ByteQueue)
    (outbox : Outbox) (state : σ) :
    (∃ outcome, (answer h now r input outbox state).result = .ok outcome) ∨
      ∃ status, (answer h now r input outbox state).result = .error (.responder status) := by
  rw [answer]
  cases (h.forMethod r.method now r outbox state).result with
  | ok u => exact .inl ⟨_, rfl⟩
  | error status => exact .inr ⟨status, rfl⟩

/-- In whatever pieces the bytes come in, with a call after each while one waits: the calls end with
an error of the reader's exactly if a line may not stand where it does, and the error is that of the
first such line. Then no responder was called, nothing was queued, the reader is idle, and what is
left is told by the line. -/
theorem await_refuses_iff (h : Responder σ) (now : Timestamp) (outbox : Outbox) (state : σ)
    (ops : List ByteQueue.Op) (fs : List Inflow) :
    let input := (ByteQueue.run .empty ops).2
    let whole := input.toList ++ fs.flatMap Inflow.bytes
    let a := await h.recorded now .idle input outbox (state, []) fs
    ((∃ e, a.served.result = .error e ∧ ∀ status, e ≠ .responder status) ↔
      ∃ e left, Head.FirstOffence whole e left) ∧
    ∀ e left, Head.FirstOffence whole e left →
      a.Refuses e left ∧ a.Untouched outbox (state, []) := by
  intro input whole a
  have hw : input.WellFormed := (ByteQueue.run_refines ByteQueue.wellFormed_empty ops).1
  have hmeets : a.Meets h.recorded now outbox (state, []) (Stage.idle.advance whole) :=
    meets_await h.recorded now .idle hw outbox (state, []) fs
  have hrefuses : ∀ e left, Head.FirstOffence whole e left →
      a.Refuses e left ∧ a.Untouched outbox (state, []) := by
    intro e left hfirst
    rwa [Head.advance_idle_eq_refused_iff.2 hfirst] at hmeets
  refine ⟨⟨?_, ?_⟩, hrefuses⟩
  · rintro ⟨e, he, hnot⟩
    cases ha : Stage.idle.advance whole with
    | waiting stage rest =>
      rw [ha] at hmeets
      rw [hmeets.1.result] at he
      cases he
    | refused e' left => exact ⟨e', left, Head.advance_idle_eq_refused_iff.1 ha⟩
    | request r rest =>
      rw [ha] at hmeets
      rw [hmeets.1] at he
      obtain ⟨outcome, hr⟩ | ⟨status, hr⟩ := result_answer h.recorded now r a.served.input outbox
        (state, []) <;> rw [hr] at he <;> cases he
      exact absurd rfl (hnot status)
  · rintro ⟨e, left, hfirst⟩
    exact ⟨e, (hrefuses e left hfirst).1.result, hfirst.ne_responder⟩

end Exchange

end HttpOrigin
