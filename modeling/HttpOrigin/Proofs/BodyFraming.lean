import HttpOrigin.Proofs.Appending
import HttpOrigin.Proofs.Awaiting

/-! Where the body of a POST ends. The last `Content-Length` field of the head tells, as a decimal
number of any number of digits, or the request is refused; and until so many bytes have come in
behind the head, none of them is taken. -/
namespace HttpOrigin

namespace Text

theorem isDigit_digitChar : ∀ d < 10, (Nat.digitChar d).isDigit = true := by decide

theorem exists_digitChar {c : Char} (hc : c.isDigit = true) : ∃ d < 10, c = Nat.digitChar d := by
  have hrange : '0' ≤ c ∧ c ≤ '9' := by
    simpa [Char.isDigit, Char.le_def] using hc
  have hd : digit? c = some (c.toNat - '0'.toNat) := if_pos hrange
  exact ⟨_, digit?_eq_some_iff.1 hd⟩

section
variable {v : String} {n n' : Nat}

theorem Denotes.isDigit (h : Denotes v n) : ∀ c ∈ v.toList, c.isDigit = true := by
  obtain ⟨digits, -, hall, hv, -⟩ := h
  rw [hv, List.forall_mem_map]
  intro d hd
  exact isDigit_digitChar d (hall d hd)

theorem Denotes.unique (h : Denotes v n) (h' : Denotes v n') : n' = n := by
  rw [← decimal?_eq_some_iff] at h h'
  exact Option.some.inj (h'.symm.trans h)

/-- Every run of digits is a number. -/
theorem exists_denotes (hne : v ≠ "") (hv : ∀ c ∈ v.toList, c.isDigit = true) :
    ∃ n, Denotes v n := by
  have hdigits : ∃ digits : List Nat, (∀ d ∈ digits, d < 10) ∧
      v.toList = digits.map Nat.digitChar := by
    clear hne
    generalize v.toList = cs at hv
    induction cs with
    | nil => exact ⟨[], by simp, rfl⟩
    | cons c cs ih =>
      rw [List.forall_mem_cons] at hv
      obtain ⟨d, hd, rfl⟩ := exists_digitChar hv.1
      obtain ⟨digits, hall, rfl⟩ := ih hv.2
      exact ⟨d :: digits, List.forall_mem_cons.2 ⟨hd, hall⟩, rfl⟩
  obtain ⟨digits, hall, hcs⟩ := hdigits
  refine ⟨_, digits, ?_, hall, hcs, rfl⟩
  rintro rfl
  exact hne (String.toList_eq_nil_iff.1 hcs)

end

end Text

namespace Fields

def Lacks (f : Fields) (name : String) : Prop :=
  ∀ e ∈ f.entries, Text.sameIgnoringCase e.1 name = false

theorem get?_eq_none_iff {f : Fields} {name : String} : f.get? name = none ↔ f.Lacks name := by
  simp [get?, Lacks]

end Fields

namespace Request

/-- The text is no length: a character is no digit, or the number is too large. -/
def NoLength (v : String) : Prop :=
  (∃ c ∈ v.toList, c.isDigit = false) ∨ ∃ n, Text.Denotes v n ∧ 2 ^ 64 ≤ n

inductive Unmeasured (f : Fields) : HttpError → Prop where
  | missing : f.Lacks "Content-Length" → Unmeasured f .lengthRequired
  | invalid {v : String} : f.LastIs "Content-Length" v → NoLength v →
      Unmeasured f (.badRequest .invalidContentLength)

section
variable {r : Request} {e : HttpError}

theorem bodyLength_of_unmeasured (h : Unmeasured r.fields e) : r.bodyLength = .error e := by
  cases h with
  | missing hlacks => rw [bodyLength, Fields.get?_eq_none_iff.2 hlacks]
  | @invalid v hlast hno =>
    rw [bodyLength, Fields.get?_eq_some_iff.2 hlast]
    cases hn : Text.decimal? v with
    | none => simp [hn]
    | some n =>
      have hdenotes := Text.decimal?_eq_some_iff.1 hn
      have hlarge : ¬ n < lengthBound := by
        obtain ⟨c, hc, hdigit⟩ | ⟨n', hn', hlarge⟩ := hno
        · rw [hdenotes.isDigit c hc] at hdigit
          cases hdigit
        · rw [hdenotes.unique hn'] at hlarge
          exact Nat.not_lt.2 hlarge
      simp [hn, hlarge]

theorem unmeasured_of_bodyLength (hf : ∀ entry ∈ r.fields.entries, entry.2 ≠ "")
    (h : r.bodyLength = .error e) : Unmeasured r.fields e := by
  rw [bodyLength] at h
  cases hv : r.fields.get? "Content-Length" with
  | none =>
    rw [hv] at h
    cases h
    exact .missing (Fields.get?_eq_none_iff.1 hv)
  | some v =>
    have hlast := Fields.get?_eq_some_iff.1 hv
    have hne : v ≠ "" := by
      obtain ⟨before, spelling, after, hentries, -, -⟩ := hlast
      exact hf (spelling, v) (by simp [hentries])
    have hno : ¬ (∃ n, Text.Denotes v n ∧ n < lengthBound) → NoLength v := by
      intro hnone
      by_contra hyes
      simp only [NoLength, not_or, not_exists, not_and, Bool.not_eq_false, Nat.not_le] at hyes
      obtain ⟨n, hn⟩ := Text.exists_denotes hne hyes.1
      exact hnone ⟨n, hn, hyes.2 n hn⟩
    rw [hv] at h
    dsimp only at h
    cases hn : Text.decimal? v with
    | none =>
      rw [hn] at h
      cases h
      refine .invalid hlast (hno ?_)
      rintro ⟨n, hdenotes, -⟩
      rw [Text.decimal?_eq_some_iff.2 hdenotes] at hn
      cases hn
    | some n =>
      rw [hn] at h
      dsimp only at h
      split at h
      · cases h
      · rename_i hlarge
        cases h
        exact .invalid hlast (.inr ⟨n, Text.decimal?_eq_some_iff.1 hn, Nat.le_of_not_lt hlarge⟩)

end

end Request

namespace Stage

section
variable {begun : Request} {blank : Bytes} (hpost : begun.method = .post)
  (hblank : Line.Spells [] blank) (after : Bytes)
include hpost hblank

/-- What the blank line of a POST leads to. -/
theorem advance_of_post : (head (.fields begun)).advance (blank ++ after)
    = match begun.bodyLength with
      | .ok n => takeBody { begun with contentLength := some n } after
      | .error e => .refused e after := by
  have hnext : Head.next (.fields begun) (Text.decode []) = Head.finish begun := by
    rw [Text.decode_eq_empty_iff.2 rfl]
    rfl
  rw [advance_of_spells hblank, hnext, Head.finish, hpost]
  cases begun.bodyLength with
  | ok n => exact advance_body _ after
  | error e => rfl

theorem advance_of_unmeasured {e : HttpError} (he : Request.Unmeasured begun.fields e) :
    (head (.fields begun)).advance (blank ++ after) = .refused e after := by
  rw [advance_of_post hpost hblank, Request.bodyLength_of_unmeasured he]

variable {n : Nat} (hn : Request.Announces begun.fields n)
include hn

theorem advance_of_short (hshort : after.length < n) :
    (head (.fields begun)).advance (blank ++ after)
      = .waiting (body { begun with contentLength := some n }) after := by
  rw [advance_of_post hpost hblank, Request.bodyLength_eq_ok_iff.2 hn]
  exact if_pos hshort

theorem advance_of_long (hlong : n ≤ after.length) :
    (head (.fields begun)).advance (blank ++ after)
      = .request { begun with contentLength := some n, body := after.take n } (after.drop n) := by
  rw [advance_of_post hpost hblank, Request.bodyLength_eq_ok_iff.2 hn]
  exact if_neg (Nat.not_lt.2 hlong)

end

end Stage

namespace Exchange
open ByteQueue (Inflow)

variable {σ : Type}

/-- In whatever pieces the head of a POST and the bytes behind it come in: without a
`Content-Length`, or if the last one is no length, the request is refused and the bytes behind the
head are left; else the calls wait and take none of them as long as they are too few, and when they
are enough the responder is called, once, for the request with so many of them as its body, and the
others are left. -/
theorem await_post (h : Responder σ) (now : Timestamp) (outbox : Outbox) (state : σ)
    (ops : List ByteQueue.Op) (fs : List Inflow) (begun : Request) (lines blank after : Bytes)
    (hpost : begun.method = .post) (hlines : (Head.fields begun).ReadFrom lines)
    (hblank : Line.Spells [] blank)
    (hall : (ByteQueue.run .empty ops).2.toList ++ fs.flatMap Inflow.bytes
      = lines ++ (blank ++ after)) :
    let input := (ByteQueue.run .empty ops).2
    let a := await h.recorded now .idle input outbox (state, []) fs
    (begun.fields.Lacks "Content-Length" →
      a.Refuses .lengthRequired after ∧ a.Untouched outbox (state, [])) ∧
    (∀ v, begun.fields.LastIs "Content-Length" v → Request.NoLength v →
      a.Refuses (.badRequest .invalidContentLength) after ∧ a.Untouched outbox (state, [])) ∧
    ∀ v n, begun.fields.LastIs "Content-Length" v → Text.Denotes v n → n < 2 ^ 64 →
      (after.length < n → a.Waits (.body { begun with contentLength := some n }) after ∧
        a.Untouched outbox (state, [])) ∧
      (n ≤ after.length →
        let r := { begun with contentLength := some n, body := after.take n }
        a.Serves r (h.post now r outbox state) (after.drop n) ∧
        ∃ earlier, fs = earlier ++ a.ahead ∧ input.toList ++ earlier.flatMap Inflow.bytes
          = lines ++ (blank ++ (after.take n ++ a.served.input.toList))) := by
  intro input a
  have hw : input.WellFormed := (ByteQueue.run_refines ByteQueue.wellFormed_empty ops).1
  have hmeets : a.Meets h.recorded now outbox (state, []) _ :=
    meets_await h.recorded now .idle hw outbox (state, []) fs
  rw [hall, Head.advance_of_readFrom hlines] at hmeets
  refine ⟨fun hlacks => ?_, fun v hlast hno => ?_, fun v n hlast hn hbound => ?_⟩
  · rwa [Stage.advance_of_unmeasured hpost hblank after (.missing hlacks)] at hmeets
  · rwa [Stage.advance_of_unmeasured hpost hblank after (.invalid hlast hno)] at hmeets
  · have hannounced : Request.Announces begun.fields n := ⟨v, hlast, hn, hbound⟩
    refine ⟨fun hshort => ?_, fun hlong => ?_⟩
    · rwa [Stage.advance_of_short hpost hblank after hannounced hshort] at hmeets
    · intro r
      rw [Stage.advance_of_long hpost hblank after hannounced hlong] at hmeets
      have hserves := serves_of_meets hmeets
      have hcall : h.forMethod r.method now r outbox state = h.post now r outbox state :=
        congrArg (h.forMethod · now r outbox state) hpost
      obtain ⟨earlier, hfs⟩ := exists_append_ahead h.recorded now .idle input outbox (state, []) fs
      refine ⟨hcall ▸ hserves, earlier, hfs, ?_⟩
      have hbytes : input.toList ++ earlier.flatMap Inflow.bytes ++ a.ahead.flatMap Inflow.bytes
          = lines ++ (blank ++ (after.take n ++ a.left)) := by
        rw [hserves.left, List.take_append_drop, ← hall, List.append_assoc, ← List.flatMap_append,
          ← hfs]
      rw [Awaited.left] at hbytes
      simpa only [← List.append_assoc, List.append_cancel_right_eq] using hbytes

def form : Request :=
  { method := .post, uri := "/form", fields := ⟨[("content-length", "002")]⟩ }

def formLines : Bytes :=
  Text.encode "POST /form HTTP/1.1" ++ Bytes.crlf ++
    (Text.encode ("content-length" ++ ": " ++ "002") ++ Bytes.crlf)

theorem readFrom_formLines : (Head.fields form).ReadFrom formLines := by
  have hwords : Text.words (Text.decode (Text.encode "POST /form HTTP/1.1"))
      = ["POST", "/form", "HTTP/1.1"] := by
    rw [Text.decode_encode]
    decide +kernel
  have hopened : Request.OpenedBy _ .post "/form" :=
    Request.openedBy_iff.2 ⟨"POST", "HTTP/1.1", Request.words_eq_iff.1 hwords, by decide,
      by decide⟩
  have hnamed : Fields.NamedBy (Text.decode (Text.encode ("content-length" ++ ": " ++ "002")))
      "content-length" "002" := by
    rw [Text.decode_encode]
    exact Fields.namedBy_of_bare (by decide) (by decide) (by decide)
  have hopening : Line.Says (Request.OpenedBy · .post "/form")
      (Text.encode "POST /form HTTP/1.1" ++ Bytes.crlf) :=
    ⟨_, ⟨by decide +kernel, by decide +kernel, .inl rfl⟩, hopened⟩
  have hfield : Line.Says (Fields.NamedBy · "content-length" "002")
      (Text.encode ("content-length" ++ ": " ++ "002") ++ Bytes.crlf) :=
    ⟨_, ⟨by decide +kernel, by decide +kernel, .inl rfl⟩, hnamed⟩
  exact .field (.opening .nothing hopening) hfield (by decide)

/-- The form in three pieces, the last byte of its body alone and with one more behind it. -/
theorem await_post_form :
    (await Site.onePage.responder.recorded .epoch .idle .empty ⟨.empty, none⟩ ([7], [])
      [.handed (formLines ++ [13]), .handed [10, 104], .handed [105, 71]]).Serves
      { form with contentLength := some 2, body := [104, 105] }
      ⟨.error .notImplemented, ⟨.empty, none⟩, [7]⟩ [71] := by
  have hannounced : form.fields.LastIs "Content-Length" "002" :=
    ⟨[], "content-length", [], rfl, by decide, by simp⟩
  have hdenotes : Text.Denotes "002" 2 := ⟨[0, 0, 2], by simp, by decide, by decide, by decide⟩
  have hblank : Line.Spells [] Bytes.crlf := ⟨by simp, by decide, .inl rfl⟩
  have hall := await_post Site.onePage.responder .epoch ⟨.empty, none⟩ [7] []
    [.handed (formLines ++ [13]), .handed [10, 104], .handed [105, 71]] form formLines Bytes.crlf
    [104, 105, 71] rfl readFrom_formLines hblank (by decide +kernel)
  exact ((hall.2.2 "002" 2 hannounced hdenotes (by decide)).2 (by decide)).1

end Exchange

end HttpOrigin
