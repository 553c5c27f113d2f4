import HttpOrigin.Proofs.Appending
import HttpOrigin.Proofs.Dispatch

/-! Requests as they are written, with every freedom a client has in it: blank lines before them,
the case of the method and the ending of each line. Written one behind the other they are read back,
one by each call, and what follows them is left. -/
namespace HttpOrigin

inductive Ending where
  | crlf
  | lf
  deriving DecidableEq, Repr

def Ending.bytes : Ending → Bytes
  | crlf => Bytes.crlf
  | lf => [Bytes.lf]

namespace Line

def write (text : String) (e : Ending) : Bytes := Text.encode text ++ e.bytes

structure Fits (text : String) : Prop where
  cr : '\r' ∉ text.toList
  lf : '\n' ∉ text.toList
  length : (Text.encode text).length ≤ maxLine

theorem spells_write {text : String} (h : Fits text) (e : Ending) :
    Spells (Text.encode text) (write text e) := by
  have hlf : Bytes.lf ∉ Text.encode text := by
    intro hmem
    exact h.lf (Text.mem_of_mem_encode (by decide) (by decide) hmem)
  have hcr : (Text.encode text).getLast? ≠ some Bytes.cr := by
    intro hlast
    have hmem := List.mem_of_getLast? hlast
    exact h.cr (Text.mem_of_mem_encode (by decide) (by decide) hmem)
  refine ⟨hlf, h.length, ?_⟩
  cases e with
  | crlf => exact .inl rfl
  | lf => exact .inr ⟨rfl, hcr⟩

theorem says_write {P : String → Prop} {text : String} (h : Fits text) (hp : P text) (e : Ending) :
    Says P (write text e) := by
  refine ⟨Text.encode text, spells_write h e, ?_⟩
  rwa [Text.decode_encode]

theorem spells_write_empty (e : Ending) : Spells [] (write "" e) := by
  have hfits : Fits "" := ⟨by simp, by simp, by simp [Text.encode]⟩
  have hspells := spells_write hfits e
  simpa [Text.encode] using hspells

end Line

/-! ### Field lines -/

structure FieldLine where
  name : String
  value : String
  ending : Ending
  name_bare : Fields.Bare name.toList
  value_bare : Fields.Bare value.toList
  colon : ':' ∉ name.toList
  fits : Line.Fits (name ++ ": " ++ value)

namespace FieldLine

def entry (l : FieldLine) : String × String := (l.name, l.value)

def bytes (l : FieldLine) : Bytes := Line.write (l.name ++ ": " ++ l.value) l.ending

theorem says_bytes (l : FieldLine) :
    Line.Says (Fields.NamedBy · l.entry.1 l.entry.2) l.bytes := by
  have hnamed := Fields.namedBy_of_bare l.name_bare l.value_bare l.colon
  exact Line.says_write l.fits hnamed l.ending

theorem says_lines (ls : List FieldLine) :
    List.Forall₂ (fun e => Line.Says (Fields.NamedBy · e.1 e.2)) (ls.map entry) (ls.map bytes) := by
  induction ls with
  | nil => exact .nil
  | cons l ls ih => exact .cons l.says_bytes ih

end FieldLine

/-! ### Requests -/

/-- Only a POST has a body, and its last field of that name says how long it is. -/
def Request.MayCarry (m : Method) (f : Fields) (body : Bytes) : Prop :=
  match m with
  | .get | .head => body = []
  | .post => Announces f body.length

/-- A request that can be written, with one way of writing it. -/
structure Written where
  blanks : List Ending
  method : Method
  token : String
  uri : String
  opening : Ending
  lines : List FieldLine
  blank : Ending
  body : Bytes
  token_method : Text.sameIgnoringCase token method.text = true
  uri_word : Text.IsWord uri.toList
  opening_length : (Text.encode (token ++ " " ++ uri ++ " HTTP/1.1")).length ≤ maxLine
  lines_length : lines.length ≤ maxFields
  body_announced : Request.MayCarry method ⟨lines.map FieldLine.entry⟩ body

namespace Written

def bytes (w : Written) : Bytes :=
  (w.blanks.map (Line.write "")).flatten ++
    (Line.write (w.token ++ " " ++ w.uri ++ " HTTP/1.1") w.opening ++
      ((w.lines.map FieldLine.bytes).flatten ++ (Line.write "" w.blank ++ w.body)))

def request (w : Written) : Request where
  method := w.method
  uri := w.uri
  fields := ⟨w.lines.map FieldLine.entry⟩
  contentLength := match w.method with
    | .get | .head => none
    | .post => some w.body.length
  body := w.body

/-- A blank is no upper case letter, so lowering keeps it. -/
theorem toLower_of_isBlank {c : Char} (hc : Text.isBlank c = true) : c.toLower = c := by
  have hkept : ¬ (c.val ≥ 'A'.val ∧ c.val ≤ 'Z'.val) := by
    intro hupper
    have hrange : 65 ≤ c.toNat ∧ c.toNat ≤ 90 := hupper
    simp only [Text.isBlank, Text.blankRanges, List.any_cons, List.any_nil, Bool.or_false,
      Bool.or_eq_true, Bool.and_eq_true, decide_eq_true_eq] at hc
    omega
  exact dif_neg hkept

theorem isWord_token (w : Written) : Text.IsWord w.token.toList := by
  have hsame := Text.sameIgnoringCase_iff.1 w.token_method
  have hletters : (Text.lowered w.method.text).any Text.isBlank = false := by
    cases w.method <;> decide
  constructor
  · intro hnil
    rw [Text.lowered, hnil] at hsame
    cases hm : w.method <;> rw [hm] at hsame <;> cases hsame
  · intro c hc
    by_contra hblank
    rw [Bool.not_eq_false] at hblank
    have hmem : c.toLower ∈ Text.lowered w.token := List.mem_map_of_mem hc
    rw [toLower_of_isBlank hblank, hsame] at hmem
    exact List.any_eq_false.1 hletters c hmem hblank

theorem openedBy (w : Written) :
    Request.OpenedBy (w.token ++ " " ++ w.uri ++ " HTTP/1.1") w.method w.uri := by
  have hspace : Text.Blank [' '] := by
    simp [Text.Blank]
    decide
  have hversion : Text.IsWord Version.http11.text.toList := by decide
  refine ⟨[], w.token.toList, [' '], [' '], Version.http11.text.toList, [], ?_, ?_, hspace, hspace,
    ?_, by simp, by simp, w.isWord_token, w.uri_word, hversion, ?_, ?_⟩
  · simp [Version.text]
  · simp [Text.Blank]
  · simp [Text.Blank]
  · simpa using w.token_method
  · simp

theorem opening_fits (w : Written) : Line.Fits (w.token ++ " " ++ w.uri ++ " HTTP/1.1") := by
  have hsolid : ∀ {cs : List Char} {c : Char}, Text.IsWord cs → Text.isBlank c = true → c ∉ cs := by
    intro cs c hcs hc hmem
    rw [hcs.solid c hmem] at hc
    cases hc
  refine ⟨?_, ?_, w.opening_length⟩
  · have htoken := hsolid w.isWord_token (c := '\r') (by decide)
    have huri := hsolid w.uri_word (c := '\r') (by decide)
    simp [htoken, huri]
  · have htoken := hsolid w.isWord_token (c := '\n') (by decide)
    have huri := hsolid w.uri_word (c := '\n') (by decide)
    simp [htoken, huri]

theorem writtenAs (w : Written) : w.request.WrittenAs w.bytes := by
  refine ⟨w.blanks.map (Line.write ""), _, w.lines.map FieldLine.bytes, _, rfl, ?_,
    Line.says_write w.opening_fits w.openedBy w.opening, FieldLine.says_lines w.lines, ?_,
    Line.spells_write_empty w.blank, ?_⟩
  · intro b hb
    obtain ⟨e, _, rfl⟩ := List.mem_map.1 hb
    exact Line.spells_write_empty e
  · simpa [request, Fields.size] using w.lines_length
  · have hbody := w.body_announced
    simp only [request]
    cases hm : w.method with
    | get | head | post =>
      rw [hm] at hbody
      exact ⟨hbody, rfl⟩

end Written

namespace Reader

variable {σ : Type}

def parseAll (p : Reader σ) : List (Call σ) → List Parse × Reader σ
  | [] => ([], p)
  | c :: cs => ((p.parse c).1 :: ((p.parse c).2.parseAll cs).1, ((p.parse c).2.parseAll cs).2)

def Parse.Serves (call : Parse) (w : Written) : Prop :=
  ∃ result, call.dispatched = [⟨w.method, w.request, result⟩] ∧
    match result with
    | .ok () => (call.result = .ok .close ∧ Request.ClosedBy w.request.fields) ∨
        (call.result = .ok .keepAlive ∧ ¬ Request.ClosedBy w.request.fields)
    | .error status => call.result = .error (.responder status)

theorem parse_of_written {p : Reader σ} {w : Written} {rest : Bytes} (c : Call σ)
    (hs : p.stage = .idle) (hi : p.input.toList = w.bytes ++ rest) :
    (p.parse c).1.Serves w ∧ (p.parse c).2.stage = .idle ∧ (p.parse c).2.input.toList = rest := by
  have ha : p.stage.advance p.input.toList = .request w.request rest := by
    rw [hs, Stage.advance_idle_eq_request_iff]
    exact ⟨w.bytes, w.writtenAs, hi⟩
  rw [parse_of_request hi.symm ha]
  refine ⟨⟨_, rfl, ?_⟩, rfl, Exchange.toList_leave_request ha⟩
  cases (c.responder.forMethod w.request.method c.now w.request c.outbox p.state).result with
  | ok u =>
    by_cases hclosed : Request.ClosedBy w.request.fields
    · have hasks := Request.asksToClose_iff.2 hclosed
      exact .inl ⟨by simp [hasks], hclosed⟩
    · have hasks := mt Request.asksToClose_iff.1 hclosed
      exact .inr ⟨by simp [hasks], hclosed⟩
  | error status => rfl

/-- From an idle reader, requests written one behind the other are read back one by each call, in
order and as they were, and all that follows them is left to an idle reader. -/
theorem parseAll_written (ws : List Written) (cs : List (Call σ)) (p : Reader σ) (s : Bytes)
    (hs : p.stage = .idle) (hi : p.input.toList = ws.flatMap Written.bytes ++ s)
    (hc : cs.length = ws.length) :
    List.Forall₂ Parse.Serves (p.parseAll cs).1 ws ∧
      (p.parseAll cs).2.stage = .idle ∧ (p.parseAll cs).2.input.toList = s := by
  induction ws generalizing cs p with
  | nil =>
    have hnil : cs = [] := List.length_eq_zero_iff.1 hc
    subst hnil
    exact ⟨.nil, hs, hi⟩
  | cons w ws ih =>
    cases cs with
    | nil => cases hc
    | cons c cs =>
      rw [List.flatMap_cons, List.append_assoc] at hi
      obtain ⟨hserves, hidle, hleft⟩ := parse_of_written c hs hi
      have hlength : cs.length = ws.length := Nat.succ.inj hc
      obtain ⟨hall, hlast⟩ := ih cs (p.parse c).2 hidle hleft hlength
      exact ⟨.cons hserves hall, hlast⟩

def given (bytes : Bytes) (state : σ) : Reader σ :=
  { input := ByteQueue.empty.append bytes, state }

theorem toList_given (bytes : Bytes) (state : σ) : (given bytes state).input.toList = bytes := by
  rw [given, ByteQueue.toList_append ByteQueue.wellFormed_empty, ByteQueue.toList_empty,
    List.nil_append]

def submission : Written where
  blanks := [.lf]
  method := .post
  token := "post"
  uri := "/form"
  opening := .crlf
  lines := [{
    name := "content-length"
    value := "2"
    ending := .lf
    name_bare := by decide
    value_bare := by decide
    colon := by decide
    fits := ⟨by decide, by decide, by decide⟩ }]
  blank := .crlf
  body := [104, 105]
  token_method := by decide
  uri_word := by decide
  opening_length := by decide +kernel
  lines_length := by decide
  body_announced := ⟨"2", ⟨[], "content-length", [], rfl, by decide, by simp⟩,
    Text.denotes_toString 2, by decide⟩

/-- The same twice, with a third one begun behind them. -/
theorem parseAll_written_twice :
    let p : Reader (List Fd) :=
      given ([submission, submission].flatMap Written.bytes ++ Text.encode "POS") [7]
    let c : Call (List Fd) := ⟨Site.onePage.responder, .epoch, ⟨.empty, none⟩⟩
    List.Forall₂ Parse.Serves (p.parseAll [c, c]).1 [submission, submission] ∧
      (p.parseAll [c, c]).2.stage = .idle ∧
      (p.parseAll [c, c]).2.input.toList = Text.encode "POS" := by
  intro p c
  have hinput := toList_given ([submission, submission].flatMap Written.bytes ++ Text.encode "POS")
    ([7] : List Fd)
  exact parseAll_written [submission, submission] [c, c] p (Text.encode "POS") rfl hinput rfl

end Reader

end HttpOrigin
