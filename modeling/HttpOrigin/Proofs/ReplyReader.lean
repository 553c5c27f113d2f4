import HttpOrigin.Proofs.Tokens
import HttpOrigin.Proofs.Utf8
import HttpOrigin.Site.MediaType
import HttpOrigin.Wire.Answer

/-! Answers as a peer reads them: a head up to the first blank line, and behind it as many bytes as
the one length in the head says. A head that was written is read back, whatever comes after it. -/
namespace HttpOrigin

namespace Bytes

def cut? (mark : Bytes) : Bytes → Option (Bytes × Bytes)
  | [] => if mark = [] then some ([], []) else none
  | b :: bs =>
    if mark <+: b :: bs then some ([], (b :: bs).drop mark.length)
    else (cut? mark bs).map fun p => (b :: p.1, p.2)

theorem length_rest_of_cut? {mark bytes front rest : Bytes} (hm : mark ≠ [])
    (h : cut? mark bytes = some (front, rest)) : rest.length < bytes.length := by
  induction bytes generalizing front with
  | nil =>
    rw [cut?, if_neg hm] at h
    cases h
  | cons b bs ih =>
    rw [cut?] at h
    split at h
    · have hpos := List.length_pos_of_ne_nil hm
      cases h
      rw [List.length_drop, List.length_cons]
      omega
    · obtain ⟨p, hp, heq⟩ := Option.map_eq_some_iff.1 h
      cases heq
      exact Nat.lt_succ_of_lt (ih hp)

def blank : Bytes := crlf ++ crlf

def lines (bytes : Bytes) : List Bytes :=
  match _h : cut? crlf bytes with
  | none => [bytes]
  | some (line, rest) => line :: lines rest
termination_by bytes.length
decreasing_by exact length_rest_of_cut? (by decide) _h

end Bytes

structure Reply where
  code : Nat
  fields : Fields
  announced : Nat
  body : Bytes
  deriving DecidableEq, Repr

namespace Reply

def code? (line : Bytes) : Option Nat :=
  match Text.words (Text.decode line) with
  | _ :: code :: _ => Text.decimal? code
  | _ => none

def field? (line : Bytes) : Option (String × String) := (Fields.ofLine (Text.decode line)).toOption

def head? (head : Bytes) : Option (Nat × Fields) :=
  match Bytes.lines head with
  | first :: rest => do
    let code ← code? first
    let entries ← rest.mapM field?
    return (code, ⟨entries⟩)
  | [] => none

def announced? (f : Fields) : Option Nat :=
  match f.getAll "Content-Length" with
  | [value] => Text.decimal? value
  | _ => none

/-- Reads one answer, and leaves what stands behind it. Nothing follows the head of an answer 200
to HEAD. -/
def read? (toHead : Bool) (stream : Bytes) : Option (Reply × Bytes) := do
  let (head, rest) ← Bytes.cut? Bytes.blank stream
  let (code, fields) ← head? head
  let announced ← announced? fields
  let size := if toHead ∧ code = 200 then 0 else announced
  if size ≤ rest.length then some (⟨code, fields, announced, rest.take size⟩, rest.drop size)
  else none

def readAll? : List Bool → Bytes → Option (List Reply)
  | [], stream => if stream = [] then some [] else none
  | toHead :: requests, stream => do
    let (reply, rest) ← read? toHead stream
    let replies ← readAll? requests rest
    return reply :: replies

end Reply

/-! ### Cutting -/

namespace Bytes
variable {mark front line : Bytes} {lines' : List Bytes}

theorem cut?_mark (hm : mark ≠ []) (rest : Bytes) : cut? mark (mark ++ rest) = some ([], rest) := by
  cases mark with
  | nil => exact absurd rfl hm
  | cons b mark =>
    rw [List.cons_append, cut?, if_pos ⟨rest, rfl⟩]
    simp

theorem cut?_cons_of_ne {b c : UInt8} (hm : mark.head? = some c) (hb : b ≠ c) (bytes : Bytes) :
    cut? mark (b :: bytes) = (cut? mark bytes).map fun p => (b :: p.1, p.2) := by
  obtain ⟨mark', rfl⟩ := List.head?_eq_some_iff.1 hm
  refine if_neg ?_
  rw [List.cons_prefix_cons]
  intro h
  exact hb h.1.symm

/-- Nothing is cut before the first byte of the mark shows up. -/
theorem cut?_append_of_free {c : UInt8} (hm : mark.head? = some c) (hf : c ∉ front)
    (bytes : Bytes) :
    cut? mark (front ++ bytes) = (cut? mark bytes).map fun p => (front ++ p.1, p.2) := by
  induction front with
  | nil => simp
  | cons b front ih =>
    have hb : b ≠ c := (List.ne_of_not_mem_cons hf).symm
    have hrest : c ∉ front := List.not_mem_of_not_mem_cons hf
    rw [List.cons_append, cut?_cons_of_ne hm hb, ih hrest, Option.map_map]
    rfl

structure IsLine (line : Bytes) : Prop where
  ne_nil : line ≠ []
  cr : cr ∉ line

def ended (lines : List Bytes) : Bytes := (lines.map (· ++ crlf)).flatten

theorem cut?_crlf (hl : IsLine line) (rest : Bytes) :
    cut? crlf (line ++ (crlf ++ rest)) = some (line, rest) := by
  rw [cut?_append_of_free rfl hl.cr, cut?_mark (by decide), Option.map_some, List.append_nil]

theorem lines_of_isLine (hl : IsLine line) : lines line = [line] := by
  have hnone : cut? crlf line = none := by
    have hcut : cut? crlf (line ++ []) = _ := cut?_append_of_free rfl hl.cr []
    rwa [List.append_nil] at hcut
  rw [lines]
  split
  · rfl
  · rename_i h
    rw [hnone] at h
    cases h

theorem lines_append_crlf (hl : IsLine line) (rest : Bytes) :
    lines (line ++ (crlf ++ rest)) = line :: lines rest := by
  have hcut := cut?_crlf hl rest
  rw [lines]
  split
  · rename_i h
    rw [hcut] at h
    cases h
  · rename_i h
    rw [hcut] at h
    cases h
    rfl

/-- The ending of a line is none of the head when another line follows. -/
theorem cut?_blank_crlf (hl : IsLine line) (bytes : Bytes) :
    cut? blank (crlf ++ (line ++ bytes))
      = (cut? blank (line ++ bytes)).map fun p => (crlf ++ p.1, p.2) := by
  obtain ⟨b, bs, rfl⟩ := List.exists_cons_of_ne_nil hl.ne_nil
  have hb : cr ≠ b := List.ne_of_not_mem_cons hl.cr
  have hnot : ¬ blank <+: cr :: lf :: (b :: bs ++ bytes) := by
    simp [blank, crlf, List.cons_prefix_cons, hb]
  change cut? blank (cr :: lf :: (b :: bs ++ bytes)) = _
  rw [cut?, if_neg hnot, cut?_cons_of_ne rfl (by decide), Option.map_map]
  rfl

/-- The first blank line is the one behind all lines of a head. -/
theorem cut?_head (hl : ∀ l ∈ line :: lines', IsLine l) (rest : Bytes) :
    ∃ head, cut? blank (ended (line :: lines') ++ (crlf ++ rest)) = some (head, rest) ∧
      lines head = line :: lines' := by
  induction lines' generalizing line with
  | nil =>
    have hline := hl line (List.mem_singleton.2 rfl)
    have hmark : cut? blank (crlf ++ (crlf ++ rest)) = some ([], rest) :=
      cut?_mark (by decide) rest
    have hall : ended [line] ++ (crlf ++ rest) = line ++ (crlf ++ (crlf ++ rest)) := by
      simp [ended]
    refine ⟨line, ?_, lines_of_isLine hline⟩
    rw [hall, cut?_append_of_free rfl hline.cr, hmark, Option.map_some, List.append_nil]
  | cons next more ih =>
    have hline := hl line (List.mem_cons_self ..)
    have hnext := hl next (List.mem_cons_of_mem _ (List.mem_cons_self ..))
    obtain ⟨head, hcut, hlines⟩ := ih fun l hmem => hl l (List.mem_cons_of_mem _ hmem)
    have hmore : ended (next :: more) ++ (crlf ++ rest)
        = next ++ (crlf ++ ended more ++ (crlf ++ rest)) := by
      simp [ended]
    have hall : ended (line :: next :: more) ++ (crlf ++ rest)
        = line ++ (crlf ++ (next ++ (crlf ++ ended more ++ (crlf ++ rest)))) := by
      simp [ended]
    rw [hmore] at hcut
    refine ⟨line ++ (crlf ++ head), ?_, by rw [lines_append_crlf hline, hlines]⟩
    rw [hall, cut?_append_of_free rfl hline.cr, cut?_blank_crlf hnext, hcut]
    rfl

end Bytes

/-! ### Texts in a head -/

namespace Text

theorem isLine_encode {text : String} (hne : text.toList ≠ []) (hcr : '\r' ∉ text.toList) :
    Bytes.IsLine (encode text) where
  ne_nil hnil := by
    have hempty := decode_eq_empty_iff.2 hnil
    rw [decode_encode] at hempty
    rw [hempty] at hne
    exact hne rfl
  cr hmem := hcr (mem_of_mem_encode (by decide) (by decide) hmem)

theorem not_mem_append {c : Char} {s t : String} :
    c ∉ (s ++ t).toList ↔ c ∉ s.toList ∧ c ∉ t.toList := by
  rw [String.toList_append, List.mem_append, not_or]

theorem toString_ne_nil (n : Nat) : (toString n).toList ≠ [] := by
  obtain ⟨digits, hne, -, hcs, -⟩ := denotes_toString n
  rw [hcs]
  exact mt List.map_eq_nil_iff.1 hne

theorem forall_mem_toString {P : Char → Prop} (hP : ∀ d < 10, P (Nat.digitChar d)) (n : Nat) :
    ∀ c ∈ (toString n).toList, P c := by
  obtain ⟨digits, -, hdigits, hcs, -⟩ := denotes_toString n
  rw [hcs]
  intro c hc
  obtain ⟨d, hd, rfl⟩ := List.mem_map.1 hc
  exact hP d (hdigits d hd)

theorem cr_not_mem_toString (n : Nat) : '\r' ∉ (toString n).toList := by
  intro hmem
  exact forall_mem_toString (P := (· ≠ '\r')) (by decide) n '\r' hmem rfl

theorem isWord_toString (n : Nat) : IsWord (toString n).toList where
  ne_nil := toString_ne_nil n
  solid := forall_mem_toString (by decide) n

theorem bare_toString (n : Nat) : Fields.Bare (toString n).toList where
  ne_nil := toString_ne_nil n
  head c hc := forall_mem_toString (P := (Fields.isPadding · = false)) (by decide) n c
    (List.mem_of_head? hc)
  last c hc := forall_mem_toString (P := (Fields.isPadding · = false)) (by decide) n c
    (List.mem_of_getLast? hc)

end Text

theorem Timestamp.bare (t : Timestamp) : Fields.Bare t.text.toList := by
  refine Fields.bare_iff.2 ⟨fun hnil => ?_, t.head, t.last⟩
  have hlength := t.length
  rw [← String.length_toList, hnil] at hlength
  cases hlength

namespace MediaType

theorem ofName_mem (name : String) : ofName name ∈ unknown :: table.map (·.2) := by
  have hof (extension : String) : ofExtension extension ∈ unknown :: table.map (·.2) := by
    rw [ofExtension]
    split
    · rename_i e he
      exact List.mem_cons_of_mem _ (List.mem_map_of_mem (List.mem_of_find?_eq_some he))
    · exact List.mem_cons_self ..
  rw [ofName]
  split
  · exact hof _
  · exact List.mem_cons_self ..

end MediaType

/-! ### Heads that were written -/

namespace Answer

structure Plain (f : String × String) : Prop where
  name : Fields.Bare f.1.toList
  value : Fields.Bare f.2.toList
  colon : ':' ∉ f.1.toList
  name_cr : '\r' ∉ f.1.toList
  value_cr : '\r' ∉ f.2.toList

def head (s : Status) (fields : List (String × String)) : List Bytes :=
  statusLine s :: (fields.map fun f => field f.1 f.2) ++ [headEnd]

def texts (s : Status) (fields : List (String × String)) : List String :=
  (Version.http11.text ++ " " ++ s.text) :: fields.map fun f => f.1 ++ ": " ++ f.2

theorem flatten_head (s : Status) (fields : List (String × String)) :
    (head s fields).flatten = Bytes.ended ((texts s fields).map Text.encode) ++ Bytes.crlf := by
  simp [head, texts, Bytes.ended, statusLine, field, line, headEnd, Function.comp_def]

theorem cr_not_mem_reason (s : Status) : '\r' ∉ s.reason.toList := by
  rw [Status.reason]
  split <;> decide

theorem isLine_status (s : Status) :
    Bytes.IsLine (Text.encode (Version.http11.text ++ " " ++ s.text)) := by
  apply Text.isLine_encode
  · simp
  · simp only [Status.text, Text.not_mem_append, Text.cr_not_mem_toString, cr_not_mem_reason]
    decide

theorem code?_status (s : Status) :
    Reply.code? (Text.encode (Version.http11.text ++ " " ++ s.text)) = some s.code := by
  have hspace : Text.Blank [' '] := by
    simp [Text.Blank]
    decide
  have hversion : Text.IsWord Version.http11.text.toList := by decide
  have hchars : (Version.http11.text ++ " " ++ s.text).toList = Version.http11.text.toList ++
      ([' '] ++ ((toString s.code).toList ++ ([' '] ++ s.reason.toList))) := by
    simp [Status.text]
  have hwords := Text.wordChars_word_append hversion (List.cons_ne_nil _ _) hspace
    ((toString s.code).toList ++ ([' '] ++ s.reason.toList))
  rw [Text.wordChars_word_append (Text.isWord_toString s.code) (List.cons_ne_nil _ _) hspace,
    ← hchars] at hwords
  have hcode : Text.decimal? (toString s.code) = some s.code :=
    Text.decimal?_eq_some_iff.2 (Text.denotes_toString s.code)
  rw [Reply.code?, Text.decode_encode, Request.words_eq, hwords]
  simp only [List.map_cons, String.ofList_toList, hcode]

theorem Plain.isLine {f : String × String} (hf : Plain f) :
    Bytes.IsLine (Text.encode (f.1 ++ ": " ++ f.2)) := by
  apply Text.isLine_encode
  · simp
  · simp [hf.name_cr, hf.value_cr]

theorem Plain.field? {f : String × String} (hf : Plain f) :
    Reply.field? (Text.encode (f.1 ++ ": " ++ f.2)) = some f := by
  have hline := Fields.ofLine_eq_ok_iff.2 (Fields.namedBy_of_bare hf.name hf.value hf.colon)
  rw [Reply.field?, Text.decode_encode, hline]
  rfl

theorem mapM_field? {fields : List (String × String)} (hf : ∀ f ∈ fields, Plain f) :
    ((fields.map fun f => f.1 ++ ": " ++ f.2).map Text.encode).mapM Reply.field?
      = some fields := by
  induction fields with
  | nil => rfl
  | cons f fields ih =>
    have hfirst := (hf f (List.mem_cons_self ..)).field?
    have hrest := ih fun g hg => hf g (List.mem_cons_of_mem f hg)
    simp only [List.map_cons, List.mapM_cons, hfirst, hrest]
    rfl

theorem isLine_texts (s : Status) {fields : List (String × String)} (hf : ∀ f ∈ fields, Plain f) :
    ∀ l ∈ (texts s fields).map Text.encode, Bytes.IsLine l := by
  intro l hl
  obtain ⟨text, htext, rfl⟩ := List.mem_map.1 hl
  obtain rfl | htext := List.mem_cons.1 htext
  · exact isLine_status s
  · obtain ⟨f, hmem, rfl⟩ := List.mem_map.1 htext
    exact (hf f hmem).isLine

/-- A head is read back, and what stands behind it is left. -/
theorem cut?_flatten_head (s : Status) {fields : List (String × String)}
    (hf : ∀ f ∈ fields, Plain f) (rest : Bytes) :
    ∃ bytes, Bytes.cut? Bytes.blank ((head s fields).flatten ++ rest) = some (bytes, rest) ∧
      Reply.head? bytes = some (s.code, ⟨fields⟩) := by
  obtain ⟨bytes, hcut, hlines⟩ := Bytes.cut?_head (isLine_texts s hf) rest
  refine ⟨bytes, ?_, ?_⟩
  · rw [flatten_head, List.append_assoc]
    exact hcut
  · rw [Reply.head?, hlines]
    simp only [code?_status, mapM_field? hf]
    rfl

/-- An answer is read back: its head, and a body of the length that the head announces, or none
where none is looked for. -/
theorem read?_append (toHead : Bool) (s : Status) {fields : List (String × String)}
    (hf : ∀ f ∈ fields, Plain f) {n : Nat} (hn : Reply.announced? ⟨fields⟩ = some n) {body : Bytes}
    (hb : body.length = if toHead ∧ s.code = 200 then 0 else n) (rest : Bytes) :
    Reply.read? toHead ((head s fields).flatten ++ body ++ rest)
      = some (⟨s.code, ⟨fields⟩, n, body⟩, rest) := by
  obtain ⟨bytes, hcut, hhead⟩ := cut?_flatten_head s hf (body ++ rest)
  have hfits : (if toHead ∧ s.code = 200 then 0 else n) ≤ (body ++ rest).length := by
    rw [← hb, List.length_append]
    exact Nat.le_add_right _ _
  rw [Reply.read?, List.append_assoc, hcut]
  simp only [Option.bind_eq_bind, Option.bind_some, hhead, hn]
  rw [if_pos hfits, ← hb, List.take_left, List.drop_left]

end Answer

/-! ### Answers to errors -/

def Reply.connection (reply : Reply) : List String := reply.fields.getAll "Connection"

/-- One length is announced. -/
theorem Reply.announced?_of_getAll {f : Fields} {n : Nat}
    (h : f.getAll "Content-Length" = [toString n]) : announced? f = some n := by
  rw [announced?, h]
  exact Text.decimal?_eq_some_iff.2 (Text.denotes_toString n)

namespace Answer

theorem plain_of_bare {name value : String}
    (hn : Fields.Bare name.toList ∧ ':' ∉ name.toList ∧ '\r' ∉ name.toList)
    (hv : Fields.Bare value.toList) (hcr : '\r' ∉ value.toList) : Plain (name, value) :=
  ⟨hn.1, hv, hn.2.1, hn.2.2, hcr⟩

theorem plain_contentLength (n : Nat) : Plain ("Content-Length", toString n) :=
  plain_of_bare (by decide) (Text.bare_toString n) (Text.cr_not_mem_toString n)

theorem plain_date {name : String}
    (hn : Fields.Bare name.toList ∧ ':' ∉ name.toList ∧ '\r' ∉ name.toList) (t : Timestamp) :
    Plain (name, t.text) :=
  plain_of_bare hn t.bare t.cr

theorem plain_server : Plain ("Server", serverName) :=
  plain_of_bare (by decide) (by decide) (by decide)

def errorFields (now : Timestamp) (s : Status) : List (String × String) :=
  [("Content-Type", "text/html"),
    ("Content-Length", toString (errorPage s).length),
    ("Date", now.text),
    ("Server", serverName),
    ("Connection", "close")]

theorem error_eq (now : Timestamp) (s : Status) :
    error now s = head s (errorFields now s) ++ [errorPage s] := rfl

theorem plain_errorFields (now : Timestamp) (s : Status) :
    ∀ f ∈ errorFields now s, Plain f := by
  simp only [errorFields, List.forall_mem_cons]
  refine ⟨?_, plain_contentLength _, plain_date (by decide) now, plain_server, ?_, by simp⟩
  all_goals exact plain_of_bare (by decide) (by decide) (by decide)

theorem getAll_errorFields (now : Timestamp) (s : Status) :
    Fields.getAll ⟨errorFields now s⟩ "Content-Length" = [toString (errorPage s).length] ∧
      Fields.getAll ⟨errorFields now s⟩ "Connection" = ["close"] := by
  simp +decide only [errorFields, Fields.getAll_cons, if_true, if_false]
  exact ⟨rfl, trivial⟩

end Answer

namespace Reply

/-- The reply is the page of an error, and the connection ends with it. -/
structure IsError (reply : Reply) (status : Status) : Prop where
  code : reply.code = status.code
  announced : reply.announced = (Answer.errorPage status).length
  body : reply.body = Answer.errorPage status
  connection : reply.connection = ["close"]

theorem isError_page (now : Timestamp) (status : Status) :
    IsError ⟨status.code, ⟨Answer.errorFields now status⟩, (Answer.errorPage status).length,
      Answer.errorPage status⟩ status := by
  generalize hpage : Answer.errorPage status = page
  exact ⟨rfl, by rw [hpage], hpage.symm, (Answer.getAll_errorFields now status).2⟩

theorem read?_error (now : Timestamp) {status : Status} {toHead : Bool}
    (h : ¬ (toHead = true ∧ status.code = 200)) :
    ∃ reply : Reply, reply.IsError status ∧ ∀ rest,
      read? toHead ((Answer.error now status).flatten ++ rest) = some (reply, rest) := by
  have hlength := (Answer.getAll_errorFields now status).1
  refine ⟨_, isError_page now status, fun rest => ?_⟩
  rw [Answer.error_eq, List.flatten_append, List.flatten_singleton]
  exact Answer.read?_append toHead status (Answer.plain_errorFields now status)
    (announced?_of_getAll hlength) (if_neg h).symm rest

/-- The bytes are one answer to an error with this status, whatever stands behind them. -/
def IsErrorAnswer (bytes : Bytes) (status : Status) : Prop :=
  ∃ reply : Reply, reply.IsError status ∧
    ∀ rest, read? false (bytes ++ rest) = some (reply, rest)

theorem isErrorAnswer_error (now : Timestamp) (status : Status) :
    IsErrorAnswer (Answer.error now status).flatten status :=
  read?_error now nofun

end Reply

end HttpOrigin
