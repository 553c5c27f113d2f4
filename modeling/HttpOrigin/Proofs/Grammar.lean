import HttpOrigin.Proofs.Reading
import HttpOrigin.Proofs.Tokens
import HttpOrigin.Proofs.Utf8

/-! What a request looks like on the wire, said without the reader. From any stage the reader gives
a request exactly where the bytes up to there complete one, and it takes no byte more. -/
namespace HttpOrigin

namespace Line

/-- The bytes of one line: a text of at most the longest length and without a line feed, and either
ending. Before a bare line feed the text does not end with a carriage return. -/
def Spells (text bytes : Bytes) : Prop :=
  Bytes.lf ∉ text ∧ text.length ≤ maxLine ∧
    (bytes = text ++ Bytes.crlf ∨ bytes = text ++ [Bytes.lf] ∧ text.getLast? ≠ some Bytes.cr)

def Says (P : String → Prop) (bytes : Bytes) : Prop :=
  ∃ text, Spells text bytes ∧ P (Text.decode text)

theorem scan_of_cut {body rest : Bytes} (hb : Bytes.lf ∉ body) :
    scan (body ++ Bytes.lf :: rest) =
      if (dropReturn body).length > maxLine then .tooLong else .line (dropReturn body) rest := by
  have hall : ∀ c ∈ body, decide (c ≠ Bytes.lf) = true := by
    intro c hc
    have hne : c ≠ Bytes.lf := by
      rintro rfl
      exact hb hc
    simpa using hne
  have htake : (body ++ Bytes.lf :: rest).takeWhile (· ≠ Bytes.lf) = body := by
    rw [List.takeWhile_append_of_pos hall]
    simp
  have hdrop : (body ++ Bytes.lf :: rest).dropWhile (· ≠ Bytes.lf) = Bytes.lf :: rest := by
    rw [List.dropWhile_append_of_pos hall]
    simp
  rw [scan, hdrop, htake]

theorem dropReturn_append_cr (text : Bytes) : dropReturn (text ++ [Bytes.cr]) = text := by
  simp [dropReturn]

theorem scan_of_spells {text bytes : Bytes} (h : Spells text bytes) (rest : Bytes) :
    scan (bytes ++ rest) = .line text rest := by
  obtain ⟨hfree, hlength, rfl | ⟨rfl, hlast⟩⟩ := h
  · have hbody : Bytes.lf ∉ text ++ [Bytes.cr] := by
      simpa [Bytes.lf, Bytes.cr] using hfree
    have hcut : text ++ Bytes.crlf ++ rest = text ++ [Bytes.cr] ++ Bytes.lf :: rest := by
      simp [Bytes.crlf]
    rw [hcut, scan_of_cut hbody, dropReturn_append_cr, if_neg (by omega)]
  · have hkeep : dropReturn text = text := if_neg hlast
    rw [List.append_assoc, List.singleton_append, scan_of_cut hfree, hkeep, if_neg (by omega)]

theorem spells_of_scan {input text rest : Bytes} (h : scan input = .line text rest) :
    ∃ bytes, Spells text bytes ∧ input = bytes ++ rest := by
  have hcut : input.takeWhile (· ≠ Bytes.lf) ++ input.dropWhile (· ≠ Bytes.lf) = input :=
    List.takeWhile_append_dropWhile
  have hbody : Bytes.lf ∉ input.takeWhile (· ≠ Bytes.lf) := by
    intro hmem
    simpa using List.mem_takeWhile_imp hmem
  have hhead := List.head?_dropWhile_not (· ≠ Bytes.lf) input
  generalize input.takeWhile (· ≠ Bytes.lf) = body at hcut hbody
  cases hdrop : input.dropWhile (· ≠ Bytes.lf) with
  | nil =>
    rw [scan, hdrop] at h
    dsimp only at h
    split at h <;> cases h
  | cons c after =>
    rw [hdrop] at hcut hhead
    have hc : c = Bytes.lf := by simpa using hhead
    subst hc
    rw [← hcut, scan_of_cut hbody] at h
    split at h
    · cases h
    · rename_i hfits
      obtain ⟨rfl, rfl⟩ := Scan.line.inj h
      by_cases hcr : body.getLast? = some Bytes.cr
      · obtain ⟨text, rfl⟩ := List.getLast?_eq_some_iff.1 hcr
        rw [dropReturn_append_cr] at hfits ⊢
        refine ⟨text ++ Bytes.crlf, ⟨?_, by omega, .inl rfl⟩, ?_⟩
        · intro hmem
          exact hbody (List.mem_append_left _ hmem)
        · rw [← hcut]
          simp [Bytes.crlf]
      · have hkeep : dropReturn body = body := if_neg hcr
        rw [hkeep] at hfits ⊢
        exact ⟨body ++ [Bytes.lf], ⟨hbody, by omega, .inr ⟨rfl, hcr⟩⟩, by simp [← hcut]⟩

end Line

namespace Request

def EndsWith (head : Request) (body : Bytes) (r : Request) : Prop :=
  match head.method with
  | .get | .head => body = [] ∧ r = head
  | .post => Announces head.fields body.length ∧
      r = { head with contentLength := some body.length, body }

def Continues (head : Request) (bytes : Bytes) (r : Request) : Prop :=
  ∃ (entries : List (String × String)) (lines : List Bytes) (blank body : Bytes),
    bytes = lines.flatten ++ (blank ++ body) ∧
    List.Forall₂ (fun e => Line.Says (Fields.NamedBy · e.1 e.2)) entries lines ∧
    head.fields.size + entries.length ≤ maxFields ∧ Line.Spells [] blank ∧
    EndsWith { head with fields := ⟨head.fields.entries ++ entries⟩ } body r

/-- The bytes of a request: any number of blank lines, a request line, at most as many field lines
as may be, a blank line, and a body if the method is POST. -/
def WrittenAs (r : Request) (bytes : Bytes) : Prop :=
  ∃ (blanks : List Bytes) (opening : Bytes) (lines : List Bytes) (blank : Bytes),
    bytes = blanks.flatten ++ (opening ++ (lines.flatten ++ (blank ++ r.body))) ∧
    (∀ b ∈ blanks, Line.Spells [] b) ∧
    Line.Says (OpenedBy · r.method r.uri) opening ∧
    List.Forall₂ (fun e => Line.Says (Fields.NamedBy · e.1 e.2)) r.fields.entries lines ∧
    r.fields.size ≤ maxFields ∧ Line.Spells [] blank ∧
    match r.method with
    | .get | .head => r.body = [] ∧ r.contentLength = none
    | .post => Announces r.fields r.body.length ∧ r.contentLength = some r.body.length

theorem writtenAs_iff {r : Request} {bytes : Bytes} :
    r.WrittenAs bytes ↔ ∃ (blanks : List Bytes) (opening rest : Bytes) (m : Method) (uri : String),
      bytes = blanks.flatten ++ (opening ++ rest) ∧ (∀ b ∈ blanks, Line.Spells [] b) ∧
      Line.Says (OpenedBy · m uri) opening ∧ Continues { method := m, uri } rest r := by
  constructor
  · rintro ⟨blanks, opening, lines, blank, rfl, hblanks, hopening, hlines, hsize, hblank, hbody⟩
    obtain ⟨m, uri, version, fields, contentLength, body⟩ := r
    refine ⟨blanks, opening, _, m, uri, rfl, hblanks, hopening,
      fields.entries, lines, blank, body, rfl, hlines, ?_, hblank, ?_⟩
    · simpa [Fields.size] using hsize
    · cases m with
      | get | head =>
        obtain ⟨rfl, rfl⟩ := hbody
        exact ⟨rfl, rfl⟩
      | post =>
        obtain ⟨hannounced, hlength⟩ := hbody
        dsimp only at hlength
        subst hlength
        exact ⟨hannounced, rfl⟩
  · rintro ⟨blanks, opening, rest, m, uri, rfl, hblanks, hopening, entries, lines, blank, body,
      rfl, hlines, hsize, hblank, hends⟩
    have hfits : entries.length ≤ maxFields := by simpa [Fields.size] using hsize
    cases m with
    | get | head =>
      obtain ⟨rfl, rfl⟩ := hends
      exact ⟨blanks, opening, lines, blank, rfl, hblanks, hopening, hlines, hfits, hblank, rfl, rfl⟩
    | post =>
      obtain ⟨hannounced, rfl⟩ := hends
      exact ⟨blanks, opening, lines, blank, rfl, hblanks, hopening, hlines, hfits, hblank,
        hannounced, rfl⟩

end Request

namespace Head

/-! ### What a line does to a head -/

/-- Everything the blank line after a head can do. -/
theorem finish_cases (r : Request) :
    (r.method ≠ .post ∧ finish r = .request r) ∨
    (∃ n, r.method = .post ∧ Request.Announces r.fields n ∧
      finish r = .body { r with contentLength := some n }) ∨
    ∃ e, finish r = .refused e := by
  cases hm : r.method with
  | get => exact .inl ⟨by simp, by simp [finish, hm]⟩
  | head => exact .inl ⟨by simp, by simp [finish, hm]⟩
  | post =>
    cases hn : r.bodyLength with
    | ok n =>
      have hannounced := Request.bodyLength_eq_ok_iff.1 hn
      exact .inr (.inl ⟨n, rfl, hannounced, by simp [finish, hm, hn]⟩)
    | error e => exact .inr (.inr ⟨e, by simp [finish, hm, hn]⟩)

theorem next_start_cases (line : String) :
    (line = "" ∧ next start line = .head start) ∨
    (∃ m uri, Request.OpenedBy line m uri ∧
      next start line = .head (.fields { method := m, uri })) ∨
    ∃ e, next start line = .refused e := by
  by_cases hempty : line = ""
  · subst hempty
    exact .inl ⟨rfl, rfl⟩
  · cases hr : Request.ofLine line with
    | ok r =>
      obtain ⟨m, uri, hopened, rfl⟩ := Request.ofLine_eq_ok_iff.1 hr
      refine .inr (.inl ⟨m, uri, hopened, ?_⟩)
      simp [next, hempty, hr]
    | error e =>
      refine .inr (.inr ⟨e, ?_⟩)
      simp [next, hempty, hr]

theorem next_fields_cases (r : Request) (line : String) :
    (line = "" ∧ next (fields r) line = finish r) ∨
    (∃ name value, Fields.NamedBy line name value ∧ r.fields.size < maxFields ∧
      next (fields r) line
        = .head (.fields { r with fields := ⟨r.fields.entries ++ [(name, value)]⟩ })) ∨
    ∃ e, next (fields r) line = .refused e := by
  by_cases hempty : line = ""
  · subst hempty
    exact .inl ⟨rfl, rfl⟩
  · cases hf : Fields.ofLine line with
    | ok e =>
      obtain ⟨name, value⟩ := e
      have hnamed := Fields.ofLine_eq_ok_iff.1 hf
      by_cases hroom : r.fields.size < maxFields
      · refine .inr (.inl ⟨name, value, hnamed, hroom, ?_⟩)
        simp [next, hempty, addField, hf, Fields.insert?, hroom]
      · refine .inr (.inr ⟨.badRequest .tooManyFields, ?_⟩)
        simp [next, hempty, addField, hf, Fields.insert?, hroom]
    | error e =>
      refine .inr (.inr ⟨e, ?_⟩)
      simp [next, hempty, addField, hf]

theorem next_start_of_opened {line uri : String} {m : Method} (h : Request.OpenedBy line m uri) :
    next start line = .head (.fields { method := m, uri }) := by
  have hline := Request.ofLine_eq_ok_iff.2 ⟨m, uri, h, rfl⟩
  have hne : line ≠ "" := by
    rintro rfl
    cases hline
  simp [next, hne, hline]

theorem next_fields_of_named {r : Request} {line name value : String}
    (h : Fields.NamedBy line name value) (hroom : r.fields.size < maxFields) :
    next (fields r) line
      = .head (.fields { r with fields := ⟨r.fields.entries ++ [(name, value)]⟩ }) := by
  have hline := Fields.ofLine_eq_ok_iff.2 h
  have hne : line ≠ "" := by
    rintro rfl
    cases hline
  simp [next, hne, addField, hline, Fields.insert?, hroom]

theorem finish_of_announced {r : Request} {n : Nat} (hm : r.method = .post)
    (hn : Request.Announces r.fields n) : finish r = .body { r with contentLength := some n } := by
  have hlength := Request.bodyLength_eq_ok_iff.2 hn
  simp [finish, hm, hlength]

end Head

namespace Stage

def Completes : Stage → Bytes → Request → Prop
  | head .start, bytes, r => r.WrittenAs bytes
  | head (.fields begun), bytes, r => begun.Continues bytes r
  | body begun, bytes, r =>
    bytes.length = begun.contentLength.getD 0 ∧ r = { begun with body := bytes }

theorem advance_of_spells {h : Head} {text bytes : Bytes} (hs : Line.Spells text bytes)
    (rest : Bytes) :
    (head h).advance (bytes ++ rest) = match h.next (Text.decode text) with
      | .head h' => advance (head h') rest
      | .body r => advance (body r) rest
      | .request r => .request r rest
      | .refused e => .refused e rest := by
  have hadvance := advance_head h (bytes ++ rest)
  rw [Line.scan_of_spells hs] at hadvance
  exact hadvance

theorem takeBody_eq_request_iff {begun r : Request} {input rest : Bytes} :
    takeBody begun input = .request r rest ↔
      ∃ bytes, (body begun).Completes bytes r ∧ input = bytes ++ rest := by
  rw [takeBody]
  constructor
  · intro h
    split at h
    · cases h
    · rename_i hlong
      cases h
      refine ⟨_, ⟨?_, rfl⟩, (List.take_append_drop _ input).symm⟩
      rw [List.length_take]
      omega
  · rintro ⟨bytes, ⟨hlength, rfl⟩, rfl⟩
    have hlong : ¬ (bytes ++ rest).length < begun.contentLength.getD 0 := by
      rw [List.length_append]
      omega
    rw [if_neg hlong, ← hlength, List.take_left, List.drop_left]

/-! One rule for each kind of line. -/

section
variable {begun r : Request} {l bytes : Bytes}

theorem Completes.blank (hl : Line.Spells [] l) (h : (head .start).Completes bytes r) :
    (head .start).Completes (l ++ bytes) r := by
  obtain ⟨blanks, opening, lines, blank, rfl, hblanks, hrest⟩ := h
  refine ⟨l :: blanks, opening, lines, blank, by simp, ?_, hrest⟩
  intro b hb
  obtain rfl | hb := List.mem_cons.1 hb
  · exact hl
  · exact hblanks b hb

theorem Completes.opening {m : Method} {uri : String}
    (hl : Line.Says (Request.OpenedBy · m uri) l)
    (h : (head (.fields { method := m, uri })).Completes bytes r) :
    (head .start).Completes (l ++ bytes) r :=
  Request.writtenAs_iff.2 ⟨[], l, bytes, m, uri, rfl, by simp, hl, h⟩

theorem Completes.field {name value : String} (hl : Line.Says (Fields.NamedBy · name value) l)
    (h : (head (.fields { begun with
      fields := ⟨begun.fields.entries ++ [(name, value)]⟩ })).Completes bytes r) :
    (head (.fields begun)).Completes (l ++ bytes) r := by
  obtain ⟨entries, lines, blank, body, rfl, hlines, hsize, hblank, hends⟩ := h
  refine ⟨(name, value) :: entries, l :: lines, blank, body, by simp, .cons hl hlines, ?_, hblank,
    ?_⟩
  · simp only [Fields.size, List.length_append, List.length_cons, List.length_nil] at *
    omega
  · simpa using hends

theorem Completes.announced {n : Nat} (hl : Line.Spells [] l) (hm : begun.method = .post)
    (hn : Request.Announces begun.fields n) (hroom : begun.fields.size ≤ maxFields)
    (h : (body { begun with contentLength := some n }).Completes bytes r) :
    (head (.fields begun)).Completes (l ++ bytes) r := by
  obtain ⟨hlength, rfl⟩ := h
  have hlength : bytes.length = n := hlength
  subst hlength
  refine ⟨[], [], l, bytes, rfl, .nil, hroom, hl, ?_⟩
  rw [List.append_nil, Request.EndsWith, hm]
  exact ⟨hn, rfl⟩

theorem Completes.bodiless (hl : Line.Spells [] l) (hm : begun.method ≠ .post)
    (hroom : begun.fields.size ≤ maxFields) : (head (.fields begun)).Completes l begun := by
  refine ⟨[], [], l, [], by simp, .nil, hroom, hl, ?_⟩
  rw [List.append_nil, Request.EndsWith]
  cases hmethod : begun.method with
  | get => exact ⟨rfl, by rw [← hmethod]⟩
  | head => exact ⟨rfl, by rw [← hmethod]⟩
  | post => exact absurd hmethod hm

end

def Roomy : Stage → Prop
  | head .start => True
  | head (.fields r) | body r => r.fields.size ≤ maxFields

/-- What is read completes the request: nothing is skipped and no byte is taken twice. -/
theorem completes_of_advance {s : Stage} {input rest : Bytes} {r : Request} (hs : s.Roomy)
    (h : s.advance input = .request r rest) :
    ∃ bytes, s.Completes bytes r ∧ input = bytes ++ rest := by
  induction hn : input.length using Nat.strongRecOn generalizing s input with
  | ind n ih =>
    subst hn
    cases s with
    | body begun => exact takeBody_eq_request_iff.1 (advance_body begun input ▸ h)
    | head hd =>
      rw [advance_head] at h
      cases hscan : Line.scan input with
      | incomplete | tooLong =>
        rw [hscan] at h
        cases h
      | line text rest' =>
        have hless := Line.length_rest_lt hscan
        obtain ⟨l, hl, rfl⟩ := Line.spells_of_scan hscan
        rw [hscan] at h
        dsimp only at h
        cases hd with
        | start =>
          obtain ⟨hempty, hnext⟩ | ⟨m, uri, hopened, hnext⟩ | ⟨e, hnext⟩ :=
            Head.next_start_cases (Text.decode text) <;> rw [hnext] at h
          · have hroom : Roomy (head .start) := trivial
            obtain ⟨bytes, hbytes, rfl⟩ := ih _ hless hroom h rfl
            rw [Text.decode_eq_empty_iff.1 hempty] at hl
            exact ⟨l ++ bytes, hbytes.blank hl, by rw [List.append_assoc]⟩
          · have hroom : Roomy (head (.fields { method := m, uri })) := Nat.zero_le maxFields
            obtain ⟨bytes, hbytes, rfl⟩ := ih _ hless hroom h rfl
            exact ⟨l ++ bytes, hbytes.opening ⟨text, hl, hopened⟩, by rw [List.append_assoc]⟩
          · cases h
        | fields begun =>
          obtain ⟨hempty, hnext⟩ | ⟨name, value, hnamed, hroom, hnext⟩ | ⟨e, hnext⟩ :=
            Head.next_fields_cases begun (Text.decode text) <;> rw [hnext] at h
          · rw [Text.decode_eq_empty_iff.1 hempty] at hl
            obtain ⟨hm, hf⟩ | ⟨n, hm, hannounced, hf⟩ | ⟨e, hf⟩ := Head.finish_cases begun <;>
              rw [hf] at h
            · cases h
              exact ⟨l, .bodiless hl hm hs, rfl⟩
            · have hroom : Roomy (body { begun with contentLength := some n }) := hs
              obtain ⟨bytes, hbytes, rfl⟩ := ih _ hless hroom h rfl
              exact ⟨l ++ bytes, hbytes.announced hl hm hannounced hs, by rw [List.append_assoc]⟩
            · cases h
          · have hroom' : Roomy (head (.fields
                { begun with fields := ⟨begun.fields.entries ++ [(name, value)]⟩ })) := by
              simp only [Roomy, Fields.size, List.length_append, List.length_singleton] at *
              omega
            obtain ⟨bytes, hbytes, rfl⟩ := ih _ hless hroom' h rfl
            exact ⟨l ++ bytes, hbytes.field ⟨text, hl, hnamed⟩, by rw [List.append_assoc]⟩
          · cases h

/-! The other way round: whatever stands behind a complete request, it is read as far as it goes. -/

section
variable {begun r : Request} {bytes : Bytes} (rest : Bytes)

theorem advance_of_blanks {blanks : List Bytes} (h : ∀ b ∈ blanks, Line.Spells [] b) :
    (head .start).advance (blanks.flatten ++ rest) = (head .start).advance rest := by
  induction blanks with
  | nil => rfl
  | cons b blanks ih =>
    have hb : Line.Spells [] b := h b (by simp)
    have hblanks : ∀ b ∈ blanks, Line.Spells [] b := by
      intro b' hb'
      exact h b' (by simp [hb'])
    have hnext : Head.next .start (Text.decode []) = .head .start := by
      rw [Text.decode_eq_empty_iff.2 rfl]
      rfl
    rw [List.flatten_cons, List.append_assoc, advance_of_spells hb, hnext]
    exact ih hblanks

theorem advance_of_entries {entries : List (String × String)} {lines : List Bytes}
    (h : List.Forall₂ (fun e => Line.Says (Fields.NamedBy · e.1 e.2)) entries lines)
    (hroom : begun.fields.size + entries.length ≤ maxFields) :
    (head (.fields begun)).advance (lines.flatten ++ rest) = (head (.fields
      { begun with fields := ⟨begun.fields.entries ++ entries⟩ })).advance rest := by
  induction h generalizing begun with
  | nil => simp
  | @cons e l entries lines hl _ ih =>
    obtain ⟨text, hspells, hnamed⟩ := hl
    rw [List.length_cons] at hroom
    have hnext := Head.next_fields_of_named (r := begun) hnamed (by omega)
    rw [List.flatten_cons, List.append_assoc, advance_of_spells hspells, hnext]
    dsimp only
    rw [ih ?_]
    · simp
    · simp only [Fields.size, List.length_append, List.length_singleton] at *
      omega

theorem advance_of_ends {blank body : Bytes} (hb : Line.Spells [] blank)
    (h : begun.EndsWith body r) :
    (head (.fields begun)).advance (blank ++ (body ++ rest)) = .request r rest := by
  have hnext : Head.next (.fields begun) (Text.decode []) = Head.finish begun := by
    rw [Text.decode_eq_empty_iff.2 rfl]
    rfl
  rw [advance_of_spells hb, hnext]
  rw [Request.EndsWith] at h
  cases hm : begun.method with
  | get | head =>
    rw [hm] at h
    obtain ⟨rfl, rfl⟩ := h
    simp [Head.finish, hm]
  | post =>
    rw [hm] at h
    obtain ⟨hn, rfl⟩ := h
    rw [Head.finish_of_announced hm hn]
    dsimp only
    rw [advance_body, takeBody_eq_request_iff]
    exact ⟨body, ⟨rfl, by rw [← hm]⟩, rfl⟩

theorem advance_of_completes {s : Stage} (h : s.Completes bytes r) :
    s.advance (bytes ++ rest) = .request r rest := by
  have hfields : ∀ {begun : Request} {bytes : Bytes}, begun.Continues bytes r →
      (head (.fields begun)).advance (bytes ++ rest) = .request r rest := by
    rintro begun _ ⟨entries, lines, blank, body, rfl, hlines, hroom, hblank, hends⟩
    rw [List.append_assoc, List.append_assoc, advance_of_entries _ hlines hroom]
    exact advance_of_ends rest hblank hends
  cases s with
  | body begun =>
    rw [advance_body, takeBody_eq_request_iff]
    exact ⟨bytes, h, rfl⟩
  | head hd =>
    cases hd with
    | start =>
      obtain ⟨blanks, opening, rest', m, uri, rfl, hblanks, ⟨text, hspells, hopened⟩, hrest⟩ :=
        Request.writtenAs_iff.1 h
      rw [List.append_assoc, advance_of_blanks _ hblanks, List.append_assoc,
        advance_of_spells hspells, Head.next_start_of_opened hopened]
      exact hfields hrest
    | fields begun => exact hfields h

end

/-- An idle reader gives a request exactly where its bytes stand at the front, and leaves all that
is behind them. -/
theorem advance_idle_eq_request_iff {input rest : Bytes} {r : Request} :
    idle.advance input = .request r rest ↔ ∃ bytes, r.WrittenAs bytes ∧ input = bytes ++ rest := by
  constructor
  · intro h
    have hroom : Roomy idle := trivial
    exact completes_of_advance hroom h
  · rintro ⟨bytes, h, rfl⟩
    exact advance_of_completes rest h

end Stage

end HttpOrigin
