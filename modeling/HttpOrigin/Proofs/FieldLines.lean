import HttpOrigin.Proofs.Refusals

/-! Field lines. A line is cut at its first colon and the padding around both sides is left out, and
no position in it is ever out of range. Fields that were read are read again from their text. -/
namespace HttpOrigin

namespace Text

/-! ### Positions -/

def byteLength (cs : List Char) : Nat := (cs.map Char.utf8Size).sum

theorem byteLength_append (a b : List Char) :
    byteLength (a ++ b) = byteLength a + byteLength b := by
  simp [byteLength]

theorem byteLength_eq_zero_iff {cs : List Char} : byteLength cs = 0 ↔ cs = [] := by
  cases cs with
  | nil => simp [byteLength]
  | cons c cs =>
    have hpos := c.utf8Size_pos
    simp only [byteLength, List.map_cons, List.sum_cons, reduceCtorEq, iff_false]
    omega

theorem utf8ByteSize_eq (s : String) : s.utf8ByteSize = byteLength s.toList := by
  obtain ⟨cs, rfl⟩ : ∃ cs, s = String.ofList cs := ⟨s.toList, String.ofList_toList.symm⟩
  rw [String.toList_ofList]
  induction cs with
  | nil => rfl
  | cons c cs ih =>
    have hcons : String.ofList (c :: cs) = String.singleton c ++ String.ofList cs := by
      apply String.toList_inj.1
      simp
    rw [hcons, String.utf8ByteSize_append, ih]
    simp [byteLength]

def positionOf? (c : Char) : List Char → Option Nat
  | [] => none
  | d :: cs => if d = c then some 0 else (positionOf? c cs).map (d.utf8Size + ·)

/-- Cuts at a position in bytes, which must lie neither inside of a character nor beyond the end. -/
def cutAt? : Nat → List Char → Option (List Char × List Char)
  | 0, cs => some ([], cs)
  | _ + 1, [] => none
  | n + 1, c :: cs =>
    if c.utf8Size ≤ n + 1 then (cutAt? (n + 1 - c.utf8Size) cs).map fun p => (c :: p.1, p.2)
    else none

theorem positionOf?_of_not_mem {c : Char} {cs : List Char} (h : c ∉ cs) :
    positionOf? c cs = none := by
  induction cs with
  | nil => rfl
  | cons d cs ih =>
    have hd : d ≠ c := (List.ne_of_not_mem_cons h).symm
    rw [positionOf?, if_neg hd, ih (List.not_mem_of_not_mem_cons h)]
    rfl

theorem positionOf?_append {c : Char} {front : List Char} (h : c ∉ front) (after : List Char) :
    positionOf? c (front ++ c :: after) = some (byteLength front) := by
  induction front with
  | nil => exact if_pos rfl
  | cons d front ih =>
    have hd : d ≠ c := (List.ne_of_not_mem_cons h).symm
    rw [List.cons_append, positionOf?, if_neg hd, ih (List.not_mem_of_not_mem_cons h)]
    simp [byteLength]

theorem cutAt?_append (front after : List Char) :
    cutAt? (byteLength front) (front ++ after) = some (front, after) := by
  induction front with
  | nil => rw [byteLength, List.map_nil, List.sum_nil, List.nil_append, cutAt?]
  | cons c front ih =>
    have hlength : byteLength (c :: front) = c.utf8Size + byteLength front := by simp [byteLength]
    have hpos := c.utf8Size_pos
    obtain ⟨n, hn⟩ : ∃ n, byteLength (c :: front) = n + 1 := by
      rw [hlength]
      exact ⟨c.utf8Size + byteLength front - 1, by omega⟩
    have hrest : n + 1 - c.utf8Size = byteLength front := by omega
    rw [hn, List.cons_append, cutAt?, if_pos (by omega), hrest, ih]
    rfl

/-! ### Lines of a text -/

def endedLines (s : String) : List String :=
  ((pieces (· == '\n') s.toList).dropLast).map String.ofList

def behindLines (s : String) : String :=
  String.ofList ((pieces (· == '\n') s.toList).getLastD [])

theorem pieces_join {lines : List String} (h : ∀ line ∈ lines, '\n' ∉ line.toList) :
    pieces (· == '\n') (String.join (lines.map (· ++ "\n"))).toList
      = lines.map String.toList ++ [[]] := by
  induction lines with
  | nil => simp [pieces, String.join]
  | cons line lines ih =>
    rw [List.forall_mem_cons] at h
    have hsolid : ∀ c ∈ line.toList, (c == '\n') = false := by
      intro c hc
      have hne : c ≠ '\n' := by
        rintro rfl
        exact h.1 hc
      simpa using hne
    have htext : (String.join ((line :: lines).map (· ++ "\n"))).toList
        = line.toList ++ '\n' :: (String.join (lines.map (· ++ "\n"))).toList := by
      simp
    rw [htext, pieces_solid_append hsolid rfl, ih h.2]
    rfl

theorem endedLines_join {lines : List String} (h : ∀ line ∈ lines, '\n' ∉ line.toList) :
    endedLines (String.join (lines.map (· ++ "\n"))) = lines ∧
      behindLines (String.join (lines.map (· ++ "\n"))) = "" := by
  rw [endedLines, behindLines, pieces_join h, List.dropLast_concat, List.map_map]
  constructor
  · simp [Function.comp_def]
  · simp

end Text

namespace Fields

/-! ### One line -/

def Trims (cs t : List Char) : Prop :=
  ∃ a b, cs = a ++ (t ++ b) ∧ Padding a ∧ Padding b ∧
    (∀ c ∈ t.head?, isPadding c = false) ∧ ∀ c ∈ t.getLast?, isPadding c = false

def CutInto (line name value : String) : Prop :=
  ∃ front after, line.toList = front ++ ':' :: after ∧ ':' ∉ front ∧
    Trims front name.toList ∧ Trims after value.toList ∧ name ≠ "" ∧ value ≠ ""

theorem namedBy_iff_cutInto {line name value : String} :
    NamedBy line name value ↔ CutInto line name value := by
  constructor
  · rintro ⟨a, b, c, d, hline, ha, hb, hc, hd, hname, hvalue, hcolon⟩
    refine ⟨a ++ (name.toList ++ b), c ++ (value.toList ++ d), hline, ?_,
      ⟨a, b, rfl, ha, hb, hname.head, hname.last⟩, ⟨c, d, rfl, hc, hd, hvalue.head, hvalue.last⟩,
      ?_, ?_⟩
    · simp [colon_not_mem_padding ha, colon_not_mem_padding hb, hcolon]
    · exact mt String.toList_eq_nil_iff.2 hname.ne_nil
    · exact mt String.toList_eq_nil_iff.2 hvalue.ne_nil
  · rintro ⟨front, after, hline, hcolon, ⟨a, b, rfl, ha, hb, hhead, hlast⟩,
      ⟨c, d, rfl, hc, hd, hhead', hlast'⟩, hname, hvalue⟩
    refine ⟨a, b, c, d, hline, ha, hb, hc, hd, ⟨?_, hhead, hlast⟩, ⟨?_, hhead', hlast'⟩, ?_⟩
    · exact mt String.toList_eq_nil_iff.1 hname
    · exact mt String.toList_eq_nil_iff.1 hvalue
    · simp only [List.mem_append, not_or] at hcolon
      exact hcolon.2.1

/-- Reads a line by positions in bytes; `none` where a position is out of range. -/
def ofLineByPosition? (line : String) : Option (Except HttpError (String × String)) :=
  match Text.positionOf? ':' line.toList, line.utf8ByteSize with
  | none, _ => some (.error (.badRequest .malformedField))
  | some _, 0 => none
  | some colon, last + 1 =>
    if colon = 0 ∨ colon = last then some (.error (.badRequest .malformedField))
    else do
      let (front, _) ← Text.cutAt? colon line.toList
      let (_, after) ← Text.cutAt? (colon + 1) line.toList
      let name := trim front
      let value := trim after
      return if name = [] ∨ value = [] then .error (.badRequest .malformedField)
        else .ok (String.ofList name, String.ofList value)

theorem ofLine_of_not_mem {line : String} (h : ':' ∉ line.toList) :
    ofLine line = .error (.badRequest .malformedField) := by
  rw [ofLine, List.dropWhile_eq_nil_iff.2 (forall_ne_colon h)]

theorem ofLine_of_cut {line : String} {front after : List Char}
    (hline : line.toList = front ++ ':' :: after) (hfront : ':' ∉ front) :
    ofLine line = if trim front = [] ∨ trim after = [] then .error (.badRequest .malformedField)
      else .ok (String.ofList (trim front), String.ofList (trim after)) := by
  obtain ⟨htake, hdrop⟩ := takeWhile_colon hfront after
  rw [ofLine, hline, htake, hdrop]

/-- The positions that are cut at are all in range. -/
theorem ofLineByPosition?_eq (line : String) : ofLineByPosition? line = some (ofLine line) := by
  by_cases hmem : ':' ∈ line.toList
  · obtain ⟨front, after, hline, hfront⟩ := List.eq_append_cons_of_mem hmem
    have hposition := Text.positionOf?_append hfront after
    have hbefore := Text.cutAt?_append front (':' :: after)
    have hbehind := Text.cutAt?_append (front ++ [':']) after
    have hcolon : Text.byteLength [':'] = 1 := rfl
    rw [List.append_assoc, List.singleton_append, Text.byteLength_append, hcolon] at hbehind
    have hsize : line.utf8ByteSize = Text.byteLength front + Text.byteLength after + 1 := by
      rw [Text.utf8ByteSize_eq, hline, ← List.singleton_append, Text.byteLength_append,
        Text.byteLength_append, hcolon]
      omega
    rw [ofLineByPosition?, hsize, hline, hposition, ofLine_of_cut hline hfront]
    dsimp only
    split
    · -- A colon at either end leaves an empty side.
      rename_i hend
      have hempty : front = [] ∨ after = [] := by
        rw [← Text.byteLength_eq_zero_iff, ← Text.byteLength_eq_zero_iff]
        omega
      have hnothing : trim front = [] ∨ trim after = [] := by
        obtain rfl | rfl := hempty
        · exact .inl rfl
        · exact .inr rfl
      rw [if_pos hnothing]
    · rw [hbefore, hbehind]
      rfl
  · rw [ofLineByPosition?, Text.positionOf?_of_not_mem hmem, ofLine_of_not_mem hmem]

/-! ### Printed fields -/

def addLine (f : Fields) (line : String) : Except HttpError Fields :=
  match ofLine line with
  | .ok (name, value) => .ok ((f.insert? name value).getD f)
  | .error e => .error e

def ofLines (lines : List String) : Except HttpError Fields := lines.foldlM addLine {}

def printed (e : String × String) : String := e.1 ++ ": " ++ e.2

theorem text_eq (f : Fields) : f.text = String.join ((f.entries.map printed).map (· ++ "\n")) := by
  rw [text, List.map_map]
  rfl

structure Printable (e : String × String) : Prop where
  name : Bare e.1.toList
  value : Bare e.2.toList
  colon : ':' ∉ e.1.toList
  lf : '\n' ∉ (printed e).toList

theorem Printable.ofLine {e : String × String} (he : Printable e) : ofLine (printed e) = .ok e :=
  ofLine_eq_ok_iff.2 (namedBy_of_bare he.name he.value he.colon)

theorem printable_of_namedBy {line name value : String} (h : NamedBy line name value)
    (hlf : '\n' ∉ line.toList) : Printable (name, value) := by
  obtain ⟨a, b, c, d, hline, -, -, -, -, hname, hvalue, hcolon⟩ := h
  refine ⟨hname, hvalue, hcolon, ?_⟩
  rw [hline] at hlf
  simp only [List.mem_append, List.mem_cons, not_or] at hlf
  simp [printed, hlf]

structure Held (f : Fields) : Prop where
  size : f.size ≤ maxFields
  printable : ∀ e ∈ f.entries, Printable e

theorem held_empty : Held {} := ⟨Nat.zero_le _, by simp⟩

theorem Held.insert {f : Fields} (hf : f.Held) {name value : String}
    (he : Printable (name, value)) : ((f.insert? name value).getD f).Held := by
  rw [insert?]
  split
  · rename_i hroom
    refine ⟨?_, ?_⟩
    · rw [Option.getD_some, Fields.size, List.length_append]
      exact hroom
    · rw [Option.getD_some, List.forall_mem_append, List.forall_mem_singleton]
      exact ⟨hf.printable, he⟩
  · exact hf

/-- Lines without a line feed that are each accepted are read together. -/
theorem Held.addLines {f : Fields} (hf : f.Held) {lines : List String}
    (hlf : ∀ line ∈ lines, '\n' ∉ line.toList)
    (hok : ∀ line ∈ lines, ∃ e, Fields.ofLine line = .ok e) :
    ∃ f', lines.foldlM addLine f = .ok f' ∧ f'.Held := by
  induction lines generalizing f with
  | nil => exact ⟨f, rfl, hf⟩
  | cons line lines ih =>
    rw [List.forall_mem_cons] at hlf hok
    obtain ⟨⟨name, value⟩, hline⟩ := hok.1
    have he := printable_of_namedBy (ofLine_eq_ok_iff.1 hline) hlf.1
    obtain ⟨f', hrest, hf'⟩ := ih (hf.insert he) hlf.2 hok.2
    refine ⟨f', ?_, hf'⟩
    rw [List.foldlM_cons, addLine, hline]
    exact hrest

/-- Printed fields are read as they were, as long as there is room for them. -/
theorem foldlM_addLine_printed {entries : List (String × String)} (he : ∀ e ∈ entries, Printable e)
    (before : List (String × String)) (hroom : before.length + entries.length ≤ maxFields) :
    (entries.map printed).foldlM addLine ⟨before⟩ = .ok ⟨before ++ entries⟩ := by
  induction entries generalizing before with
  | nil =>
    rw [List.append_nil]
    rfl
  | cons e entries ih =>
    rw [List.forall_mem_cons] at he
    rw [List.length_cons] at hroom
    have hfree : Fields.size ⟨before⟩ < maxFields := by
      simp only [size]
      omega
    have hroom' : (before ++ [e]).length + entries.length ≤ maxFields := by
      rw [List.length_append, List.length_singleton]
      omega
    have hrest := ih he.2 (before ++ [e]) hroom'
    rw [List.append_assoc, List.singleton_append] at hrest
    rw [List.map_cons, List.foldlM_cons, addLine, he.1.ofLine]
    dsimp only
    rw [insert?, if_pos hfree]
    exact hrest

theorem Held.lf {f : Fields} (hf : f.Held) :
    ∀ line ∈ f.entries.map printed, '\n' ∉ line.toList := by
  intro line hmem
  obtain ⟨e, he, rfl⟩ := List.mem_map.1 hmem
  exact (hf.printable e he).lf

theorem Held.ofLines_text {f : Fields} (hf : f.Held) :
    ofLines (Text.endedLines f.text) = .ok f ∧ Text.behindLines f.text = "" := by
  obtain ⟨hlines, hbehind⟩ := Text.endedLines_join hf.lf
  rw [text_eq, hlines]
  exact ⟨foldlM_addLine_printed hf.printable [] (by simpa [Fields.size] using hf.size), hbehind⟩

/-- A line is accepted just if it has a colon and, without padding, something on both sides of the
first one, and then these are name and value; all other lines are malformed, and no line leads to a
position that is out of range. The fields of accepted lines without line feeds are read again from
the lines of their text, behind which there is nothing. -/
theorem line_read_again :
    (∀ line : String,
      (∀ name value, ofLine line = .ok (name, value) ↔ CutInto line name value) ∧
      ((¬ ∃ name value, CutInto line name value) →
        ofLine line = .error (.badRequest .malformedField)) ∧
      ofLineByPosition? line = some (ofLine line)) ∧
    ∀ lines : List String, (∀ line ∈ lines, '\n' ∉ line.toList) →
      (∀ line ∈ lines, ∃ name value, CutInto line name value) →
      ∃ f, ofLines lines = .ok f ∧ ofLines (Text.endedLines f.text) = .ok f ∧
        Text.behindLines f.text = "" := by
  have hiff {line name value : String} :
      ofLine line = .ok (name, value) ↔ CutInto line name value := by
    rw [ofLine_eq_ok_iff, namedBy_iff_cutInto]
  constructor
  · intro line
    refine ⟨fun _ _ => hiff, fun hnone => ?_, ofLineByPosition?_eq line⟩
    refine ofLine_eq_error_iff.2 ⟨fun name value hnamed => ?_, rfl⟩
    exact hnone ⟨name, value, namedBy_iff_cutInto.1 hnamed⟩
  · intro lines hlf hok
    have haccepted : ∀ line ∈ lines, ∃ e, ofLine line = .ok e := by
      intro line hmem
      obtain ⟨name, value, hcut⟩ := hok line hmem
      exact ⟨(name, value), hiff.2 hcut⟩
    obtain ⟨f, hlines, hf⟩ := held_empty.addLines hlf haccepted
    exact ⟨f, hlines, hf.ofLines_text⟩

/-- A value with a colon, a tab and a carriage return in it, and a name of two words. -/
theorem line_read_again_twoLines :
    ∃ f, ofLines ["\t Two Words :a:\tb\r ", "ä: é"] = .ok f ∧
      ofLines (Text.endedLines f.text) = .ok f ∧ Text.behindLines f.text = "" := by
  have hcut (line name value : String) (h : ofLine line = .ok (name, value)) :
      ∃ name value, CutInto line name value :=
    ⟨name, value, namedBy_iff_cutInto.1 (ofLine_eq_ok_iff.1 h)⟩
  refine line_read_again.2 _ (by decide) ?_
  rw [List.forall_mem_cons, List.forall_mem_singleton]
  exact ⟨hcut _ "Two Words" "a:\tb\r" rfl, hcut _ "ä" "é" rfl⟩

end Fields

end HttpOrigin
