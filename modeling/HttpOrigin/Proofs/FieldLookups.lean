import HttpOrigin.Proofs.Tokens
import HttpOrigin.RequestReader
import Mathlib.Data.List.Forall2

/-! Looking fields up. The first hundred fields that are inserted are held, in their order; all
values of a name, the last of them and whether there is one are the same question asked three times,
and a name stands for all its spellings that differ in the case of ASCII letters, and for no other.
So the last field of its name decides whether a connection closes and how long a body is. -/
namespace HttpOrigin

namespace Text

/-! ### Spellings of a name -/

def letters : List (Char × Char) :=
  "ABCDEFGHIJKLMNOPQRSTUVWXYZ".toList.zip "abcdefghijklmnopqrstuvwxyz".toList

/-- The same character, or both cases of a letter of ASCII. -/
def SameLetter (c d : Char) : Prop := c = d ∨ (c, d) ∈ letters ∨ (d, c) ∈ letters

def Alike (s t : String) : Prop := List.Forall₂ SameLetter s.toList t.toList

/-- The characters outside ASCII, each at its place. -/
def outsideAscii (s : String) : List (Option Char) :=
  s.toList.map fun c => if c.toNat < 128 then none else some c

theorem toLower_of_mem_letters :
    ∀ p ∈ letters, p.1.toLower = p.2 ∧ p.2.toLower = p.2 := by decide

theorem lt_of_mem_letters : ∀ p ∈ letters, p.1.toNat < 128 ∧ p.2.toNat < 128 := by decide

theorem upper_unique : ∀ p ∈ letters, ∀ q ∈ letters, p.2 = q.2 → p.1 = q.1 := by decide

theorem toLower_cases (c : Char) : c.toLower = c ∨ (c, c.toLower) ∈ letters := by
  by_cases hc : c.val ≥ 'A'.val ∧ c.val ≤ 'Z'.val
  · have hrange : 65 ≤ c.toNat ∧ c.toNat ≤ 90 := hc
    have hall : ∀ n < 26, (Char.ofNat (65 + n), (Char.ofNat (65 + n)).toLower) ∈ letters := by
      decide
    have hupper := hall (c.toNat - 65) (by omega)
    rw [Nat.add_sub_cancel' hrange.1, Char.ofNat_toNat] at hupper
    exact .inr hupper
  · exact .inl (dif_neg hc)

theorem toLower_eq_iff {c d : Char} : c.toLower = d.toLower ↔ SameLetter c d := by
  constructor
  · intro h
    -- Either may be in upper case; two that are have the lower case of one letter.
    obtain hc | hc := toLower_cases c
    · obtain hd | hd := toLower_cases d
      · exact .inl (by rw [← hc, h, hd])
      · rw [← h, hc] at hd
        exact .inr (.inr hd)
    · obtain hd | hd := toLower_cases d
      · rw [h, hd] at hc
        exact .inr (.inl hc)
      · exact .inl (upper_unique _ hc _ hd h)
  · rintro (rfl | h | h)
    · rfl
    · obtain ⟨hc, hd⟩ := toLower_of_mem_letters _ h
      rw [hc, hd]
    · obtain ⟨hd, hc⟩ := toLower_of_mem_letters _ h
      rw [hc, hd]

section
variable {s t : String}

theorem sameIgnoringCase_iff_alike : sameIgnoringCase s t = true ↔ Alike s t := by
  rw [sameIgnoringCase_iff, lowered, lowered, ← List.forall₂_eq_eq_eq, List.forall₂_map_left_iff,
    List.forall₂_map_right_iff, Alike]
  simp only [toLower_eq_iff]

theorem sameIgnoringCase_eq_false_iff : sameIgnoringCase s t = false ↔ ¬ Alike s t := by
  rw [← sameIgnoringCase_iff_alike, Bool.not_eq_true]

instance (s t : String) : Decidable (Alike s t) := decidable_of_iff _ sameIgnoringCase_iff_alike

theorem SameLetter.outside {c d : Char} (h : SameLetter c d) :
    (if c.toNat < 128 then none else some c) = if d.toNat < 128 then none else some d := by
  obtain rfl | h | h := h
  · rfl
  · obtain ⟨hc, hd⟩ := lt_of_mem_letters _ h
    rw [if_pos hc, if_pos hd]
  · obtain ⟨hd, hc⟩ := lt_of_mem_letters _ h
    rw [if_pos hc, if_pos hd]

/-- Only letters of ASCII may differ. -/
theorem Alike.outsideAscii_eq (h : Alike s t) : outsideAscii s = outsideAscii t := by
  rw [outsideAscii, outsideAscii, ← List.forall₂_eq_eq_eq, List.forall₂_map_left_iff,
    List.forall₂_map_right_iff]
  exact h.imp fun _ _ => SameLetter.outside

end

end Text

namespace Fields

/-! ### Inserting -/

def insert (f : Fields) (e : String × String) : Bool × Fields :=
  match f.insert? e.1 e.2 with
  | some longer => (true, longer)
  | none => (false, f)

def insertAll (f : Fields) (pairs : List (String × String)) : Fields :=
  pairs.foldl (fun f e => (f.insert e).2) f

section
variable {f : Fields}

theorem insert_of_room (h : f.size < maxFields) (e : String × String) :
    f.insert e = (true, ⟨f.entries ++ [e]⟩) := by
  rw [insert, insert?, if_pos h]

theorem insert_of_full (h : maxFields ≤ f.size) (e : String × String) :
    f.insert e = (false, f) := by
  rw [insert, insert?, if_neg (Nat.not_lt.2 h)]

/-- As many are added as there is room for. -/
theorem entries_insertAll (hf : f.size ≤ maxFields) (pairs : List (String × String)) :
    (f.insertAll pairs).entries = (f.entries ++ pairs).take maxFields := by
  -- An insert keeps the bound on the size, with which the rest starts.
  induction pairs generalizing f with
  | nil =>
    rw [List.append_nil, List.take_of_length_le hf]
    rfl
  | cons e pairs ih =>
    have hstep : f.insertAll (e :: pairs) = (f.insert e).2.insertAll pairs := rfl
    rw [hstep]
    by_cases hroom : f.size < maxFields
    · have hsize : Fields.size ⟨f.entries ++ [e]⟩ ≤ maxFields := by
        rw [size, List.length_append]
        exact hroom
      rw [insert_of_room hroom, ih hsize, List.append_assoc]
      rfl
    · have hfull : f.entries.length = maxFields := Nat.le_antisymm hf (Nat.le_of_not_lt hroom)
      rw [insert_of_full (Nat.le_of_not_lt hroom), ih hf, ← hfull, List.take_left, List.take_left]

end

/-- The fields after these pairs were inserted where there were none. -/
def inserted (pairs : List (String × String)) : Fields := insertAll {} pairs

theorem entries_inserted (pairs : List (String × String)) :
    (inserted pairs).entries = pairs.take maxFields :=
  entries_insertAll (Nat.zero_le _) pairs

theorem size_inserted (pairs : List (String × String)) :
    (inserted pairs).size = min maxFields pairs.length := by
  rw [size, entries_inserted, List.length_take]

theorem insert_inserted (pairs : List (String × String)) (e : String × String) :
    (inserted pairs).insert e =
      if pairs.length < maxFields then (true, inserted (pairs ++ [e]))
      else (false, inserted pairs) := by
  have hsize := size_inserted pairs
  have hlast : inserted (pairs ++ [e]) = ((inserted pairs).insert e).2 := List.foldl_concat ..
  split
  · rename_i hroom
    have hinsert := insert_of_room (f := inserted pairs) (by omega) e
    rw [hlast, hinsert]
  · exact insert_of_full (by omega) e

/-! ### Looking up -/

inductive ValuesOf (name : String) : List (String × String) → List String → Prop
  | nil : ValuesOf name [] []
  | named {spelling value : String} {entries : List (String × String)} {values : List String} :
      Text.Alike spelling name → ValuesOf name entries values →
      ValuesOf name ((spelling, value) :: entries) (value :: values)
  | other {spelling value : String} {entries : List (String × String)} {values : List String} :
      ¬ Text.Alike spelling name → ValuesOf name entries values →
      ValuesOf name ((spelling, value) :: entries) values

def LastOf (entries : List (String × String)) (name value : String) : Prop :=
  ∃ before spelling after, entries = before ++ (spelling, value) :: after ∧
    Text.Alike spelling name ∧ ∀ e ∈ after, ¬ Text.Alike e.1 name

def SameLast (entries entries' : List (String × String)) (name : String) : Prop :=
  ∀ value, LastOf entries name value ↔ LastOf entries' name value

/-- The three look-ups give for one name in the one what they give for the other in the other. -/
structure Agree (f : Fields) (name : String) (g : Fields) (other : String) : Prop where
  all : f.getAll name = g.getAll other
  last : f.get? name = g.get? other
  any : f.contains name = g.contains other

structure Reports (f : Fields) (entries : List (String × String)) (name : String) : Prop where
  all : ∀ values, f.getAll name = values ↔ ValuesOf name entries values
  last : f.get? name = (f.getAll name).getLast?
  any : f.contains name = true ↔ f.getAll name ≠ []
  spelling : ∀ other, Text.Alike other name → f.Agree other f name
  apart : ∀ other, ¬ Text.Alike other name →
    ∀ value, (f.insert (other, value)).2.Agree name f name

section
variable {f g : Fields} {name other : String}

theorem valuesOf_getAll (entries : List (String × String)) (name : String) :
    ValuesOf name entries (getAll ⟨entries⟩ name) := by
  induction entries with
  | nil => exact .nil
  | cons e entries ih =>
    rw [getAll_cons]
    split
    · rename_i hsame
      exact .named (Text.sameIgnoringCase_iff_alike.1 hsame) ih
    · rename_i hsame
      exact .other (mt Text.sameIgnoringCase_iff_alike.2 hsame) ih

theorem ValuesOf.getAll_eq {entries : List (String × String)} {values : List String}
    (h : ValuesOf name entries values) : getAll ⟨entries⟩ name = values := by
  induction h with
  | nil => rfl
  | named hsame _ ih => rw [getAll_cons, if_pos (Text.sameIgnoringCase_iff_alike.2 hsame), ih]
  | other hsame _ ih =>
    rw [getAll_cons, if_neg (mt Text.sameIgnoringCase_iff_alike.1 hsame), ih]

theorem getAll_eq_iff {values : List String} :
    f.getAll name = values ↔ ValuesOf name f.entries values := by
  constructor
  · rintro rfl
    exact valuesOf_getAll f.entries name
  · exact ValuesOf.getAll_eq

theorem get?_eq_getLast? (f : Fields) (name : String) :
    f.get? name = (f.getAll name).getLast? := by
  rw [get?, getAll, List.getLast?_map, List.getLast?_filter]

theorem contains_iff (f : Fields) (name : String) :
    f.contains name = true ↔ f.getAll name ≠ [] := by
  simp [contains, getAll]

theorem agree_of_getAll (h : f.getAll name = g.getAll other) : f.Agree name g other := by
  refine ⟨h, ?_, ?_⟩
  · rw [get?_eq_getLast?, get?_eq_getLast?, h]
  · rw [Bool.eq_iff_iff, contains_iff, contains_iff, h]

/-- The spelling that is asked for makes no difference. -/
theorem agree_of_alike (h : Text.Alike other name) (f : Fields) : f.Agree other f name := by
  have hlowered : Text.lowered other = Text.lowered name :=
    Text.sameIgnoringCase_iff.1 (Text.sameIgnoringCase_iff_alike.2 h)
  apply agree_of_getAll
  simp only [getAll, Text.sameIgnoringCase, hlowered]

/-- A field is not found under a name that is not its own. -/
theorem agree_insert (h : ¬ Text.Alike other name) (f : Fields) (value : String) :
    (f.insert (other, value)).2.Agree name f name := by
  apply agree_of_getAll
  by_cases hroom : f.size < maxFields
  · have hnot := Text.sameIgnoringCase_eq_false_iff.2 h
    rw [insert_of_room hroom]
    simp [getAll, hnot]
  · rw [insert_of_full (Nat.le_of_not_lt hroom)]

theorem get?_eq_some_iff_lastOf {value : String} :
    f.get? name = some value ↔ LastOf f.entries name value := by
  rw [get?_eq_some_iff]
  simp only [LastIs, LastOf, Text.sameIgnoringCase_iff_alike, Text.sameIgnoringCase_eq_false_iff]

theorem get?_eq_iff_sameLast :
    f.get? name = g.get? name ↔ SameLast f.entries g.entries name := by
  rw [Option.ext_iff, SameLast]
  simp only [get?_eq_some_iff_lastOf]

theorem reports_entries (f : Fields) (name : String) : f.Reports f.entries name where
  all _ := getAll_eq_iff
  last := get?_eq_getLast? f name
  any := contains_iff f name
  spelling _ h := agree_of_alike h f
  apart _ h := agree_insert h f

end

end Fields

/-! ### What the last field decides -/

namespace Request
open Fields (LastOf)

variable {r r' : Request}

theorem asksToClose_iff_lastOf : r.asksToClose = true ↔
    ∃ v, LastOf r.fields.entries "Connection" v ∧ Text.Alike v "close" := by
  rw [asksToClose_iff]
  simp only [ClosedBy, ← Fields.get?_eq_some_iff, Fields.get?_eq_some_iff_lastOf,
    Text.sameIgnoringCase_iff_alike]

theorem bodyLength_eq_ok_iff_lastOf {n : Nat} : r.bodyLength = .ok n ↔
    ∃ v, LastOf r.fields.entries "Content-Length" v ∧ Text.Denotes v n ∧ n < 2 ^ 64 := by
  rw [bodyLength_eq_ok_iff]
  simp only [Announces, ← Fields.get?_eq_some_iff, Fields.get?_eq_some_iff_lastOf]
  rfl

theorem asksToClose_congr
    (h : r.fields.get? "Connection" = r'.fields.get? "Connection") :
    r.asksToClose = r'.asksToClose := by
  rw [asksToClose, asksToClose, h]

theorem bodyLength_congr
    (h : r.fields.get? "Content-Length" = r'.fields.get? "Content-Length") :
    r.bodyLength = r'.bodyLength := by
  rw [bodyLength, bodyLength, h]

end Request

theorem Head.finish_eq_body_iff {r : Request} (hpost : r.method = .post) {n : Nat} :
    finish r = .body { r with contentLength := some n } ↔ r.bodyLength = .ok n := by
  rw [finish, hpost]
  cases r.bodyLength with
  | ok m => simp
  | error e => simp

namespace Fields

/-- Of the pairs that are inserted the first hundred are held, in their order, and an insert that
finds so many adds nothing. All values of a name are those of the pairs held under one of its
spellings, in their order; the value of the name is the last of them, and there is one unless they
are none. Spellings that differ in the case of ASCII letters are one name; any other difference,
such as one in the case of a letter outside ASCII, makes two names, and what is inserted under the
one is not found under the other. So whether a request asks to close, and how long the body of a
POST is, depends on the last pair held of that name alone. -/
theorem lookups_of_inserted (pairs : List (String × String)) :
    (inserted pairs).entries = pairs.take 100 ∧
    (∀ e, (inserted pairs).insert e =
      if pairs.length < 100 then (true, inserted (pairs ++ [e])) else (false, inserted pairs)) ∧
    (∀ name, (inserted pairs).Reports (pairs.take 100) name) ∧
    (∀ name other, Text.outsideAscii other ≠ Text.outsideAscii name → ¬ Text.Alike other name) ∧
    ∀ r : Request, r.fields = inserted pairs →
      (r.asksToClose = true ↔
        ∃ v, LastOf (pairs.take 100) "Connection" v ∧ Text.Alike v "close") ∧
      (r.method = .post → ∀ n, Head.finish r = .body { r with contentLength := some n } ↔
        ∃ v, LastOf (pairs.take 100) "Content-Length" v ∧ Text.Denotes v n ∧ n < 2 ^ 64) ∧
      ∀ pairs' (r' : Request), r'.fields = inserted pairs' →
        (SameLast (pairs.take 100) (pairs'.take 100) "Connection" →
          r.asksToClose = r'.asksToClose) ∧
        (SameLast (pairs.take 100) (pairs'.take 100) "Content-Length" →
          r.bodyLength = r'.bodyLength) := by
  have hheld (pairs : List (String × String)) : pairs.take 100 = (inserted pairs).entries :=
    (entries_inserted pairs).symm
  rw [hheld pairs]
  refine ⟨rfl, insert_inserted pairs, reports_entries _,
    fun name other => mt Text.Alike.outsideAscii_eq, fun r hr => ?_⟩
  rw [← hr]
  refine ⟨Request.asksToClose_iff_lastOf, fun hpost n => ?_, fun pairs' r' hr' => ?_⟩
  · rw [Head.finish_eq_body_iff hpost]
    exact Request.bodyLength_eq_ok_iff_lastOf
  · rw [hheld pairs', ← hr']
    exact ⟨fun h => Request.asksToClose_congr (get?_eq_iff_sameLast.2 h),
      fun h => Request.bodyLength_congr (get?_eq_iff_sameLast.2 h)⟩

def repeated : List (String × String) :=
  [("Connection", "close"), ("content-length", "7"), ("Größe", "1"), ("CONNECTION", "Keep-Alive"),
    ("Content-Length", "002")]

def lastOnly : List (String × String) := [("connection", "Keep-Alive"), ("CONTENT-LENGTH", "002")]

theorem lookups_of_inserted_repeated :
    let f := inserted repeated
    let r : Request := { method := .post, fields := f }
    let r' : Request := { fields := inserted lastOnly }
    f.Agree "größE" f "Größe" ∧ (f.insert ("GRÖßE", "2")).2.Agree "Größe" f "Größe" ∧
      Head.finish r = .body { r with contentLength := some 2 } ∧
      r.asksToClose = r'.asksToClose ∧ r.bodyLength = r'.bodyLength := by
  intro f r r'
  obtain ⟨hheld, -, hreports, houtside, hdecides⟩ := lookups_of_inserted repeated
  have hname := hreports "Größe"
  have hother : ¬ Text.Alike "GRÖßE" "Größe" := houtside "Größe" "GRÖßE" (by decide)
  obtain ⟨-, hlength, hsame⟩ := hdecides r rfl
  rw [← hheld] at hlength hsame
  have hdenotes : Text.Denotes "002" 2 := ⟨[0, 0, 2], by simp, by decide, by decide, by decide⟩
  have hlast : LastOf f.entries "Content-Length" "002" := get?_eq_some_iff_lastOf.1 (by decide)
  have hconnection : f.get? "Connection" = r'.fields.get? "Connection" := by decide
  have hcontent : f.get? "Content-Length" = r'.fields.get? "Content-Length" := by decide
  obtain ⟨hclose, hbody⟩ := hsame lastOnly r' rfl
  exact ⟨hname.spelling "größE" (by decide), hname.apart "GRÖßE" hother "2",
    (hlength rfl 2).2 ⟨"002", hlast, hdenotes, by decide⟩,
    hclose (get?_eq_iff_sameLast.1 hconnection), hbody (get?_eq_iff_sameLast.1 hcontent)⟩

end Fields

end HttpOrigin
