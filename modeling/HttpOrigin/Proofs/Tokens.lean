import HttpOrigin.Wire.Request
import Mathlib.Data.List.DropRight
import Mathlib.Data.List.TakeWhile
import Mathlib.Data.Nat.Digits.Defs

/-! The words of a line, the two sides of a field line and decimal numbers: what each looks like as
text, and that the readers take exactly such texts. -/
namespace HttpOrigin

namespace Text

/-! ### Words -/

def Blank (cs : List Char) : Prop := ∀ c ∈ cs, isBlank c = true

structure IsWord (cs : List Char) : Prop where
  ne_nil : cs ≠ []
  solid : ∀ c ∈ cs, isBlank c = false

theorem isWord_iff {cs : List Char} : IsWord cs ↔ cs ≠ [] ∧ cs.any isBlank = false := by
  constructor
  · intro h
    exact ⟨h.ne_nil, by simpa using h.solid⟩
  · intro h
    exact ⟨h.1, by simpa using h.2⟩

instance (cs : List Char) : Decidable (IsWord cs) := decidable_of_iff' _ isWord_iff

section
variable {p : Char → Bool} {w cs : List Char}

theorem pieces_separator {c : Char} (hc : p c = true) : pieces p (c :: cs) = [] :: pieces p cs := by
  rw [pieces, if_pos hc]

theorem pieces_solid (hw : ∀ c ∈ w, p c = false) : pieces p w = [w] := by
  induction w with
  | nil => rfl
  | cons c w ih =>
    have hc := hw c (by simp)
    have hrest := ih fun d hd => hw d (by simp [hd])
    simp [pieces, hc, hrest]

theorem pieces_solid_append {c : Char} (hw : ∀ c ∈ w, p c = false) (hc : p c = true) :
    pieces p (w ++ c :: cs) = w :: pieces p cs := by
  induction w with
  | nil => exact pieces_separator hc
  | cons d w ih =>
    have hd := hw d (by simp)
    have hrest := ih fun e he => hw e (by simp [he])
    simp [pieces, hd, hrest]

end

def wordChars (cs : List Char) : List (List Char) := (pieces isBlank cs).filter (· ≠ [])

theorem wordChars_blank_append {a : List Char} (ha : Blank a) (cs : List Char) :
    wordChars (a ++ cs) = wordChars cs := by
  induction a with
  | nil => rfl
  | cons c a ih =>
    have hc := ha c (by simp)
    have hrest := ih fun d hd => ha d (by simp [hd])
    rw [List.cons_append, wordChars, pieces_separator hc]
    simpa [wordChars] using hrest

theorem wordChars_word_append {w gap : List Char} (hw : IsWord w) (hg : gap ≠ []) (hb : Blank gap)
    (cs : List Char) : wordChars (w ++ (gap ++ cs)) = w :: wordChars cs := by
  cases gap with
  | nil => exact absurd rfl hg
  | cons c gap =>
    have hc := hb c (by simp)
    have hgap : Blank gap := fun d hd => hb d (by simp [hd])
    rw [List.cons_append, wordChars, pieces_solid_append hw.solid hc, List.filter_cons]
    simpa [hw.ne_nil, wordChars] using wordChars_blank_append hgap cs

theorem wordChars_word {w a : List Char} (hw : IsWord w) (ha : Blank a) :
    wordChars (w ++ a) = [w] := by
  cases a with
  | nil => simp [wordChars, pieces_solid hw.solid, hw.ne_nil]
  | cons c a =>
    have h := wordChars_word_append hw (List.cons_ne_nil c a) ha []
    rw [List.append_nil] at h
    simpa [wordChars, pieces] using h

theorem blank_of_wordChars_eq_nil {cs : List Char} (h : wordChars cs = []) : Blank cs := by
  induction cs with
  | nil => simp [Blank]
  | cons c cs ih =>
    by_cases hc : isBlank c = true
    · rw [wordChars, pieces_separator hc] at h
      have hrest : Blank cs := ih (by simpa [wordChars] using h)
      intro d hd
      obtain rfl | hd := List.mem_cons.1 hd
      · exact hc
      · exact hrest d hd
    · cases hp : pieces isBlank cs <;> simp [wordChars, pieces, hc, hp] at h

/-- A first word stands between blanks, or at an end of the text. -/
theorem cut_of_wordChars_eq_cons {cs w : List Char} {ws : List (List Char)}
    (h : wordChars cs = w :: ws) :
    ∃ before rest, cs = before ++ (w ++ rest) ∧ Blank before ∧ IsWord w ∧ wordChars rest = ws ∧
      ∀ c ∈ rest.head?, isBlank c = true := by
  induction cs with
  | nil => cases h
  | cons c cs ih =>
    by_cases hc : isBlank c = true
    · rw [wordChars, pieces_separator hc] at h
      obtain ⟨before, rest, hcs, hb, hw, hrest, hhead⟩ := ih (by simpa [wordChars] using h)
      refine ⟨c :: before, rest, by rw [hcs, List.cons_append], ?_, hw, hrest, hhead⟩
      intro d hd
      obtain rfl | hd := List.mem_cons.1 hd
      · exact hc
      · exact hb d hd
    · have hcut : (c :: cs).takeWhile (!isBlank ·) ++ (c :: cs).dropWhile (!isBlank ·) = c :: cs :=
        List.takeWhile_append_dropWhile
      have hword : IsWord ((c :: cs).takeWhile (!isBlank ·)) := by
        refine ⟨by simp [hc], fun d hd => ?_⟩
        simpa using List.mem_takeWhile_imp hd
      generalize (c :: cs).takeWhile (!isBlank ·) = first at hcut hword
      cases hrest : (c :: cs).dropWhile (!isBlank ·) with
      | nil =>
        rw [hrest] at hcut
        rw [← hcut, wordChars_word hword (by simp [Blank])] at h
        cases h
        exact ⟨[], [], by simpa using hcut.symm, by simp [Blank], hword, rfl, by simp⟩
      | cons d rest =>
        have hd : isBlank d = true := by
          have := List.head?_dropWhile_not (!isBlank ·) (c :: cs)
          rw [hrest] at this
          simpa using this
        rw [hrest] at hcut
        rw [← hcut, wordChars, pieces_solid_append hword.solid hd, List.filter_cons] at h
        simp only [hword.ne_nil, ne_eq, not_false_eq_true, decide_true, if_true] at h
        cases h
        refine ⟨[], d :: rest, by simpa using hcut.symm, by simp [Blank], hword, ?_,
          by simpa using hd⟩
        rw [wordChars, pieces_separator hd]
        simp

/-- Between two words there is a blank. -/
theorem gap_ne_nil {gap w rest : List Char} (hw : IsWord w)
    (hhead : ∀ c ∈ (gap ++ (w ++ rest)).head?, isBlank c = true) : gap ≠ [] := by
  rintro rfl
  obtain ⟨hne, hsolid⟩ := hw
  cases w with
  | nil => exact hne rfl
  | cons c w =>
    have hblank := hhead c (by simp)
    have hsolid := hsolid c (by simp)
    rw [hsolid] at hblank
    cases hblank

/-! ### Numbers -/

/-- Decimal digits, at least one and the most significant first, of the given value. -/
def Denotes (v : String) (n : Nat) : Prop :=
  ∃ digits : List Nat, digits ≠ [] ∧ (∀ d ∈ digits, d < 10) ∧
    v.toList = digits.map Nat.digitChar ∧ n = Nat.ofDigits 10 digits.reverse

theorem digitChar_eq_ofNat : ∀ d < 10, Nat.digitChar d = Char.ofNat ('0'.toNat + d) := by decide

theorem digit?_digitChar : ∀ d < 10, digit? (Nat.digitChar d) = some d := by decide

theorem digit?_eq_some_iff {c : Char} {d : Nat} :
    digit? c = some d ↔ d < 10 ∧ c = Nat.digitChar d := by
  constructor
  · intro h
    rw [digit?] at h
    split at h
    · rename_i hc
      have hlow : '0'.toNat ≤ c.toNat := UInt32.le_iff_toNat_le.1 hc.1
      have hhigh : c.toNat ≤ '9'.toNat := UInt32.le_iff_toNat_le.1 hc.2
      have hd : c.toNat - '0'.toNat = d := Option.some.inj h
      have hnine : '9'.toNat = '0'.toNat + 9 := rfl
      have hlt : d < 10 := by omega
      have hsum : '0'.toNat + d = c.toNat := by omega
      refine ⟨hlt, ?_⟩
      rw [digitChar_eq_ofNat d hlt, hsum, Char.ofNat_toNat]
    · cases h
  · rintro ⟨hd, rfl⟩
    exact digit?_digitChar d hd

theorem mapM_digit?_eq_some_iff {cs : List Char} {digits : List Nat} :
    cs.mapM digit? = some digits ↔ (∀ d ∈ digits, d < 10) ∧ cs = digits.map Nat.digitChar := by
  induction cs generalizing digits with
  | nil =>
    cases digits with
    | nil => simp
    | cons d digits => simp
  | cons c cs ih =>
    constructor
    · intro h
      simp only [List.mapM_cons, Option.bind_eq_bind, Option.bind_eq_some_iff] at h
      obtain ⟨d, hd, ds, hds, hcons⟩ := h
      cases hcons
      obtain ⟨hlt, hc⟩ := digit?_eq_some_iff.1 hd
      obtain ⟨hall, hcs⟩ := ih.1 hds
      simpa [hc, hcs] using ⟨hlt, hall⟩
    · rintro ⟨hall, hcs⟩
      cases digits with
      | nil => cases hcs
      | cons d digits =>
        rw [List.map_cons, List.cons.injEq] at hcs
        have hd : digit? c = some d := digit?_eq_some_iff.2 ⟨hall d (by simp), hcs.1⟩
        have hds : cs.mapM digit? = some digits :=
          ih.2 ⟨fun e he => hall e (by simp [he]), hcs.2⟩
        simp [hd, hds]

theorem decimalValue_eq (digits : List Nat) :
    decimalValue digits = Nat.ofDigits 10 digits.reverse := by
  rw [Nat.ofDigits_eq_foldr, List.foldr_reverse, decimalValue]
  simp [Nat.add_comm]

theorem decimal?_eq_some_iff {v : String} {n : Nat} : decimal? v = some n ↔ Denotes v n := by
  have hempty : v.isEmpty = true ↔ v.toList = [] := by
    rw [String.isEmpty_iff, String.toList_eq_nil_iff]
  constructor
  · intro h
    rw [decimal?] at h
    split at h
    · cases h
    · rename_i hv
      obtain ⟨digits, hdigits, hn⟩ := Option.map_eq_some_iff.1 h
      obtain ⟨hall, hcs⟩ := mapM_digit?_eq_some_iff.1 hdigits
      refine ⟨digits, ?_, hall, hcs, by rw [← hn, decimalValue_eq]⟩
      rintro rfl
      exact hv (hempty.2 hcs)
  · rintro ⟨digits, hne, hall, hcs, rfl⟩
    have hv : ¬ v.isEmpty = true := by
      rw [hempty, hcs]
      simpa using hne
    rw [decimal?, if_neg hv, mapM_digit?_eq_some_iff.2 ⟨hall, hcs⟩, Option.map_some,
      decimalValue_eq]

theorem denotes_toString (n : Nat) : Denotes (toString n) n := by
  have htext : (toString n).toList = Nat.toDigits 10 n := by simp [toString, Nat.repr]
  rw [Denotes, htext]
  induction n using Nat.strongRecOn with
  | ind n ih =>
    by_cases hn : n < 10
    · refine ⟨[n], by simp, by simpa using hn, ?_, by simp⟩
      rw [Nat.toDigits_of_lt_base hn, List.map_singleton]
    · obtain ⟨digits, -, hall, hcs, hvalue⟩ := ih (n / 10) (by omega) (by simp [toString, Nat.repr])
      refine ⟨digits ++ [n % 10], by simp, ?_, ?_, ?_⟩
      · intro d hd
        obtain hd | hd := List.mem_append.1 hd
        · exact hall d hd
        · have := List.mem_singleton.1 hd
          omega
      · rw [Nat.toDigits_of_base_le (by decide) (by omega), hcs, List.map_append,
          List.map_singleton]
      · rw [List.reverse_append, List.reverse_singleton, List.singleton_append, Nat.ofDigits_cons,
          ← hvalue]
        exact (Nat.mod_add_div n 10).symm

end Text

namespace Method

theorem ofToken_eq_ok_iff {token : String} {m : Method} :
    ofToken token = .ok m ↔ Text.sameIgnoringCase token m.text = true := by
  constructor
  · intro h
    rw [ofToken] at h
    split at h
    · rename_i m' hfind
      cases h
      have := List.find?_some hfind
      exact this
    · cases h
  · intro h
    have hsame : ∀ m' : Method, Text.sameIgnoringCase token m'.text
        = Text.sameIgnoringCase m.text m'.text := by
      intro m'
      simp only [Text.sameIgnoringCase, Text.sameIgnoringCase_iff.1 h]
    have hfind : [get, head, post].find? (fun m' => Text.sameIgnoringCase m.text m'.text)
        = some m := by
      cases m <;> decide
    simp only [ofToken, hsame, hfind]

end Method

namespace Version

theorem ofToken_eq_ok_iff {token : String} {v : Version} :
    ofToken token = .ok v ↔ Text.sameIgnoringCase token http11.text = true := by
  rw [ofToken]
  split <;> simp_all

end Version

namespace Request

def OpenedBy (line : String) (m : Method) (uri : String) : Prop :=
  ∃ before token gap gap' version after : List Char,
    line.toList = before ++ (token ++ (gap ++ (uri.toList ++ (gap' ++ (version ++ after))))) ∧
    Text.Blank before ∧ Text.Blank gap ∧ Text.Blank gap' ∧ Text.Blank after ∧
    gap ≠ [] ∧ gap' ≠ [] ∧
    Text.IsWord token ∧ Text.IsWord uri.toList ∧ Text.IsWord version ∧
    Text.sameIgnoringCase (String.ofList token) m.text = true ∧
    Text.sameIgnoringCase (String.ofList version) Version.http11.text = true

theorem words_eq (line : String) :
    Text.words line = (Text.wordChars line.toList).map String.ofList := rfl

def Worded (line token uri version : String) : Prop :=
  ∃ before gap gap' after : List Char,
    line.toList = before ++ (token.toList ++ (gap ++ (uri.toList ++ (gap' ++
      (version.toList ++ after))))) ∧
    Text.Blank before ∧ Text.Blank gap ∧ Text.Blank gap' ∧ Text.Blank after ∧
    gap ≠ [] ∧ gap' ≠ [] ∧
    Text.IsWord token.toList ∧ Text.IsWord uri.toList ∧ Text.IsWord version.toList

theorem words_eq_iff {line token uri version : String} :
    Text.words line = [token, uri, version] ↔ Worded line token uri version := by
  constructor
  · intro h
    have hchars : Text.wordChars line.toList = [token.toList, uri.toList, version.toList] := by
      have := congrArg (List.map String.toList) (words_eq line ▸ h)
      simpa [Function.comp_def] using this
    obtain ⟨before, rest, hline, hbefore, htoken, hrest, hhead⟩ :=
      Text.cut_of_wordChars_eq_cons hchars
    obtain ⟨gap, rest', rfl, hgap, huri, hrest', hhead'⟩ := Text.cut_of_wordChars_eq_cons hrest
    obtain ⟨gap', after, rfl, hgap', hversion, hafter, -⟩ := Text.cut_of_wordChars_eq_cons hrest'
    exact ⟨before, gap, gap', after, hline, hbefore, hgap, hgap',
      Text.blank_of_wordChars_eq_nil hafter, Text.gap_ne_nil huri hhead,
      Text.gap_ne_nil hversion hhead', htoken, huri, hversion⟩
  · rintro ⟨before, gap, gap', after, hline, hbefore, hgap, hgap', hafter, hne, hne', htoken, huri,
      hversion⟩
    rw [words_eq, hline, Text.wordChars_blank_append hbefore,
      Text.wordChars_word_append htoken hne hgap, Text.wordChars_word_append huri hne' hgap',
      Text.wordChars_word hversion hafter]
    simp

theorem openedBy_iff {line uri : String} {m : Method} :
    OpenedBy line m uri ↔ ∃ token version, Worded line token uri version ∧
      Text.sameIgnoringCase token m.text = true ∧
      Text.sameIgnoringCase version Version.http11.text = true := by
  constructor
  · rintro ⟨before, token, gap, gap', version, after, hline, hbefore, hgap, hgap', hafter, hne,
      hne', htoken, huri, hversion, hm, hv⟩
    refine ⟨String.ofList token, String.ofList version, ⟨before, gap, gap', after, ?_, hbefore,
      hgap, hgap', hafter, hne, hne', ?_, huri, ?_⟩, hm, hv⟩
    · rw [String.toList_ofList, String.toList_ofList]
      exact hline
    all_goals rwa [String.toList_ofList]
  · rintro ⟨token, version, ⟨before, gap, gap', after, hline, hbefore, hgap, hgap', hafter, hne,
      hne', htoken, huri, hversion⟩, hm, hv⟩
    refine ⟨before, token.toList, gap, gap', version.toList, after, hline, hbefore, hgap, hgap',
      hafter, hne, hne', htoken, huri, hversion, ?_, ?_⟩
    all_goals rwa [String.ofList_toList]

theorem ofLine_eq_ok_iff {line : String} {r : Request} :
    ofLine line = .ok r ↔ ∃ m uri, OpenedBy line m uri ∧ r = { method := m, uri } := by
  constructor
  · intro h
    rw [ofLine] at h
    split at h
    · rename_i token uri version hwords
      cases hm : Method.ofToken token with
      | error e =>
        rw [hm] at h
        cases h
      | ok m =>
        cases hv : Version.ofToken version with
        | error e =>
          rw [hm, hv] at h
          cases h
        | ok v =>
          rw [hm, hv] at h
          cases h
          exact ⟨m, uri, openedBy_iff.2 ⟨token, version, words_eq_iff.1 hwords,
            Method.ofToken_eq_ok_iff.1 hm, Version.ofToken_eq_ok_iff.1 hv⟩, rfl⟩
    · cases h
  · rintro ⟨m, uri, hopened, rfl⟩
    obtain ⟨token, version, hworded, hm, hv⟩ := openedBy_iff.1 hopened
    have hwords := words_eq_iff.2 hworded
    have hmethod : Method.ofToken token = .ok m := Method.ofToken_eq_ok_iff.2 hm
    have hversion : Version.ofToken version = .ok .http11 := Version.ofToken_eq_ok_iff.2 hv
    rw [ofLine, hwords]
    simp only [hmethod, hversion]
    rfl

end Request

namespace Fields

/-! ### Field lines -/

def Padding (cs : List Char) : Prop := ∀ c ∈ cs, isPadding c = true

structure Bare (cs : List Char) : Prop where
  ne_nil : cs ≠ []
  head : ∀ c ∈ cs.head?, isPadding c = false
  last : ∀ c ∈ cs.getLast?, isPadding c = false

theorem bare_iff {cs : List Char} :
    Bare cs ↔ cs ≠ [] ∧ cs.head?.all (!isPadding ·) = true ∧
      cs.getLast?.all (!isPadding ·) = true := by
  simp only [Option.all_eq_true, Bool.not_eq_true']
  constructor
  · intro h
    exact ⟨h.ne_nil, h.head, h.last⟩
  · intro h
    exact ⟨h.1, h.2.1, h.2.2⟩

instance (cs : List Char) : Decidable (Bare cs) := decidable_of_iff' _ bare_iff

def NamedBy (line name value : String) : Prop :=
  ∃ a b c d : List Char,
    line.toList = a ++ (name.toList ++ b) ++ ':' :: (c ++ (value.toList ++ d)) ∧
    Padding a ∧ Padding b ∧ Padding c ∧ Padding d ∧
    Bare name.toList ∧ Bare value.toList ∧ ':' ∉ name.toList

theorem namedBy_of_bare {name value : String} (hn : Bare name.toList) (hv : Bare value.toList)
    (hc : ':' ∉ name.toList) : NamedBy (name ++ ": " ++ value) name value := by
  refine ⟨[], [], [' '], [], by simp, ?_, ?_, ?_, ?_, hn, hv, hc⟩
  all_goals simp [Padding, isPadding]

theorem dropWhile_padded {a t : List Char} (ha : Padding a)
    (ht : ∀ c ∈ t.head?, isPadding c = false) : (a ++ t).dropWhile isPadding = t := by
  rw [List.dropWhile_append_of_pos ha]
  cases t with
  | nil => rfl
  | cons c t =>
    have hc := ht c (by simp)
    rw [List.dropWhile_cons_of_neg (by simp [hc])]

theorem trim_padded {a t b : List Char} (ha : Padding a) (hb : Padding b) (ht : Bare t) :
    trim (a ++ (t ++ b)) = t := by
  have hhead : ∀ c ∈ (t ++ b).head?, isPadding c = false := by
    rw [List.head?_append_of_ne_nil t ht.ne_nil]
    exact ht.head
  have hlast : ∀ c ∈ t.reverse.head?, isPadding c = false := by
    rw [List.head?_reverse]
    exact ht.last
  have hb' : Padding b.reverse := fun c hc => hb c (List.mem_reverse.1 hc)
  rw [trim, dropWhile_padded ha hhead, List.reverse_append, dropWhile_padded hb' hlast,
    List.reverse_reverse]

theorem head?_dropWhile_padding (cs : List Char) :
    ∀ c ∈ (cs.dropWhile isPadding).head?, isPadding c = false := by
  intro c hc
  have hnot := List.head?_dropWhile_not isPadding cs
  rw [Option.mem_def.1 hc] at hnot
  simpa using hnot

/-- A line is what `trim` leaves of it, between padding. -/
theorem cut_of_trim {cs t : List Char} (h : trim cs = t) (ht : t ≠ []) :
    Bare t ∧ ∃ a b, cs = a ++ (t ++ b) ∧ Padding a ∧ Padding b := by
  have hleft : cs.takeWhile isPadding ++ cs.dropWhile isPadding = cs :=
    List.takeWhile_append_dropWhile
  have hhead := head?_dropWhile_padding cs
  have hpad : Padding (cs.takeWhile isPadding) := fun c hc => List.mem_takeWhile_imp hc
  rw [trim] at h
  generalize cs.dropWhile isPadding = u at *
  have hright : u.reverse.takeWhile isPadding ++ t.reverse = u.reverse := by
    rw [← h, List.reverse_reverse]
    exact List.takeWhile_append_dropWhile
  have hu : u = t ++ (u.reverse.takeWhile isPadding).reverse := by
    have := congrArg List.reverse hright
    simpa using this.symm
  have hlast : ∀ c ∈ t.getLast?, isPadding c = false := by
    rw [← List.head?_reverse, ← h, List.reverse_reverse]
    exact head?_dropWhile_padding u.reverse
  have hpad' : Padding (u.reverse.takeWhile isPadding).reverse := by
    intro c hc
    exact List.mem_takeWhile_imp (List.mem_reverse.1 hc)
  rw [hu, List.head?_append_of_ne_nil t ht] at hhead
  refine ⟨⟨ht, hhead, hlast⟩, _, _, ?_, hpad, hpad'⟩
  rw [← hu, hleft]

theorem colon_not_mem_padding {cs : List Char} (h : Padding cs) : ':' ∉ cs := by
  intro hmem
  cases h ':' hmem

theorem forall_ne_colon {cs : List Char} (h : ':' ∉ cs) : ∀ c ∈ cs, decide (c ≠ ':') = true := by
  intro c hc
  have hne : c ≠ ':' := by
    rintro rfl
    exact h hc
  simpa using hne

theorem takeWhile_colon {name : List Char} (hn : ':' ∉ name) (after : List Char) :
    (name ++ ':' :: after).takeWhile (· ≠ ':') = name ∧
      (name ++ ':' :: after).dropWhile (· ≠ ':') = ':' :: after := by
  have hall := forall_ne_colon hn
  constructor
  · rw [List.takeWhile_append_of_pos hall]
    simp
  · rw [List.dropWhile_append_of_pos hall]
    simp

theorem ofLine_eq_ok_iff {line name value : String} :
    ofLine line = .ok (name, value) ↔ NamedBy line name value := by
  constructor
  · intro h
    rw [ofLine] at h
    have hcut : line.toList.takeWhile (· ≠ ':') ++ line.toList.dropWhile (· ≠ ':') = line.toList :=
      List.takeWhile_append_dropWhile
    have hfree : ':' ∉ line.toList.takeWhile (· ≠ ':') := by
      intro hmem
      simpa using List.mem_takeWhile_imp hmem
    have hcolon := List.head?_dropWhile_not (· ≠ ':') line.toList
    generalize line.toList.takeWhile (· ≠ ':') = front at *
    cases hdrop : line.toList.dropWhile (· ≠ ':') with
    | nil =>
      rw [hdrop] at h
      cases h
    | cons c after =>
      rw [hdrop] at h hcut hcolon
      have hc : c = ':' := by simpa using hcolon
      subst hc
      dsimp only at h
      split at h
      · cases h
      · rename_i hnonempty
        rw [not_or] at hnonempty
        obtain ⟨hname, hvalue⟩ := Prod.mk.inj (Except.ok.inj h)
        have hname : trim front = name.toList := by rw [← hname, String.toList_ofList]
        have hvalue : trim after = value.toList := by rw [← hvalue, String.toList_ofList]
        rw [hname, hvalue] at hnonempty
        obtain ⟨hbare, a, b, hfront, ha, hb⟩ := cut_of_trim hname hnonempty.1
        obtain ⟨hbare', c, d, hafter, hc, hd⟩ := cut_of_trim hvalue hnonempty.2
        refine ⟨a, b, c, d, by rw [← hcut, hfront, hafter], ha, hb, hc, hd, hbare, hbare', ?_⟩
        intro hmem
        exact hfree (by simp [hfront, hmem])
  · rintro ⟨a, b, c, d, hline, ha, hb, hc, hd, hname, hvalue, hcolon⟩
    have hfront : ':' ∉ a ++ (name.toList ++ b) := by
      simp [colon_not_mem_padding ha, colon_not_mem_padding hb, hcolon]
    obtain ⟨htake, hdrop⟩ := takeWhile_colon hfront (c ++ (value.toList ++ d))
    rw [ofLine, hline, hdrop]
    simp only [htake, trim_padded ha hb hname, trim_padded hc hd hvalue, hname.ne_nil,
      hvalue.ne_nil, or_self, if_false, String.ofList_toList]

/-! ### The last field of a name -/

def LastIs (f : Fields) (name value : String) : Prop :=
  ∃ before spelling after, f.entries = before ++ (spelling, value) :: after ∧
    Text.sameIgnoringCase spelling name = true ∧
    ∀ e ∈ after, Text.sameIgnoringCase e.1 name = false

theorem get?_eq_some_iff {f : Fields} {name value : String} :
    f.get? name = some value ↔ f.LastIs name value := by
  rw [get?, Option.map_eq_some_iff, LastIs]
  constructor
  · rintro ⟨⟨spelling, value'⟩, hfind, rfl⟩
    obtain ⟨hsame, after, before, hentries, hnone⟩ := List.find?_eq_some_iff_append.1 hfind
    refine ⟨before.reverse, spelling, after.reverse, ?_, hsame, ?_⟩
    · have := congrArg List.reverse hentries
      simpa using this
    · intro e he
      simpa using hnone e (List.mem_reverse.1 he)
  · rintro ⟨before, spelling, after, hentries, hsame, hnone⟩
    refine ⟨(spelling, value), List.find?_eq_some_iff_append.2 ⟨hsame, after.reverse,
      before.reverse, by simp [hentries], ?_⟩, rfl⟩
    intro e he
    simpa using hnone e (List.mem_reverse.1 he)

end Fields

namespace Request

def Announces (f : Fields) (n : Nat) : Prop :=
  ∃ v, f.LastIs "Content-Length" v ∧ Text.Denotes v n ∧ n < lengthBound

theorem bodyLength_eq_ok_iff {r : Request} {n : Nat} :
    r.bodyLength = .ok n ↔ Announces r.fields n := by
  constructor
  · intro h
    rw [bodyLength] at h
    split at h
    · cases h
    · rename_i v hv
      split at h
      · rename_i n' hn
        split at h
        · rename_i hbound
          cases h
          exact ⟨v, Fields.get?_eq_some_iff.1 hv, Text.decimal?_eq_some_iff.1 hn, hbound⟩
        · cases h
      · cases h
  · rintro ⟨v, hv, hn, hbound⟩
    rw [bodyLength, Fields.get?_eq_some_iff.2 hv]
    simp only [Text.decimal?_eq_some_iff.2 hn, if_pos hbound]

def ClosedBy (f : Fields) : Prop :=
  ∃ v, f.LastIs "Connection" v ∧ Text.sameIgnoringCase v "close" = true

theorem asksToClose_iff {r : Request} : r.asksToClose = true ↔ ClosedBy r.fields := by
  rw [asksToClose, Option.any_eq_true]
  constructor
  · rintro ⟨v, hv, hclose⟩
    exact ⟨v, Fields.get?_eq_some_iff.1 hv, hclose⟩
  · rintro ⟨v, hv, hclose⟩
    exact ⟨v, Fields.get?_eq_some_iff.2 hv, hclose⟩

end Request

end HttpOrigin
