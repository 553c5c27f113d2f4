import HttpOrigin.Text.Utf8

/-! Every text survives being written as UTF-8 and read again, and a byte below 0x80 stands for the
character of that number and for nothing else. -/
namespace HttpOrigin.Text

inductive Within : List (UInt8 × UInt8) → Bytes → Prop where
  | nil : Within [] []
  | cons {r rs b bs} : r.1 ≤ b → b ≤ r.2 → Within rs bs → Within (r :: rs) (b :: bs)

theorem tail_append {ranges : List (UInt8 × UInt8)} {bytes : Bytes} (h : Within ranges bytes)
    (rest : Bytes) : tail ranges (bytes ++ rest) = bytes ∧ bytes.length = ranges.length := by
  induction h with
  | nil => simp [tail]
  | cons hlow hhigh _ ih =>
    obtain ⟨htail, hlength⟩ := ih
    constructor
    · simp [tail, hlow, hhigh, htail]
    · simp [hlength]

theorem decodeChars_character {lead : UInt8} {ranges : List (UInt8 × UInt8)} {bytes : Bytes}
    (hlead : tailRanges lead = some ranges) (h : Within ranges bytes) (rest : Bytes) :
    decodeChars (lead :: (bytes ++ rest)) = scalar lead bytes :: decodeChars rest := by
  obtain ⟨htail, hlength⟩ := tail_append h rest
  rw [decodeChars, hlead]
  simp [htail, hlength]

theorem toNat_byte {n : Nat} (hn : n < 256) : (UInt8.ofNat n).toNat = n :=
  UInt8.toNat_ofNat_of_lt' hn

theorem Within.byte (low high : Nat) {n : Nat} {rs : List (UInt8 × UInt8)} {bs : Bytes}
    (hl : low ≤ n) (hh : n ≤ high) (hb : high < 256) (h : Within rs bs) :
    Within ((UInt8.ofNat low, UInt8.ofNat high) :: rs) (UInt8.ofNat n :: bs) := by
  have hlow : (UInt8.ofNat low).toNat = low := toNat_byte (by omega)
  have hn : (UInt8.ofNat n).toNat = n := toNat_byte (by omega)
  have hhigh : (UInt8.ofNat high).toNat = high := toNat_byte hb
  refine .cons ?_ ?_ h <;> rw [UInt8.le_iff_toNat_le] <;> dsimp only <;> omega

/-- Six bits of a character in a byte of their own. -/
theorem Within.sixBits (n : Nat) {rs : List (UInt8 × UInt8)} {bs : Bytes} (h : Within rs bs) :
    Within ((0x80, 0xBF) :: rs) (UInt8.ofNat (n % 64 + 128) :: bs) :=
  .byte 0x80 0xBF (by omega) (by omega) (by decide) h

theorem toNat_sixBits (n : Nat) : (UInt8.ofNat (n % 64 + 128)).toNat % 64 = n % 64 := by
  rw [toNat_byte (by omega)]
  omega

/-- The table of lead bytes in numbers. -/
theorem tailRanges_byte {n : Nat} (hn : n < 256) :
    tailRanges (UInt8.ofNat n) =
      if n < 0x80 then some []
      else if n < 0xC2 then none
      else if n < 0xE0 then some [(0x80, 0xBF)]
      else if n = 0xE0 then some [(0xA0, 0xBF), (0x80, 0xBF)]
      else if n = 0xED then some [(0x80, 0x9F), (0x80, 0xBF)]
      else if n < 0xF0 then some [(0x80, 0xBF), (0x80, 0xBF)]
      else if n = 0xF0 then some [(0x90, 0xBF), (0x80, 0xBF), (0x80, 0xBF)]
      else if n < 0xF4 then some [(0x80, 0xBF), (0x80, 0xBF), (0x80, 0xBF)]
      else if n = 0xF4 then some [(0x80, 0x8F), (0x80, 0xBF), (0x80, 0xBF)]
      else none := by
  simp only [tailRanges, UInt8.lt_iff_toNat_lt, ← UInt8.toNat_inj, toNat_byte hn]
  rfl

theorem decodeChars_one {v : Nat} (hv : v < 0x80) (rest : Bytes) :
    decodeChars (UInt8.ofNat v :: rest) = Char.ofNat v :: decodeChars rest := by
  have hlead : tailRanges (UInt8.ofNat v) = some [] := by
    rw [tailRanges_byte (by omega), if_pos hv]
  have hdecoded := decodeChars_character hlead .nil rest
  have hnat : (UInt8.ofNat v).toNat = v := toNat_byte (by omega)
  simpa [scalar, hnat] using hdecoded

theorem decodeChars_two {v : Nat} (hlow : 0x80 ≤ v) (hhigh : v < 0x800) (rest : Bytes) :
    decodeChars (UInt8.ofNat (v / 64 % 32 + 192) :: UInt8.ofNat (v % 64 + 128) :: rest)
      = Char.ofNat v :: decodeChars rest := by
  have hlead : tailRanges (UInt8.ofNat (v / 64 % 32 + 192)) = some [(0x80, 0xBF)] := by
    rw [tailRanges_byte (by omega), if_neg (by omega), if_neg (by omega), if_pos (by omega)]
  have hdecoded := decodeChars_character hlead (.sixBits v .nil) rest
  have hfirst : (UInt8.ofNat (v / 64 % 32 + 192)).toNat % 32 = v / 64 := by
    rw [toNat_byte (by omega)]
    omega
  have hv : 64 * (v / 64) + v % 64 = v := by omega
  refine hdecoded.trans ?_
  simp only [scalar, List.length_singleton, List.foldl_cons, List.foldl_nil, hfirst, toNat_sixBits,
    hv]

/-- Overlong forms and surrogates apart, two bytes follow a lead byte of this class. -/
theorem within_three {v : Nat} (hlow : 0x800 ≤ v) (hhigh : v < 0x10000)
    (hvalid : v < 0xD800 ∨ 0xDFFF < v) :
    ∃ ranges, tailRanges (UInt8.ofNat (v / 4096 % 16 + 224)) = some ranges ∧
      Within ranges [UInt8.ofNat (v / 64 % 64 + 128), UInt8.ofNat (v % 64 + 128)] := by
  rw [tailRanges_byte (by omega), if_neg (by omega), if_neg (by omega), if_neg (by omega)]
  by_cases he0 : v / 4096 % 16 + 224 = 0xE0
  · rw [if_pos he0]
    exact ⟨_, rfl, .byte 0xA0 0xBF (by omega) (by omega) (by decide) (.sixBits v .nil)⟩
  by_cases hed : v / 4096 % 16 + 224 = 0xED
  · rw [if_neg he0, if_pos hed]
    exact ⟨_, rfl, .byte 0x80 0x9F (by omega) (by omega) (by decide) (.sixBits v .nil)⟩
  · rw [if_neg he0, if_neg hed, if_pos (by omega)]
    exact ⟨_, rfl, .sixBits (v / 64) (.sixBits v .nil)⟩

theorem decodeChars_three {v : Nat} (hlow : 0x800 ≤ v) (hhigh : v < 0x10000)
    (hvalid : v < 0xD800 ∨ 0xDFFF < v) (rest : Bytes) :
    decodeChars (UInt8.ofNat (v / 4096 % 16 + 224) :: UInt8.ofNat (v / 64 % 64 + 128)
        :: UInt8.ofNat (v % 64 + 128) :: rest)
      = Char.ofNat v :: decodeChars rest := by
  obtain ⟨ranges, hlead, hwithin⟩ := within_three hlow hhigh hvalid
  have hfirst : (UInt8.ofNat (v / 4096 % 16 + 224)).toNat % 16 = v / 4096 := by
    rw [toNat_byte (by omega)]
    omega
  have hv : 64 * (64 * (v / 4096) + v / 64 % 64) + v % 64 = v := by omega
  refine (decodeChars_character hlead hwithin rest).trans ?_
  simp only [scalar, List.length_cons, List.length_nil, List.foldl_cons, List.foldl_nil, hfirst,
    toNat_sixBits, hv]

/-- Overlong forms and values beyond the last code point apart, three bytes follow. -/
theorem within_four {v : Nat} (hlow : 0x10000 ≤ v) (hhigh : v < 0x110000) :
    ∃ ranges, tailRanges (UInt8.ofNat (v / 262144 % 8 + 240)) = some ranges ∧
      Within ranges [UInt8.ofNat (v / 4096 % 64 + 128), UInt8.ofNat (v / 64 % 64 + 128),
        UInt8.ofNat (v % 64 + 128)] := by
  have hrest := Within.sixBits (v / 64) (.sixBits v .nil)
  rw [tailRanges_byte (by omega), if_neg (by omega), if_neg (by omega), if_neg (by omega),
    if_neg (by omega), if_neg (by omega), if_neg (by omega)]
  by_cases hf0 : v / 262144 % 8 + 240 = 0xF0
  · rw [if_pos hf0]
    exact ⟨_, rfl, .byte 0x90 0xBF (by omega) (by omega) (by decide) hrest⟩
  by_cases hf4 : v / 262144 % 8 + 240 < 0xF4
  · rw [if_neg hf0, if_pos hf4]
    exact ⟨_, rfl, .sixBits (v / 4096) hrest⟩
  · rw [if_neg hf0, if_neg hf4, if_pos (by omega)]
    exact ⟨_, rfl, .byte 0x80 0x8F (by omega) (by omega) (by decide) hrest⟩

theorem decodeChars_four {v : Nat} (hlow : 0x10000 ≤ v) (hhigh : v < 0x110000) (rest : Bytes) :
    decodeChars (UInt8.ofNat (v / 262144 % 8 + 240) :: UInt8.ofNat (v / 4096 % 64 + 128)
        :: UInt8.ofNat (v / 64 % 64 + 128) :: UInt8.ofNat (v % 64 + 128) :: rest)
      = Char.ofNat v :: decodeChars rest := by
  obtain ⟨ranges, hlead, hwithin⟩ := within_four hlow hhigh
  have hfirst : (UInt8.ofNat (v / 262144 % 8 + 240)).toNat % 8 = v / 262144 := by
    rw [toNat_byte (by omega)]
    omega
  have hv : 64 * (64 * (64 * (v / 262144) + v / 4096 % 64) + v / 64 % 64) + v % 64 = v := by
    omega
  refine (decodeChars_character hlead hwithin rest).trans ?_
  simp only [scalar, List.length_cons, List.length_nil, List.foldl_cons, List.foldl_nil, hfirst,
    toNat_sixBits, hv]

theorem decodeChars_utf8EncodeChar (c : Char) (rest : Bytes) :
    decodeChars (String.utf8EncodeChar c ++ rest) = c :: decodeChars rest := by
  have hvalid : c.val.toNat < 0xD800 ∨ 0xDFFF < c.val.toNat ∧ c.val.toNat < 0x110000 := c.valid
  have hc : c = Char.ofNat c.val.toNat := (Char.ofNat_toNat c).symm
  rw [congrArg (· :: decodeChars rest) hc]
  simp only [String.utf8EncodeChar]
  generalize c.val.toNat = v at hvalid ⊢
  by_cases hone : v ≤ 127
  · rw [if_pos hone]
    exact decodeChars_one (by omega) rest
  rw [if_neg hone]
  by_cases htwo : v ≤ 2047
  · rw [if_pos htwo]
    exact decodeChars_two (by omega) (by omega) rest
  rw [if_neg htwo]
  by_cases hthree : v ≤ 65535
  · rw [if_pos hthree]
    exact decodeChars_three (by omega) (by omega) (by omega) rest
  · rw [if_neg hthree]
    exact decodeChars_four (by omega) (by omega) rest

theorem decodeChars_flatMap (cs : List Char) :
    decodeChars (cs.flatMap String.utf8EncodeChar) = cs := by
  induction cs with
  | nil => simp [decodeChars]
  | cons c cs ih => rw [List.flatMap_cons, decodeChars_utf8EncodeChar, ih]

/-- Reading loses nothing of a text that was written. -/
@[simp] theorem decode_encode (s : String) : decode (encode s) = s := by
  rw [decode, encode, decodeChars_flatMap, String.ofList_toList]

/-- A byte below 0x80 is never a part of a longer form. -/
theorem toNat_of_mem_utf8EncodeChar {c : Char} {b : UInt8} (hb : b.toNat < 0x80)
    (h : b ∈ String.utf8EncodeChar c) : c.toNat = b.toNat := by
  have hvalid : c.val.toNat < 0xD800 ∨ 0xDFFF < c.val.toNat ∧ c.val.toNat < 0x110000 := c.valid
  have hbyte : ∀ n, n < 256 → b = UInt8.ofNat n → b.toNat = n := by
    rintro n hn rfl
    exact toNat_byte hn
  change c.val.toNat = b.toNat
  simp only [String.utf8EncodeChar] at h
  generalize c.val.toNat = v at hvalid h ⊢
  by_cases hone : v ≤ 127
  · rw [if_pos hone, List.mem_singleton] at h
    exact (hbyte v (by omega) h).symm
  -- all bytes of the longer forms are at least 0x80
  rw [if_neg hone] at h
  by_cases htwo : v ≤ 2047
  · rw [if_pos htwo] at h
    simp only [List.mem_cons, List.not_mem_nil, or_false] at h
    obtain h | h := h <;> have := hbyte _ (by omega) h <;> omega
  rw [if_neg htwo] at h
  by_cases hthree : v ≤ 65535
  · rw [if_pos hthree] at h
    simp only [List.mem_cons, List.not_mem_nil, or_false] at h
    obtain h | h | h := h <;> have := hbyte _ (by omega) h <;> omega
  · rw [if_neg hthree] at h
    simp only [List.mem_cons, List.not_mem_nil, or_false] at h
    obtain h | h | h | h := h <;> have := hbyte _ (by omega) h <;> omega

theorem mem_of_mem_encode {s : String} {b : UInt8} {c : Char} (hb : b.toNat < 0x80)
    (hc : c.toNat = b.toNat) (h : b ∈ encode s) : c ∈ s.toList := by
  obtain ⟨d, hd, hmem⟩ := List.mem_flatMap.1 h
  have hsame := toNat_of_mem_utf8EncodeChar hb hmem
  have hcd : c = d := by rw [← Char.ofNat_toNat c, ← Char.ofNat_toNat d, hc, hsame]
  rwa [hcd]

theorem decode_eq_empty_iff {bs : Bytes} : decode bs = "" ↔ bs = [] := by
  constructor
  · intro h
    have hnil : decodeChars bs = [] := by
      have := congrArg String.toList h
      simpa [decode] using this
    cases bs with
    | nil => rfl
    | cons b bs =>
      rw [decodeChars] at hnil
      split at hnil <;> cases hnil
  · rintro rfl
    simp [decode, decodeChars]

end HttpOrigin.Text
