import HttpOrigin.Bytes

/-! UTF-8. Reading is lossy: each maximal part of the input that begins a character but cannot be
continued, and each byte that can begin none, is read as one replacement character. -/
namespace HttpOrigin.Text

def encode (s : String) : Bytes := s.toList.flatMap String.utf8EncodeChar

@[simp] theorem encode_append (s t : String) : encode (s ++ t) = encode s ++ encode t := by
  simp [encode]

/-- The ranges that the bytes after a lead byte must lie in, or `none` for a byte that begins no
character. Only the first of them is ever narrower than a full continuation range: it excludes
overlong forms, surrogates and values beyond the last code point. -/
def tailRanges (lead : UInt8) : Option (List (UInt8 × UInt8)) :=
  if lead < 0x80 then some []
  else if lead < 0xC2 then none
  else if lead < 0xE0 then some [(0x80, 0xBF)]
  else if lead = 0xE0 then some [(0xA0, 0xBF), (0x80, 0xBF)]
  else if lead = 0xED then some [(0x80, 0x9F), (0x80, 0xBF)]
  else if lead < 0xF0 then some [(0x80, 0xBF), (0x80, 0xBF)]
  else if lead = 0xF0 then some [(0x90, 0xBF), (0x80, 0xBF), (0x80, 0xBF)]
  else if lead < 0xF4 then some [(0x80, 0xBF), (0x80, 0xBF), (0x80, 0xBF)]
  else if lead = 0xF4 then some [(0x80, 0x8F), (0x80, 0xBF), (0x80, 0xBF)]
  else none

def tail : List (UInt8 × UInt8) → Bytes → Bytes
  | r :: rs, b :: bs => if r.1 ≤ b ∧ b ≤ r.2 then b :: tail rs bs else []
  | _, _ => []

/-- The character of a lead byte and its complete tail: six bits from each byte of the tail, and
from the lead byte what its length marks leave. -/
def scalar (lead : UInt8) (tail : Bytes) : Char :=
  let payload := match tail.length with
    | 0 => lead.toNat
    | 1 => lead.toNat % 32
    | 2 => lead.toNat % 16
    | _ => lead.toNat % 8
  Char.ofNat (tail.foldl (fun n b => 64 * n + b.toNat % 64) payload)

def replacement : Char := '\uFFFD'

def decodeChars : Bytes → List Char
  | [] => []
  | lead :: rest =>
    match tailRanges lead with
    | none => replacement :: decodeChars rest
    | some ranges =>
      let t := tail ranges rest
      (if t.length = ranges.length then scalar lead t else replacement)
        :: decodeChars (rest.drop t.length)
termination_by bs => bs.length
decreasing_by all_goals simp only [List.length_cons, List.length_drop]; omega

def decode (bs : Bytes) : String := String.ofList (decodeChars bs)

end HttpOrigin.Text
