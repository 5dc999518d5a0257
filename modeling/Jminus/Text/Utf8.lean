/-!
Reading bytes as text.

A source file is bytes. Where they are no well-formed UTF-8 the reading does not fail: each byte
that starts no well-formed sequence stands for one U+FFFD.
-/
namespace Jminus.Text.Utf8

def replacement : Char := Char.ofNat 0xFFFD

def isTrail (b : UInt8) : Bool := 0x80 ≤ b && b ≤ 0xBF

def low (b : UInt8) : Nat := b.toNat % 64

/-- The second bytes that may follow a lead byte of three or four bytes: they rule out longer
spellings of small numbers, surrogates and numbers past the last code point. -/
def isSecond (lead b : UInt8) : Bool :=
  if lead = 0xE0 then 0xA0 ≤ b && b ≤ 0xBF
  else if lead = 0xED then 0x80 ≤ b && b ≤ 0x9F
  else if lead = 0xF0 then 0x90 ≤ b && b ≤ 0xBF
  else if lead = 0xF4 then 0x80 ≤ b && b ≤ 0x8F
  else isTrail b

/-- The character at the front and the number of bytes behind its first one. -/
def first (lead : UInt8) (bs : List UInt8) : Char × Nat :=
  if lead < 0x80 then (Char.ofNat lead.toNat, 0)
  else match bs with
  | b :: bs =>
    if 0xC2 ≤ lead && lead ≤ 0xDF && isTrail b then
      (Char.ofNat ((lead.toNat % 32) * 64 + low b), 1)
    else match bs with
    | c :: bs =>
      if 0xE0 ≤ lead && lead ≤ 0xEF && isSecond lead b && isTrail c then
        (Char.ofNat ((lead.toNat % 16) * 4096 + low b * 64 + low c), 2)
      else match bs with
      | d :: _ =>
        if 0xF0 ≤ lead && lead ≤ 0xF4 && isSecond lead b && isTrail c && isTrail d then
          (Char.ofNat ((lead.toNat % 8) * 262144 + low b * 4096 + low c * 64 + low d), 3)
        else (replacement, 0)
      | [] => (replacement, 0)
    | [] => (replacement, 0)
  | [] => (replacement, 0)

def decode : List UInt8 → List Char
  | [] => []
  | lead :: bs => (first lead bs).1 :: decode (bs.drop (first lead bs).2)
termination_by bs => bs.length
decreasing_by simp only [List.length_drop, List.length_cons]; omega

/-- The text that bytes stand for. -/
def text (bytes : List UInt8) : String := String.ofList (decode bytes)

end Jminus.Text.Utf8
