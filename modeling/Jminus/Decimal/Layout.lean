import Jminus.Decimal.Shortest

/-!
How a decimal is laid out: with all its places, or as a mantissa and a power of ten.
-/
namespace Jminus.Decimal

structure Layout where
  /-- The least power of ten of a first digit that is still written with all places. -/
  least : Int
  /-- The first power of ten that is not. -/
  most : Int
  /-- A whole number keeps one zero behind its point. -/
  keepsPoint : Bool
  /-- Stands before the power of ten. -/
  mark : String
  /-- The sign of a power of ten that is not negative. -/
  plus : String
  nan : String
  infinity : String
  negativeInfinity : String

namespace Layout

/-- Digits before and behind the point. -/
def pointed (layout : Layout) (whole fraction : List Char) : List Char :=
  if fraction.isEmpty then if layout.keepsPoint then whole ++ ['.', '0'] else whole
  else whole ++ '.' :: fraction

def positional (layout : Layout) (d : Numeral) : List Char :=
  if d.point < 0 then
    pointed layout ['0'] (List.replicate (-d.point - 1).toNat '0' ++ d.digits)
  else
    let n := d.point.toNat + 1
    pointed layout (d.digits.take n ++ List.replicate (n - d.digits.length) '0') (d.digits.drop n)

/-- A power of ten has at least two digits. -/
def power (layout : Layout) (e : Int) : List Char :=
  let digits := Nat.toDigits 10 e.natAbs
  (if e < 0 then ['-'] else layout.plus.toList) ++
    List.replicate (2 - digits.length) '0' ++ digits

def scientific (layout : Layout) (d : Numeral) : List Char :=
  pointed layout (d.digits.take 1) (d.digits.drop 1) ++ layout.mark.toList ++
    layout.power d.point

def magnitude (layout : Layout) (d : Numeral) : List Char :=
  if layout.least ≤ d.point && d.point < layout.most then layout.positional d
  else layout.scientific d

def render (layout : Layout) (x : Float) : String :=
  match Parts.ofFloat x with
  | .nan => layout.nan
  | .infinite true => layout.negativeInfinity
  | .infinite false => layout.infinity
  | .finite negative m q =>
    (if negative then "-" else "") ++ String.ofList (layout.magnitude (shortest m q))

end Layout

end Jminus.Decimal
