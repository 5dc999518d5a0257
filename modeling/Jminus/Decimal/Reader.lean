import Jminus.Decimal.Binary

/-!
Numerals: the number that digits stand for.
-/
namespace Jminus.Decimal

def digitValue (c : Char) : Nat := c.toNat - '0'.toNat

/-- The number that a row of digits stands for. -/
def natOf (digits : List Char) : Nat := digits.foldl (fun n c => 10 * n + digitValue c) 0

def unsign : List Char → Bool × List Char
  | '-' :: cs => (true, cs)
  | cs => (false, cs)

def integerOf (cs : List Char) : Int :=
  let (negative, digits) := unsign cs
  if negative then -(natOf digits : Int) else natOf digits

/-- The size of a power of ten. Once it has come to ten thousand it is out of reach, and the digits
behind are not counted. -/
def powerSize (digits : List Char) : Nat :=
  digits.foldl (fun n c => if n < 10000 then 10 * n + digitValue c else n) 0

/-- A power of ten behind its mark: a sign, if there is one, and at least one digit. -/
def powerOf? (cs : List Char) : Option Int :=
  let (negative, digits) :=
    match cs with
    | '+' :: cs => (false, cs)
    | cs => unsign cs
  if digits.isEmpty then none
  else if negative then some (-(powerSize digits : Int)) else some (powerSize digits)

def significant (digits : List Char) : List Char := digits.dropWhile (· = '0')

/-- How many digits are looked at first. -/
def leadLength : Nat := 19

/-- How many digits count before the point when all of them are weighed. -/
def wholeLimit : Nat := 800

/-- The bits of the double for the digits before and behind a point and a power of ten, unless it is
too large. The leading digits settle it when nothing but zeros follows them, or when the number
that they make and the next one have the same double. Otherwise all digits are weighed, and then
those before the point shift it by `wholeLimit` places at most. -/
def digitBits? (whole fraction : List Char) (power : Int) : Option Nat :=
  let digits := significant (whole ++ fraction)
  let e := power - fraction.length
  let rest := digits.drop leadLength
  let lead := natOf (digits.take leadLength)
  let settled := scaledBits? lead (e + rest.length)
  if rest.all (· = '0') || settled = scaledBits? (lead + 1) (e + rest.length) then settled
  else scaledBits? (natOf digits) (e - ((significant whole).length - wholeLimit : Nat))

/-- The double for a numeral of digits with a point, a power of ten, both or neither. Numerals that
are too large, or whose power has no digits, stand for none. -/
def floatOf? (cs : List Char) : Option Float :=
  let (negative, cs) := unsign cs
  let isMark (c : Char) : Bool := c = 'e' || c = 'E'
  let mantissa := cs.takeWhile (!isMark ·)
  let whole := mantissa.takeWhile (· != '.')
  let fraction := (mantissa.dropWhile (· != '.')).drop 1
  let power? :=
    match cs.dropWhile (!isMark ·) with
    | [] => some 0
    | _ :: behind => powerOf? behind
  power?.bind fun power => (digitBits? whole fraction power).map (floatOf negative)

end Jminus.Decimal
