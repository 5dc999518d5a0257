import Jminus.Decimal.Binary

/-!
The fewest digits that read back as the same double.

The reals nearer to `m · 2 ^ q` than to any other double make up an interval, whose ends belong to
it if `m` is even. On the grid of all numbers with `n` digits only the two neighbours of the value
matter: if any grid point lies in the interval then one of them does. The first grid with a hit
gives the fewest digits; of two hits the nearer is taken, and at a tie the even one.
-/
namespace Jminus.Decimal

/-- `0.d₁d₂… · 10 ^ (point + 1)`: the digits, and the power of ten that the first one counts. -/
structure Numeral where
  digits : List Char
  point : Int
  deriving DecidableEq, Repr

/-- Four times a value and the ends of its interval, over one denominator. -/
structure Span where
  low : Nat
  value : Nat
  high : Nat
  den : Nat
  closed : Bool
  deriving DecidableEq, Repr

/-- The interval of `m · 2 ^ q`. Below a power of two the next double is only half as far. -/
def Span.of (m : Nat) (q : Int) : Span :=
  let below := if m = Nat.pow 2 52 ∧ -1074 < q then 1 else 2
  let scale := Nat.pow 2 q.toNat
  { low := (4 * m - below) * scale
    value := 4 * m * scale
    high := (4 * m + 2) * scale
    den := 4 * Nat.pow 2 (-q).toNat
    closed := m % 2 = 0 }

/-- `10 ^ e` is not above `num / den`. -/
def reaches (num den : Nat) (e : Int) : Bool :=
  if e < 0 then den ≤ num * Nat.pow 10 (-e).toNat else den * Nat.pow 10 e.toNat ≤ num

/-- The power of ten of the first digit of `num / den`. The powers of two tell it up to one, since
`log₁₀ 2` is close to `1233 / 4096`. -/
def leading (num den : Nat) : Int :=
  let guess := ((num.log2 : Int) - den.log2 - 1) * 1233 / 4096
  if reaches num den (guess + 1) then guess + 1
  else if reaches num den guess then guess
  else guess - 1

def Span.inSteps (s : Span) (e : Int) : Span :=
  let scale := Nat.pow 10 (-e).toNat
  { s with
    low := s.low * scale
    value := s.value * scale
    high := s.high * scale
    den := s.den * Nat.pow 10 e.toNat }

/-- The multiple of `step` that reads back as the value, counted in steps. -/
def hit? (s : Span) (step : Nat) : Option Nat :=
  let unit := s.den * step
  let down := s.value / unit
  let up := down + 1
  let downFits := if s.closed then s.low ≤ down * unit else s.low < down * unit
  let upFits := if s.closed then up * unit ≤ s.high else up * unit < s.high
  if downFits ∧ upFits then
    let rest := s.value % unit
    some (if 2 * rest < unit ∨ (2 * rest = unit ∧ down % 2 = 0) then down else up)
  else if downFits then some down
  else if upFits then some up
  else none

/-- Tries the multiples of `10 ^ k`, then of smaller powers of ten. The answer is a multiple and its
power. -/
def search (s : Span) : Nat → Nat × Nat
  | 0 => ((hit? s 1).getD (s.value / s.den), 0)
  | k + 1 =>
    match hit? s (Nat.pow 10 (k + 1)) with
    | some d => (d, k + 1)
    | none => search s k

def trimZeros (digits : List Char) : List Char := (digits.reverse.dropWhile (· = '0')).reverse

/-- The shortest decimal of `m · 2 ^ q`. Seventeen digits always read back, so that the grid of
numbers with seventeen is the finest to look at. -/
def shortest (m : Nat) (q : Int) : Numeral :=
  if m = 0 then { digits := ['0'], point := 0 }
  else
    let s := Span.of m q
    let finest := leading s.value s.den - 16
    let (d, k) := search (s.inSteps finest) 16
    let digits := Nat.toDigits 10 d
    { digits := trimZeros digits, point := finest + k + digits.length - 1 }

end Jminus.Decimal
