/-!
Doubles as exact numbers.

A finite double is `m · 2 ^ q` with whole `m` below `2 ^ 53` and `q` not below -1074. Reading its
bits and finding the double nearest to a fraction are whole number arithmetic.
-/
namespace Jminus.Decimal

inductive Parts where
  | nan
  | infinite (negative : Bool)
  | finite (negative : Bool) (m : Nat) (q : Int)
  deriving DecidableEq, Repr

namespace Parts

def ofBits (bits : Nat) : Parts :=
  let negative : Bool := bits / Nat.pow 2 63 % 2 = 1
  let field : Nat := bits / Nat.pow 2 52 % 2048
  let fraction : Nat := bits % Nat.pow 2 52
  if field = 2047 then if fraction = 0 then .infinite negative else .nan
  else if field = 0 then .finite negative fraction (-1074)
  else .finite negative (fraction + Nat.pow 2 52) ((field : Int) - 1075)

def ofFloat (x : Float) : Parts := ofBits x.toBits.toNat

end Parts

def infinityBits : Nat := 2047 * Nat.pow 2 52

/-- `num / den` as a whole number, to the nearest, and a half to the even neighbour. -/
def roundDiv (num den : Nat) : Nat :=
  let quot := num / den
  let rest := num % den
  if 2 * rest < den then quot
  else if den < 2 * rest then quot + 1
  else quot + quot % 2

/-- `num / den` in units of `2 ^ q`. -/
def inUnits (num den : Nat) (q : Int) : Nat × Nat :=
  if q < 0 then (num * Nat.pow 2 (-q).toNat, den) else (num, den * Nat.pow 2 q.toNat)

/-- The bits of the double nearest to `num / den`; from `infinityBits` on it is too large to be
one. Since `m` below `2 ^ 52` occurs with the least `q` only, the bits of `m · 2 ^ q` are
`(q + 1074) · 2 ^ 52 + m`, also where rounding carries into the next `q`. -/
def nearestBits (num den : Nat) : Nat :=
  if num = 0 then 0
  else
    let low := max (-1074) ((num.log2 : Int) - den.log2 - 53)
    let (a, b) := inUnits num den low
    let q := if Nat.pow 2 53 ≤ a / b then low + 1 else low
    let (a, b) := inUnits num den q
    (q + 1074).toNat * Nat.pow 2 52 + roundDiv a b

/-- The double with a sign and the bits of its magnitude. -/
def floatOf (negative : Bool) (bits : Nat) : Float :=
  Float.ofBits ((if negative then Nat.pow 2 63 else 0) + bits).toUInt64

/-- The bits of the double nearest to `digits · 10 ^ e`, unless it is too large. Far below the least
double the answer is zero at once. -/
def scaledBits? (digits : Nat) (e : Int) : Option Nat :=
  let size : Int := (Nat.toDigits 10 digits).length + e
  if digits = 0 || size < -330 then some 0
  else if 310 < size then none
  else
    let bits :=
      if e < 0 then nearestBits digits (Nat.pow 10 (-e).toNat)
      else nearestBits (digits * Nat.pow 10 e.toNat) 1
    if infinityBits ≤ bits then none else some bits

/-- The remainder of a division toward zero, which is exact and has the sign of the dividend. -/
def remainder (a b : Float) : Float :=
  let nan : Float := 0.0 / 0.0
  match Parts.ofFloat a, Parts.ofFloat b with
  | .finite negative m q, .finite _ n r =>
    if n = 0 then nan
    else
      let low := min q r
      let rest := (m * Nat.pow 2 (q - low).toNat) % (n * Nat.pow 2 (r - low).toNat)
      let (num, den) := inUnits rest 1 (-low)
      floatOf negative (nearestBits num den)
  | .finite .., .infinite _ => a
  | _, _ => nan

end Jminus.Decimal
