/-!
Whole numbers as a user may write them: a sign, a base mark and digits.

`0x`, `0o` and `0b` stand for the bases sixteen, eight and two, and a plain `0` before other digits
for eight. One underscore may stand between two digits, and behind the base mark.
-/
namespace Jminus.Text.Numeral

inductive Refusal where
  | malformed
  | outOfRange
  deriving DecidableEq, Repr

def digit? (c : Char) : Option Nat :=
  if c.isDigit then some (c.toNat - '0'.toNat)
  else if 'a' ≤ c ∧ c ≤ 'z' then some (c.toNat - 'a'.toNat + 10)
  else if 'A' ≤ c ∧ c ≤ 'Z' then some (c.toNat - 'A'.toNat + 10)
  else none

/-- The base and the text behind its mark. -/
def base (cs : List Char) : Nat × List Char :=
  match cs with
  | '0' :: m :: rest =>
    if rest ≠ [] && (m = 'x' || m = 'X') then (16, rest)
    else if rest ≠ [] && (m = 'o' || m = 'O') then (8, rest)
    else if rest ≠ [] && (m = 'b' || m = 'B') then (2, rest)
    else (8, m :: rest)
  | cs => (10, cs)

/-- The value of digits in a base. Underscores are passed over. A number that no longer fits into
64 bits is refused at once, whatever follows. -/
def value (base : Nat) : Nat → List Char → Except Refusal Nat
  | n, [] => .ok n
  | n, '_' :: cs => value base n cs
  | n, c :: cs =>
    match digit? c with
    | none => .error .malformed
    | some d =>
      if base ≤ d then .error .malformed
      else if Nat.pow 2 64 ≤ n * base + d then .error .outOfRange
      else value base (n * base + d) cs

/-- What stood before a character: nothing, a digit or base mark, an underscore, or else. -/
inductive Before where
  | start | digit | underscore | other
  deriving DecidableEq, Repr

/-- Every underscore has a digit or the base mark before it and a digit behind it. -/
def spaced (hex : Bool) : Before → List Char → Bool
  | before, [] => before ≠ .underscore
  | before, c :: cs =>
    if c.isDigit || (hex && ('a' ≤ c.toLower && c.toLower ≤ 'f')) then spaced hex .digit cs
    else if c = '_' then before = .digit && spaced hex .underscore cs
    else before ≠ .underscore && spaced hex .other cs

def wellSpaced (cs : List Char) : Bool :=
  match cs with
  | '0' :: m :: rest =>
    if m.toLower = 'b' || m.toLower = 'o' || m.toLower = 'x' then
      spaced (m.toLower = 'x') .digit rest
    else spaced false .start cs
  | cs => spaced false .start cs

def signed (text : List Char) : Bool × List Char :=
  match text with
  | '-' :: cs => (true, cs)
  | '+' :: cs => (false, cs)
  | cs => (false, cs)

/-- The number that a text stands for, if it fits into 64 bits with its sign. -/
def read (text : String) : Except Refusal Int := do
  let (negative, cs) := signed text.toList
  if cs = [] then throw .malformed
  let (b, digits) := base cs
  let n ← value b 0 digits
  if cs.contains '_' && !wellSpaced cs then throw .malformed
  if negative then
    if n ≤ Nat.pow 2 63 then return -n else throw .outOfRange
  else
    if n < Nat.pow 2 63 then return n else throw .outOfRange

end Jminus.Text.Numeral
