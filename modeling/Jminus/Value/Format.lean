import Jminus.Decimal.Layout
import Jminus.Fault
import Jminus.Value

/-!
Values as text: as the language prints them, and as a listing shows them.
-/
namespace Jminus

/-- Doubles as the language prints them. -/
def Value.spoken : Decimal.Layout :=
  { least := -3
    most := 7
    keepsPoint := true
    mark := "E"
    plus := ""
    nan := "NaN"
    infinity := "Infinity"
    negativeInfinity := "-Infinity" }

def Value.listed : Decimal.Layout :=
  { least := -4
    most := 6
    keepsPoint := false
    mark := "e"
    plus := "+"
    nan := "NaN"
    infinity := "+Inf"
    negativeInfinity := "-Inf" }

namespace Value

/-- The character with a code; numbers that are none give U+FFFD. -/
def charOf (n : Int32) : Char :=
  if 0 ≤ n.toInt ∧ n.toInt.toNat.isValidChar then Char.ofNat n.toInt.toNat
  else Char.ofNat 0xFFFD

/-- The text of a value of static type `t`. -/
def format (v : Value) (t : Ty) : Except Fault String :=
  match t with
  | .boolean =>
    match v with
    | .int n => .ok (if n = 0 then "false" else "true")
    | _ => .error .wrongKind
  | .char =>
    match v with
    | .int n => .ok (charOf n).toString
    | _ => .error .wrongKind
  | .int =>
    match v with
    | .int n => .ok (toString n.toInt)
    | _ => .error .wrongKind
  | .long =>
    match v with
    | .long n => .ok (toString n.toInt)
    | _ => .error .wrongKind
  | .double =>
    match v with
    | .double x => .ok (spoken.render x)
    | _ => .error .wrongKind
  | t =>
    match v with
    | .null => .ok "null"
    | .string s => .ok s
    | .object _ c => .ok c.dotted
    | v => .error (.cannotFormat v.kind t)

def render : Value → String
  | .null => "<nil>"
  | .int n => toString n.toInt
  | .long n => toString n.toInt
  | .double x => listed.render x
  | .string s => s
  | .object _ c => c.dotted
  | .slot n => toString n
  | .method _ m => m.render

end Value

end Jminus
