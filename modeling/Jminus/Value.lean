import Jminus.Method

/-!
Values at run time.

The number of a local and a method are values too: they occur as arguments of instructions, and a
constant may be any argument.
-/
namespace Jminus

/-- What tells objects, and methods as values, apart. Those that stand in code as constants and
those that a run makes are numbered on their own. -/
inductive Identity where
  | constant (n : Nat)
  | made (n : Nat)
  deriving DecidableEq, Repr

inductive Value where
  | null
  | int (n : Int32)
  | long (n : Int64)
  | double (x : Float)
  | string (s : String)
  | object (id : Identity) (c : Class)
  | slot (n : Int)
  | method (id : Identity) (m : Method)
  deriving Repr, Inhabited

namespace Value

def kind : Value → String
  | .null => "<nil>"
  | .int _ => "int32"
  | .long _ => "int64"
  | .double _ => "float64"
  | .string _ => "string"
  | .object .. => "*internal.object"
  | .slot _ => "int"
  | .method .. => "*internal.methodRef"

/-- What a comparison of references takes for the same: equal numbers of one kind, equal texts,
and objects or methods with one identity. A double that is not a number differs from itself. -/
def same : Value → Value → Bool
  | .null, .null => true
  | .int a, .int b => a == b
  | .long a, .long b => a == b
  | .double a, .double b => a == b
  | .string a, .string b => a == b
  | .object a _, .object b _ => a = b
  | .slot a, .slot b => a == b
  | .method a _, .method b _ => a = b
  | _, _ => false

def ofBool (b : Bool) : Value := .int (if b then 1 else 0)

end Value

end Jminus
