import Jminus.Tree

/-!
The types of the language.

Classes are a closed tree under `Object`. The type `any` is given to what could not be typed; it
fits everywhere, so that one mistake is reported once.
-/
namespace Jminus

inductive Class where
  | object | string | throwable | exception | error | ioException | runtimeException
  | arithmeticException | nullPointerException | illegalArgumentException
  | illegalStateException
  deriving DecidableEq, Repr

namespace Class

def all : List Class :=
  [.object, .string, .throwable, .exception, .error, .ioException, .runtimeException,
   .arithmeticException, .nullPointerException, .illegalArgumentException,
   .illegalStateException]

def name : Class → String
  | .object => "Object"
  | .string => "String"
  | .throwable => "Throwable"
  | .exception => "Exception"
  | .error => "Error"
  | .ioException => "IOException"
  | .runtimeException => "RuntimeException"
  | .arithmeticException => "ArithmeticException"
  | .nullPointerException => "NullPointerException"
  | .illegalArgumentException => "IllegalArgumentException"
  | .illegalStateException => "IllegalStateException"

/-- The package, with a slash behind each part. -/
def folder : Class → String
  | .ioException => "java/io/"
  | _ => "java/lang/"

def path (c : Class) : String := c.folder ++ c.name

def dots (cs : List Char) : String := String.ofList (cs.map fun c => if c = '/' then '.' else c)

/-- The full name with points, as source text refers to a class. -/
def dotted : Class → String
  | .object => "java.lang.Object"
  | .string => "java.lang.String"
  | .throwable => "java.lang.Throwable"
  | .exception => "java.lang.Exception"
  | .error => "java.lang.Error"
  | .ioException => "java.io.IOException"
  | .runtimeException => "java.lang.RuntimeException"
  | .arithmeticException => "java.lang.ArithmeticException"
  | .nullPointerException => "java.lang.NullPointerException"
  | .illegalArgumentException => "java.lang.IllegalArgumentException"
  | .illegalStateException => "java.lang.IllegalStateException"

def parent? : Class → Option Class
  | .object => none
  | .string => some .object
  | .throwable => some .object
  | .exception => some .throwable
  | .error => some .throwable
  | .ioException => some .exception
  | .runtimeException => some .exception
  | .arithmeticException => some .runtimeException
  | .nullPointerException => some .runtimeException
  | .illegalArgumentException => some .runtimeException
  | .illegalStateException => some .runtimeException

def ancestors : Class → List Class
  | .object => [.object]
  | .string => [.string, .object]
  | .throwable => [.throwable, .object]
  | .exception => [.exception, .throwable, .object]
  | .error => [.error, .throwable, .object]
  | .ioException => [.ioException, .exception, .throwable, .object]
  | .runtimeException => [.runtimeException, .exception, .throwable, .object]
  | .arithmeticException =>
    [.arithmeticException, .runtimeException, .exception, .throwable, .object]
  | .nullPointerException =>
    [.nullPointerException, .runtimeException, .exception, .throwable, .object]
  | .illegalArgumentException =>
    [.illegalArgumentException, .runtimeException, .exception, .throwable, .object]
  | .illegalStateException =>
    [.illegalStateException, .runtimeException, .exception, .throwable, .object]

def isSubclassOf (c d : Class) : Bool := c.ancestors.contains d

/-- The class with a simple or dotted name. -/
def ofName? (text : String) : Option Class :=
  all.find? fun c => c.name == text || c.dotted == text

/-- The class that code means by a name, which may have slashes or points. -/
def ofPath? (cs : List Char) : Option Class := ofName? (dots cs)

end Class

inductive Ty where
  | int | long | double | boolean | char | void | null | any
  | ref (c : Class)
  deriving DecidableEq, Repr

namespace Ty

def name : Ty → String
  | .int => "int"
  | .long => "long"
  | .double => "double"
  | .boolean => "boolean"
  | .char => "char"
  | .void => "void"
  | .null => "null"
  | .any => "<any>"
  | .ref c => c.name

def primitives : List Ty := [.int, .long, .double, .boolean, .char, .void]

/-- The type that source text means by a name, simple or qualified. -/
def ofName? (text : String) : Option Ty :=
  match primitives.find? (·.name == text) with
  | some t => some t
  | none => (Class.ofName? text).map .ref

/-- Also the types that have no name in source text. -/
def ofAnyName? (text : String) : Option Ty :=
  if text == Ty.null.name then some .null
  else if text == Ty.any.name then some .any
  else ofName? text

/-- The name of the class in code; other types have none. -/
def path : Ty → String
  | .ref c => c.path
  | _ => ""

def parent? : Ty → Option Ty
  | .ref c => c.parent?.map .ref
  | _ => none

def isClass : Ty → Bool
  | .ref _ => true
  | _ => false

def isPrimitive : Ty → Bool
  | .int | .long | .double | .boolean | .char => true
  | _ => false

def isReference : Ty → Bool
  | .ref _ | .null => true
  | _ => false

def isNumeric : Ty → Bool
  | .int | .long | .double => true
  | _ => false

def isIntegral : Ty → Bool
  | .int | .long => true
  | _ => false

/-- Values of these types are ints on the operand stack. -/
def isIntLike : Ty → Bool
  | .int | .boolean | .char => true
  | _ => false

def isSubclassOf : Ty → Ty → Bool
  | .ref c, .ref d => c.isSubclassOf d
  | s, t => s = t

def isThrowable : Ty → Bool
  | .ref c => c.isSubclassOf .throwable
  | _ => false

/-- A value of type `s` may be stored in a variable of type `t`. -/
def assignableTo (s t : Ty) : Bool :=
  s = .any || t = .any || s = t ||
    match s, t with
    | .null, .ref _ => true
    | .ref c, .ref d => c.isSubclassOf d
    | _, _ => false

/-- The type of an operation and the type in which its operands are computed, unless the operands
do not fit. What is no binary operator combines nothing but `any`. -/
def binary (op : Option BinaryOp) (left right : Ty) : Option (Ty × Ty) :=
  if left = .any || right = .any then some (.any, .any)
  else if left = .void || right = .void then none
  else match op with
  | none => none
  | some (.compute (.arith op)) =>
    if op = .add && (left = .ref .string || right = .ref .string) then
      some (.ref .string, .ref .string)
    else if left = right && left.isNumeric then some (left, left)
    else none
  | some (.compute (.bit _)) =>
    if left = right && (left.isIntegral || left = .boolean) then some (left, left) else none
  | some (.compute (.shift _)) =>
    if left.isIntegral && right = .int then some (left, left) else none
  | some (.compare op) =>
    if op = .eq || op = .ne then
      if left = right && left.isPrimitive then some (.boolean, left)
      else if left.isReference && right.isReference &&
          (left.assignableTo right || right.assignableTo left) then
        some (.boolean, .ref .object)
      else none
    else if left = right && (left.isNumeric || left = .char) then some (.boolean, left)
    else none

/-- The type of `c ? a : b`, from the types of `a` and `b`. -/
def conditional (thenType elseType : Ty) : Option Ty :=
  if elseType.assignableTo thenType && thenType ≠ .null then some thenType
  else if thenType.assignableTo elseType then some elseType
  else none

def unary (op : UnaryOp) (t : Ty) : Bool :=
  match op with
  | .neg => t.isNumeric
  | .not => t = .boolean
  | .complement => t.isIntegral

end Ty

end Jminus
