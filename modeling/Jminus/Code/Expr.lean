import Jminus.Checked
import Jminus.Code

/-!
Code of expressions.

An expression has code in two forms: one leaves its value on the stack, one branches on it. Each
construct has one form of its own, and the other is made from it.
-/
namespace Jminus.Checked

/-- The code of an expression in both forms. -/
structure Forms where
  /-- Leaves the value on the stack. -/
  value : Gen Code
  /-- Branches to the label if the value is the given one, and otherwise goes on behind. -/
  cond : Label → Bool → Gen Code

namespace Forms

/-- Pushes 1 or 0 by branching. -/
def materialize (cond : Label → Bool → Gen Code) : Gen Code := do
  let falseLabel ← Code.fresh
  let endLabel ← Code.fresh
  let test ← cond falseLabel false
  return test ++ [Code.ldc (.int 1), Code.goto endLabel, .label falseLabel, Code.ldc (.int 0),
    .label endLabel]

/-- Branches on a value that was pushed. -/
def test (value : Gen Code) (target : Label) (onTrue : Bool) : Gen Code := do
  let code ← value
  return code ++ [.jump (.ifZero (if onTrue then .ne else .eq)) target]

def ofValue (value : Gen Code) : Forms := { value, cond := test value }

def ofCond (cond : Label → Bool → Gen Code) : Forms := { value := materialize cond, cond }

end Forms

def loadLocal (v : Option Local) : Gen Item :=
  match v with
  | some v => return Code.load v.type.cell v.slot
  | none => throw .unresolved

def storeLocal (v : Option Local) : Gen Item :=
  match v with
  | some v => return Code.store v.type.cell v.slot
  | none => throw .unresolved

/-- The opcode of an operator on operands of a type; doubles have neither bits nor shifts. -/
def opcode? (o : Operator) (t : Ty) : Option Opcode :=
  match o, t.num with
  | .arith op, kind => some (.arith kind op)
  | .bit op, .int => some (.bit .int op)
  | .bit op, .long => some (.bit .long op)
  | .shift op, .int => some (.shift .int op)
  | .shift op, .long => some (.shift .long op)
  | _, .double => none

def operator (o : Operator) (left right : Ty) : Gen Item :=
  if o = .arith .add && (left = .ref .string || right = .ref .string) then
    return Code.call (Method.concat left right)
  else
    match opcode? o left with
    | some op => return Code.op op
    | none => throw (.noInstruction o left)

def constant : Option Constant → Item
  | none => Code.op .aconstNull
  | some (.int n) => Code.ldc (.int n)
  | some (.long n) => Code.ldc (.long n)
  | some (.double x) => Code.ldc (.double x)
  | some (.string s) => Code.ldc (.string s)
  | some (.bool b) => Code.ldc (.ofBool b)

def one (t : Ty) : Item :=
  match t.num with
  | .int => Code.ldc (.int 1)
  | .long => Code.ldc (.long 1)
  | .double => Code.ldc (.double 1)

/-- How operands of a type are compared: what comes before the branch, and the branch. A double
that is not a number must fail every relation but `ne`, so it counts as greater where less is
asked for. -/
def comparison (rel : Relation) (operandType : Option Ty) : Code × Branch :=
  match operandType with
  | some .long => ([Code.op .lcmp], .ifZero rel)
  | some .double =>
    if rel = .lt || rel = .le then ([Code.op .dcmpg], .ifZero rel)
    else ([Code.op .dcmpl], .ifZero rel)
  | some t => if t.isIntLike then ([], .ifInt rel) else ([], .ifRef (rel ≠ .ne))
  | none => ([], .ifRef (rel ≠ .ne))

def compare (rel : Relation) (operandType : Option Ty) (left right : Gen Code)
    (target : Label) (onTrue : Bool) : Gen Code := do
  let left ← left
  let right ← right
  let (before, branch) := comparison rel operandType
  let branch := if onTrue then branch else branch.negated?.getD branch
  return left ++ right ++ before ++ [.jump branch target]

/-- Branches on two conditions, the second of which is only tested if the first leaves it open. -/
def both (op : LogicalOp) (left right : Label → Bool → Gen Code) (target : Label)
    (onTrue : Bool) : Gen Code := do
  if decide (op = .and) = onTrue then
    let skip ← Code.fresh
    let first ← left skip !onTrue
    let second ← right target onTrue
    return first ++ second ++ [.label skip]
  else
    let first ← left target onTrue
    let second ← right target onTrue
    return first ++ second

mutual

def forms : Expr → Forms
  | .literal _ value =>
    let push : Gen Code := return [constant value]
    match value with
    | some (.bool b) =>
      { value := push
        cond := fun target onTrue => return if b = onTrue then [Code.goto target] else [] }
    | _ => .ofValue push
  | .var v => .ofValue do return [← loadLocal v]
  | .assign .plain target value => .ofValue do
    let value ← (forms value).value
    return value ++ [Code.op .dup, ← storeLocal target]
  | .assign (.compound o) target value => .ofValue do
    let old ← loadLocal target
    let new ← (forms value).value
    let apply ← operator o (typeOf target) value.type
    return old :: new ++ [apply, Code.op .dup, ← storeLocal target]
  | .binary (.compute o) _ _ left right => .ofValue do
    let first ← (forms left).value
    let second ← (forms right).value
    return first ++ second ++ [← operator o left.type right.type]
  | .binary (.compare rel) _ operandType left right =>
    .ofCond (compare rel operandType (forms left).value (forms right).value)
  | .logical op left right => .ofCond (both op (forms left).cond (forms right).cond)
  | .unary .not _ operand => .ofCond fun target onTrue => (forms operand).cond target !onTrue
  | .unary .neg type operand => .ofValue do
    return (← (forms operand).value) ++ [Code.op (.neg type.num)]
  | .unary .complement type operand => .ofValue do
    let operand ← (forms operand).value
    return operand ++
      if type = .long then [Code.ldc (.long (-1)), Code.op (.bit .long .xor)]
      else [Code.ldc (.int (-1)), Code.op (.bit .int .xor)]
  | .increment op side target => .ofValue do
    let t := typeOf target
    let old ← loadLocal target
    let change ← operator (.arith (match op with | .inc => .add | .dec => .sub)) t t
    let new ← storeLocal target
    return match side with
      | .before => [old, one t, change, Code.op .dup, new]
      | .after => [old, Code.op .dup, one t, change, new]
  | .conditional _ cond thenPart elsePart => .ofValue do
    let elseLabel ← Code.fresh
    let endLabel ← Code.fresh
    let test ← (forms cond).cond elseLabel false
    let thenCode ← (forms thenPart).value
    let elseCode ← (forms elsePart).value
    return test ++ thenCode ++ [Code.goto endLabel, .label elseLabel] ++ elseCode ++
      [.label endLabel]
  | .new type => .ofValue do return [.plain .new (.const (.string type.path))]
  | .call method args => .ofValue do
    let args ← values args
    return args ++ [match method with
      | some m => Code.call m
      | none => .plain .invokeStatic .unresolved]
  | .group inner => forms inner

def values : List Expr → Gen Code
  | [] => return []
  | e :: es => do
    let first ← (forms e).value
    return first ++ (← values es)

end

/-- Code that leaves the value of an expression on the stack. -/
def Expr.value (e : Expr) : Gen Code := (forms e).value

/-- Code that branches on a boolean expression. -/
def Expr.cond (e : Expr) : Label → Bool → Gen Code := (forms e).cond

end Jminus.Checked
