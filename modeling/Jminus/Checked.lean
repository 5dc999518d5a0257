import Jminus.Flow
import Jminus.Method
import Jminus.Scope
import Jminus.Tree

/-!
Trees with names, types and jumps resolved.

What a mistake left unresolved is `none`: a variable that was never declared, a literal without a
value, a method that does not exist, a jump with nothing around it. A program without mistakes has
none of these but the null literal.
-/
namespace Jminus.Checked

inductive Constant where
  | int (n : Int32)
  | long (n : Int64)
  | double (x : Float)
  | string (s : String)
  | bool (b : Bool)
  deriving Repr

inductive Expr where
  | literal (type : Ty) (value : Option Constant)
  | var (v : Option Local)
  | assign (op : AssignOp) (target : Option Local) (value : Expr)
  | binary (op : BinaryOp) (type : Ty) (operandType : Option Ty) (left right : Expr)
  | logical (op : LogicalOp) (left right : Expr)
  | unary (op : UnaryOp) (type : Ty) (operand : Expr)
  | increment (op : IncrementOp) (side : Side) (target : Option Local)
  | conditional (type : Ty) (cond thenPart elsePart : Expr)
  | new (type : Ty)
  | call (method : Option Method) (args : List Expr)
  | group (inner : Expr)
  deriving Repr

/-- The type of a variable; an unresolved one may be anything. -/
def typeOf (v : Option Local) : Ty := (v.map (·.type)).getD .any

def Expr.type : Expr → Ty
  | .literal type _ => type
  | .var v => typeOf v
  | .assign _ target _ => typeOf target
  | .binary _ type _ _ _ => type
  | .logical .. => .boolean
  | .unary _ type _ => type
  | .increment _ _ target => typeOf target
  | .conditional type _ _ _ => type
  | .new type => type
  | .call (some _) _ => .void
  | .call none _ => .any
  | .group inner => inner.type

mutual

inductive Stmt where
  | expr (e : Expr)
  | var (v : Local) (init : Option Expr)
  | block (body : List Stmt)
  | ifElse (cond : Expr) (thenBranch : Stmt) (elseBranch : Option Stmt)
  | whileLoop (frame : Frame) (cond : Expr) (body : Stmt)
  | doLoop (frame : Frame) (body : Stmt) (cond : Expr)
  | forLoop (frame : Frame) (init : List Stmt) (cond : Option Expr) (update : List Expr)
      (body : Stmt)
  | switch (line : Nat) (frame : Frame) (subject : Expr) (groups : List SwitchGroup)
  /-- Leaves the frame with the given number. -/
  | brk (line : Nat) (target : Option Nat)
  /-- Goes on with the frame with the given number. -/
  | cont (line : Nat) (target : Option Nat)
  | ret
  | throw (value : Expr)
  | tryCatch (body : List Stmt) (catches : List CatchClause) (cleanup : Cleanup)
  | empty

/-- The values that lead to a run of statements. -/
inductive SwitchGroup where
  | mk (values : List Int32) (isDefault : Bool) (body : List Stmt)

inductive CatchClause where
  | mk (param : Local) (body : List Stmt)

/-- A finally clause, with a slot for the exception that it delays. -/
inductive Cleanup where
  | absent
  | mk (slot : Nat) (body : List Stmt)

end

end Jminus.Checked
