/-!
Syntax trees.

A node keeps the line that a later message about it names, and no other trace of its tokens. A
declaration of several variables is as many `var` statements.
-/
namespace Jminus

/-- An occurrence of a name, simple or qualified. -/
structure Name where
  text : String
  line : Nat
  deriving DecidableEq, Repr, Inhabited

inductive ArithOp where
  | add | sub | mul | div | rem
  deriving DecidableEq, Repr

inductive BitOp where
  | and | or | xor
  deriving DecidableEq, Repr

/-- Shifts; `ushr` fills with zeros from the left. -/
inductive ShiftOp where
  | shl | shr | ushr
  deriving DecidableEq, Repr

/-- Operators that compute a value of their operands' type, and so also compound assignment. -/
inductive Operator where
  | arith (op : ArithOp)
  | bit (op : BitOp)
  | shift (op : ShiftOp)
  deriving DecidableEq, Repr

inductive Relation where
  | eq | ne | lt | ge | gt | le
  deriving DecidableEq, Repr

inductive BinaryOp where
  | compute (op : Operator)
  | compare (op : Relation)
  deriving DecidableEq, Repr

/-- Operators that need not evaluate their right side. -/
inductive LogicalOp where
  | and | or
  deriving DecidableEq, Repr

inductive UnaryOp where
  | neg | not | complement
  deriving DecidableEq, Repr

inductive AssignOp where
  | plain
  | compound (op : Operator)
  deriving DecidableEq, Repr

inductive IncrementOp where
  | inc | dec
  deriving DecidableEq, Repr

/-- Where an increment stands: before its variable it yields the new value, after it the old. -/
inductive Side where
  | before | after
  deriving DecidableEq, Repr

def Operator.image : Operator → String
  | .arith .add => "+" | .arith .sub => "-" | .arith .mul => "*" | .arith .div => "/"
  | .arith .rem => "%"
  | .bit .and => "&" | .bit .or => "|" | .bit .xor => "^"
  | .shift .shl => "<<" | .shift .shr => ">>" | .shift .ushr => ">>>"

def Relation.image : Relation → String
  | .eq => "==" | .ne => "!=" | .lt => "<" | .ge => ">=" | .gt => ">" | .le => "<="

/-- The relation that holds exactly where this one does not. -/
def Relation.negate : Relation → Relation
  | .eq => .ne | .ne => .eq | .lt => .ge | .ge => .lt | .gt => .le | .le => .gt

def BinaryOp.image : BinaryOp → String
  | .compute op => op.image
  | .compare op => op.image

def LogicalOp.image : LogicalOp → String
  | .and => "&&" | .or => "||"

def UnaryOp.image : UnaryOp → String
  | .neg => "-" | .not => "!" | .complement => "~"

def AssignOp.image : AssignOp → String
  | .plain => "="
  | .compound op => op.image ++ "="

def IncrementOp.image : IncrementOp → String
  | .inc => "++" | .dec => "--"

/-- The form of a literal; characters and strings are kept decoded beside their source text. -/
inductive LiteralForm where
  | int | long | double
  | char (value : Char)
  | string (value : String)
  | bool (value : Bool)
  | null
  deriving DecidableEq, Repr

structure Literal where
  form : LiteralForm
  lexeme : String
  line : Nat
  deriving DecidableEq, Repr

inductive Expr where
  | literal (lit : Literal)
  | var (name : Name)
  | assign (op : AssignOp) (line : Nat) (target : Name) (value : Expr)
  | binary (op : BinaryOp) (line : Nat) (left right : Expr)
  | logical (op : LogicalOp) (line : Nat) (left right : Expr)
  | unary (op : UnaryOp) (line : Nat) (operand : Expr)
  | increment (op : IncrementOp) (line : Nat) (side : Side) (target : Name)
  | conditional (line : Nat) (cond thenPart elsePart : Expr)
  | new (className : Name)
  | call (method : Name) (args : List Expr)
  | group (inner : Expr)
  deriving Repr

/-- The expression inside any number of parentheses. -/
def Expr.bare : Expr → Expr
  | .group inner => inner.bare
  | e => e

/-- The variable that an expression names, if it names one. -/
def Expr.target? (e : Expr) : Option Name :=
  match e.bare with
  | .var name => some name
  | _ => none

mutual

inductive Stmt where
  | expr (e : Expr)
  | var (type name : Name) (init : Option Expr)
  | block (body : List Stmt)
  | ifElse (line : Nat) (cond : Expr) (thenBranch : Stmt) (elseBranch : Option Stmt)
  | whileLoop (line : Nat) (cond : Expr) (body : Stmt)
  | doLoop (line : Nat) (body : Stmt) (cond : Expr)
  | forLoop (line : Nat) (init : List Stmt) (cond : Option Expr) (update : List Expr)
      (body : Stmt)
  | switch (line : Nat) (subject : Expr) (groups : List SwitchGroup)
  | brk (line : Nat)
  | cont (line : Nat)
  | ret (line : Nat) (value : Option Expr)
  | throw (line : Nat) (value : Expr)
  | tryCatch (body : List Stmt) (catches : List CatchClause) (cleanup : Option (List Stmt))
  | empty

/-- Labels that share one run of statements; `none` is the default label. -/
inductive SwitchGroup where
  | mk (labels : List (Option Expr)) (body : List Stmt)

inductive CatchClause where
  | mk (type name : Name) (body : List Stmt)

end

deriving instance Repr for Stmt, SwitchGroup, CatchClause

end Jminus
