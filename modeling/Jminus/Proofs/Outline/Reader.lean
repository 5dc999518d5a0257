import Jminus.Proofs.Outline.Tree
import Jminus.Token.Lexer
import Jminus.Tree.Parser
import Mathlib

/-!
Outlines read as trees.

What an outline stands for is found from what its items stand for, and by the word it starts with.
Two things need care. A variable with an operator behind it starts with any name, also one that is
a head elsewhere, as in `(call ++)`; but nothing else has such an operator as its second item. And a
minus is the head of two kinds of expressions, which differ in the number of their items.

An outline that comes from no tree may be read in any way.
-/
namespace Jminus

inductive Head where
  | before (op : IncrementOp)
  | unary (op : UnaryOp)
  | new
  | group
  | assign (op : AssignOp)
  | binary (op : BinaryOp)
  | logical (op : LogicalOp)
  | conditional
  deriving DecidableEq

namespace Head

def word : Head → String
  | before op => op.image
  | unary op => op.image
  | new => "new"
  | group => "group"
  | assign op => op.image
  | binary op => op.image
  | logical op => op.image
  | conditional => "?"

def arity : Head → Nat
  | before _ | unary _ | new | group => 1
  | assign _ | binary _ | logical _ => 2
  | conditional => 3

def operators : List Operator :=
  [ArithOp.add, .sub, .mul, .div, .rem].map .arith ++ [BitOp.and, .or, .xor].map .bit ++
    [ShiftOp.shl, .shr, .ushr].map .shift

def relations : List Relation := [.eq, .ne, .lt, .ge, .gt, .le]

def all : List Head :=
  [new, group, conditional] ++ [IncrementOp.inc, .dec].map before ++
    [UnaryOp.neg, .not, .complement].map unary ++ [LogicalOp.and, .or].map logical ++
    (AssignOp.plain :: operators.map .compound).map assign ++
    (operators.map BinaryOp.compute ++ relations.map BinaryOp.compare).map binary

theorem mem_operators (op : Operator) : op ∈ operators := by
  cases op with
  | arith op => cases op <;> decide
  | bit op => cases op <;> decide
  | shift op => cases op <;> decide

theorem mem_all (h : Head) : h ∈ all := by
  cases h with
  | before op => cases op <;> decide
  | unary op => cases op <;> decide
  | new => decide
  | group => decide
  | assign op =>
    cases op with
    | plain => decide
    | compound op => simp [all, mem_operators]
  | binary op =>
    cases op with
    | compute op => simp [all, mem_operators]
    | compare op => cases op <;> decide
  | logical op => cases op <;> decide
  | conditional => decide

def ofWord? (w : String) (n : Nat) : Option Head := all.find? fun h => h.word == w && h.arity == n

/-- A head is found by its word and by how many parts it has. -/
theorem ofWord?_word (h : Head) : ofWord? h.word h.arity = some h := by
  have hall : ∀ h ∈ all, ofWord? h.word h.arity = some h := by decide
  exact hall h h.mem_all

end Head

inductive Opener where
  | var | scope | ifElse | whileLoop | doLoop | forLoop | switch | brk | cont | ret | throw
  | tryCatch
  deriving DecidableEq

namespace Opener

def word : Opener → String
  | var => "var"
  | scope => "scope"
  | ifElse => "if"
  | whileLoop => "while"
  | doLoop => "do"
  | forLoop => "for"
  | switch => "switch"
  | brk => "break"
  | cont => "continue"
  | ret => "return"
  | throw => "throw"
  | tryCatch => "try"

def all : List Opener :=
  [var, scope, ifElse, whileLoop, doLoop, forLoop, switch, brk, cont, ret, throw, tryCatch]

def ofWord? (w : String) : Option Opener := all.find? (·.word == w)

theorem ofWord?_word (o : Opener) : ofWord? o.word = some o := by
  cases o <;> decide

theorem ofWord?_call : ofWord? "call" = none := by decide

/-- No head of an expression opens a statement. -/
theorem ofWord?_head (h : Head) : ofWord? h.word = none := by
  have hall : ∀ h ∈ Head.all, ofWord? h.word = none := by decide
  exact hall h h.mem_all

end Opener

/-- What an outline stands for: a word, an expression, a statement, or items that do. -/
structure Sense where
  word : Option String
  expr : Option Expr
  stmt : Option Stmt
  items : List Sense

namespace Sense

def name (s : Sense) : Name := ⟨s.word.getD "", 0⟩

/-- The statements behind the head. -/
def body (s : Sense) : List Stmt := s.items.tail.filterMap (·.stmt)

def group? (s : Sense) : Option SwitchGroup :=
  match s.items with
  | _ :: labels :: body => some (.mk (labels.items.map (·.expr)) (body.filterMap (·.stmt)))
  | _ => none

def clause? (s : Sense) : Option CatchClause :=
  match s.items with
  | [_, type, name, body] => some (.mk type.name name.name body.body)
  | _ => none

def cleanup? (s : Sense) : Option (List Stmt) :=
  match s.items with
  | [_, body] => some body.body
  | _ => none

/-- The operator that makes a variable and nothing else of the item before it. -/
def increment? : List Sense → Option IncrementOp
  | [s] => s.word.bind fun w => [IncrementOp.inc, .dec].find? (·.image == w)
  | _ => none

end Sense

/-- The expression that a head makes of its operands. -/
@[simp] def Head.build : Head → List Sense → Option Expr
  | before op, [x] => some (.increment op 0 .before x.name)
  | unary op, [e] => e.expr.map (.unary op 0)
  | new, [type] => some (.new type.name)
  | group, [e] => e.expr.map .group
  | assign op, [x, value] => value.expr.map (.assign op 0 x.name)
  | binary op, [l, r] => l.expr.bind fun l => r.expr.map (.binary op 0 l)
  | logical op, [l, r] => l.expr.bind fun l => r.expr.map (.logical op 0 l)
  | conditional, [c, a, b] =>
    c.expr.bind fun c => a.expr.bind fun a => b.expr.map (.conditional 0 c a)
  | _, _ => none

/-- The statement that starts with an opener. What is read as nothing is a part that is missing: an
initializer, an else branch, a condition, a value or a finally clause. -/
@[simp] def Opener.build : Opener → List Sense → Option Stmt
  | var, type :: x :: init => some (.var type.name x.name (init.head?.bind (·.expr)))
  | scope, body => some (.block (body.filterMap (·.stmt)))
  | ifElse, c :: s :: other =>
    c.expr.bind fun c => s.stmt.map fun s => .ifElse 0 c s (other.head?.bind (·.stmt))
  | whileLoop, [c, s] => c.expr.bind fun c => s.stmt.map (.whileLoop 0 c)
  | doLoop, [s, c] => s.stmt.bind fun s => c.expr.map (.doLoop 0 s)
  | forLoop, [init, c, update, s] =>
    s.stmt.map (.forLoop 0 init.body c.expr (update.items.tail.filterMap (·.expr)))
  | switch, c :: groups => c.expr.map fun c => .switch 0 c (groups.filterMap (·.group?))
  | brk, _ => some (.brk 0)
  | cont, _ => some (.cont 0)
  | ret, value => some (.ret 0 (value.head?.bind (·.expr)))
  | throw, [value] => value.expr.map (.throw 0)
  | tryCatch, body :: clauses =>
    some (.tryCatch body.body (clauses.filterMap (·.clause?)) (clauses.getLast?.bind (·.cleanup?)))
  | _, _ => none

namespace Outline

/-- The first token of a text. -/
def token? : List Char → Option Token
  | [] => none
  | c :: cs => (Lexer.lexeme c cs).map (·.token 0)

/-- The literal or variable that a word is; a minus belongs to a number. -/
def leaf? (w : String) : Option Expr :=
  match w.toList with
  | '-' :: cs => ((token? cs).bind Parser.literalForm?).map fun form => .literal ⟨form, w, 0⟩
  | cs => (token? cs).bind fun t =>
    if t.kind = .identifier then some (.var ⟨w, 0⟩)
    else (Parser.literalForm? t).map fun form => .literal ⟨form, w, 0⟩

/-- A word without a minus is the variable or literal that its token is. -/
theorem leaf?_of_token {w : String} {c : Char} {cs : List Char} {t : Token}
    (hw : w.toList = c :: cs) (hc : c ≠ '-') (ht : token? w.toList = some t) :
    leaf? w = if t.kind = .identifier then some (.var ⟨w, 0⟩)
      else (Parser.literalForm? t).map fun form => .literal ⟨form, w, 0⟩ := by
  unfold leaf?
  split
  · rename_i heq
    rw [hw] at heq
    exact absurd (List.cons.inj heq).1 hc
  · rw [ht]
    rfl

/-- A minus before a literal belongs to it. -/
theorem leaf?_minus {w : String} {t : Token} (ht : token? w.toList = some t) :
    leaf? ("-" ++ w) = (Parser.literalForm? t).map fun form => .literal ⟨form, "-" ++ w, 0⟩ := by
  simp [leaf?, ht]

def exprOf (w : String) (operands : List Sense) : Option Expr :=
  match Sense.increment? operands with
  | some op => some (.increment op 0 .after ⟨w, 0⟩)
  | none =>
    if w = "call" then operands.head?.map fun method =>
      .call method.name (operands.tail.filterMap (·.expr))
    else (Head.ofWord? w operands.length).bind (·.build operands)

def stmtOf (w : String) (operands : List Sense) : Option Stmt :=
  match Sense.increment? operands, Opener.ofWord? w with
  | none, some opener => opener.build operands
  | _, _ => (exprOf w operands).map .expr

mutual

def sense : Outline → Sense
  | word w => ⟨some w, leaf? w, (leaf? w).map .expr, []⟩
  | node [] => ⟨none, none, some .empty, []⟩
  | node (head :: operands) =>
    ⟨none, head.sense.word.bind fun w => exprOf w (senses operands),
      head.sense.word.bind fun w => stmtOf w (senses operands), head.sense :: senses operands⟩

def senses : List Outline → List Sense
  | [] => []
  | f :: fs => f.sense :: senses fs

end

theorem sense_items (fs : List Outline) : (node fs).sense.items = senses fs := by
  cases fs <;> rfl

theorem senses_eq (fs : List Outline) : senses fs = fs.map sense := by
  induction fs with
  | nil => rfl
  | cons f fs ih => rw [senses, ih, List.map_cons]

end Outline

end Jminus
