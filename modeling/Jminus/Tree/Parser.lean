import Jminus.Diagnostic
import Jminus.Text.Quoted
import Jminus.Token
import Jminus.Tree

/-!
From tokens to trees, by recursive descent.

The tokens end with `eof`, which no rule ever takes. A rule answers with a value and with what is
left, together with the reason why it is less; so every rule ends. A failure names the token that
did not fit and how many tokens were left. The statement at the top level in which it happened is
dropped, and parsing goes on behind the next place where a statement may start.
-/
namespace Jminus.Parser

structure Failure where
  problem : Problem
  line : Nat
  /-- The number of tokens left, `eof` included. -/
  left : Nat
  deriving DecidableEq, Repr

/-- A value, and fewer than `bound` tokens behind it. -/
structure Parsed (α : Type) (bound : Nat) where
  value : α
  rest : List Token
  less : rest.length < bound

abbrev Result (α : Type) (bound : Nat) := Except Failure (Parsed α bound)

/-- How a message names a token that does not fit. -/
def found (t : Token) : String :=
  if t.kind = .eof then "found end of file" else "found " ++ Text.Quoted.quote t.lexeme

/-- Fails at token `t`, with `rest` still to be read. -/
def failAt {α : Type} (p : Problem) (t : Token) (rest : List Token) : Except Failure α :=
  .error { problem := p.within (found t), line := t.line, left := rest.length }

def endOfFile : Token := { kind := .eof, lexeme := "", line := 0 }

/-- Fails at the token that is next. -/
def failNext {α : Type} (p : Problem) (ts : List Token) : Except Failure α :=
  failAt p (ts.headD endOfFile) ts

def nextIs (k : Kind) (ts : List Token) : Bool := (ts.headD endOfFile).kind = k

def expect (k : Kind) (cause : Cause) (ts : List Token) : Result Token ts.length :=
  match ts with
  | t :: rest =>
    if t.kind = k then .ok ⟨t, rest, Nat.lt_succ_self _⟩ else failNext { cause } (t :: rest)
  | [] => failNext { cause } []

def isPrimitive (k : Kind) : Bool :=
  k = .kwInt || k = .kwLong || k = .kwDouble || k = .kwBoolean || k = .kwChar

/-- Reads `.name` as often as it comes. -/
def qualified (text : String) (ts : List Token) : Parsed String (ts.length + 1) :=
  match ts with
  | d :: n :: rest =>
    if d.kind = .dot ∧ n.kind = .identifier then
      let ⟨text', rest', h⟩ := qualified (text ++ "." ++ n.lexeme) rest
      ⟨text', rest', by simp only [List.length_cons]; omega⟩
    else ⟨text, d :: n :: rest, Nat.lt_succ_self _⟩
  | ts => ⟨text, ts, Nat.lt_succ_self _⟩

def typeName (ts : List Token) : Result Name ts.length :=
  match ts with
  | t :: rest =>
    if isPrimitive t.kind then .ok ⟨⟨t.lexeme, t.line⟩, rest, Nat.lt_succ_self _⟩
    else if t.kind = .identifier then
      let ⟨text, rest', h⟩ := qualified t.lexeme rest
      .ok ⟨⟨text, t.line⟩, rest', by simp only [List.length_cons]; omega⟩
    else failNext { cause := .expectedType } (t :: rest)
  | [] => failNext { cause := .expectedType } []

/-- A declaration starts with a primitive type, or with a name of a type and another name. -/
def startsDeclaration : List Token → Bool
  | t :: rest =>
    isPrimitive t.kind ||
      (t.kind = .identifier && nextIs .identifier (qualified t.lexeme rest).rest)
  | [] => false

def assignOp? : Kind → Option AssignOp
  | .assign => some .plain
  | .plusAssign => some (.compound (.arith .add))
  | .minusAssign => some (.compound (.arith .sub))
  | .starAssign => some (.compound (.arith .mul))
  | .divAssign => some (.compound (.arith .div))
  | .remAssign => some (.compound (.arith .rem))
  | .andAssign => some (.compound (.bit .and))
  | .orAssign => some (.compound (.bit .or))
  | .xorAssign => some (.compound (.bit .xor))
  | .alshiftAssign => some (.compound (.shift .shl))
  | .arshiftAssign => some (.compound (.shift .shr))
  | .lrshiftAssign => some (.compound (.shift .ushr))
  | _ => none

def binaryOp? : Kind → Option BinaryOp
  | .plus => some (.compute (.arith .add))
  | .minus => some (.compute (.arith .sub))
  | .star => some (.compute (.arith .mul))
  | .div => some (.compute (.arith .div))
  | .rem => some (.compute (.arith .rem))
  | .and => some (.compute (.bit .and))
  | .or => some (.compute (.bit .or))
  | .xor => some (.compute (.bit .xor))
  | .alshift => some (.compute (.shift .shl))
  | .arshift => some (.compute (.shift .shr))
  | .lrshift => some (.compute (.shift .ushr))
  | .equal => some (.compare .eq)
  | .notEqual => some (.compare .ne)
  | .lt => some (.compare .lt)
  | .ge => some (.compare .ge)
  | .gt => some (.compare .gt)
  | .le => some (.compare .le)
  | _ => none

/-- Operators that stand between two operands and group to the left. -/
inductive Joiner where
  | binary (op : BinaryOp)
  | logical (op : LogicalOp)
  deriving DecidableEq, Repr

def Joiner.join (j : Joiner) (line : Nat) (left right : Expr) : Expr :=
  match j with
  | .binary op => .binary op line left right
  | .logical op => .logical op line left right

def joiner? : Kind → Option Joiner
  | .lor => some (.logical .or)
  | .land => some (.logical .and)
  | k => (binaryOp? k).map .binary

/-- How tightly a joiner binds, from 0 for the tightest to 9. -/
def Joiner.looseness : Joiner → Nat
  | .binary (.compute (.arith .mul)) => 0
  | .binary (.compute (.arith .div)) => 0
  | .binary (.compute (.arith .rem)) => 0
  | .binary (.compute (.arith .add)) => 1
  | .binary (.compute (.arith .sub)) => 1
  | .binary (.compute (.shift _)) => 2
  | .binary (.compare .eq) => 4
  | .binary (.compare .ne) => 4
  | .binary (.compare _) => 3
  | .binary (.compute (.bit .and)) => 5
  | .binary (.compute (.bit .xor)) => 6
  | .binary (.compute (.bit .or)) => 7
  | .logical .and => 8
  | .logical .or => 9

/-- The joiner of looseness `n` that a token of kind `k` is. -/
def joinerAt? (n : Nat) (k : Kind) : Option Joiner :=
  (joiner? k).filter (·.looseness = n)

def incrementOp? : Kind → Option IncrementOp
  | .inc => some .inc
  | .dec => some .dec
  | _ => none

def unaryOp? : Kind → Option UnaryOp
  | .minus => some .neg
  | .lnot => some .not
  | .bitNot => some .complement
  | _ => none

def isNumeric (k : Kind) : Bool := k = .intLiteral || k = .longLiteral || k = .doubleLiteral

def literalForm? (t : Token) : Option LiteralForm :=
  match t.kind with
  | .intLiteral => some .int
  | .longLiteral => some .long
  | .doubleLiteral => some .double
  | .charLiteral =>
    match t.decoded with
    | .char c => some (.char c)
    | _ => some (.char '\x00')
  | .stringLiteral =>
    match t.decoded with
    | .text s => some (.string s)
    | _ => some (.string "")
  | .kwTrue => some (.bool true)
  | .kwFalse => some (.bool false)
  | .kwNull => some .null
  | _ => none

/-- A minus directly before a numeric literal belongs to the literal, so that the least numbers
can be written. -/
def negativeLiteral? (minus next : Token) : Option Expr :=
  if minus.kind = .minus ∧ isNumeric next.kind then
    (literalForm? next).map fun form =>
      .literal { form, lexeme := "-" ++ next.lexeme, line := next.line }
  else none

/-- Increments behind an operand, as many as there are; each needs a variable before it. -/
def increments (e : Expr) (ts : List Token) : Result Expr (ts.length + 1) :=
  match ts with
  | t :: rest =>
    match incrementOp? t.kind with
    | some op =>
      match e.target? with
      | some target => do
        let ⟨e', rest', h⟩ ← increments (.increment op t.line .after target) rest
        return ⟨e', rest', by simp only [List.length_cons]; omega⟩
      | none => failAt { cause := .invalidTarget } t rest
    | none => .ok ⟨e, t :: rest, Nat.lt_succ_self _⟩
  | [] => .ok ⟨e, [], Nat.lt_succ_self _⟩

mutual

/-- Assignments group to the right; their target is a variable, possibly in parentheses. -/
def expression (ts : List Token) : Result Expr ts.length := do
  match ← conditional ts with
  | ⟨left, t :: ts₁, h₁⟩ =>
    match assignOp? t.kind with
    | some op =>
      let ⟨value, ts₂, h₂⟩ ← expression ts₁
      match left.target? with
      | some target =>
        return ⟨.assign op t.line target value, ts₂, by simp only [List.length_cons] at h₁; omega⟩
      | none => failAt { cause := .invalidTarget } t ts₂
    | none => return ⟨left, t :: ts₁, h₁⟩
  | ⟨left, [], h₁⟩ => return ⟨left, [], h₁⟩
termination_by 64 * ts.length + 30
decreasing_by all_goals (try simp only [List.length_cons] at *); omega

/-- `c ? a : b`, with any expression in the middle and grouped to the right. -/
def conditional (ts : List Token) : Result Expr ts.length := do
  match ← chain 10 ts with
  | ⟨cond, t :: ts₁, h₁⟩ =>
    if t.kind = .question then
      let ⟨thenPart, ts₂, h₂⟩ ← expression ts₁
      let ⟨_, ts₃, h₃⟩ ← expect .colon .expectedColon ts₂
      let ⟨elsePart, ts₄, h₄⟩ ← conditional ts₃
      return ⟨.conditional t.line cond thenPart elsePart, ts₄, by
        simp only [List.length_cons] at h₁; omega⟩
    else return ⟨cond, t :: ts₁, h₁⟩
  | ⟨cond, [], h₁⟩ => return ⟨cond, [], h₁⟩
termination_by 64 * ts.length + 20
decreasing_by all_goals (try simp only [List.length_cons] at *); omega

/-- Operands joined by operators of looseness below `n`. -/
def chain (n : Nat) (ts : List Token) : Result Expr ts.length :=
  match n with
  | 0 => unary ts
  | n + 1 => do
    let ⟨left, ts₁, h₁⟩ ← chain n ts
    let ⟨e, ts₂, h₂⟩ ← links n left ts₁
    return ⟨e, ts₂, Nat.lt_of_lt_of_le h₂ h₁⟩
termination_by 64 * ts.length + 5 + n
decreasing_by all_goals omega

/-- Further operands behind `left`, each behind an operator of looseness `n`. -/
def links (n : Nat) (left : Expr) (ts : List Token) : Result Expr (ts.length + 1) :=
  match ts with
  | t :: ts₁ =>
    match joinerAt? n t.kind with
    | some j => do
      let ⟨right, ts₂, h₂⟩ ← chain n ts₁
      let ⟨e, ts₃, h₃⟩ ← links n (j.join t.line left right) ts₂
      return ⟨e, ts₃, by simp only [List.length_cons]; omega⟩
    | none => .ok ⟨left, t :: ts₁, Nat.lt_succ_self _⟩
  | [] => .ok ⟨left, [], Nat.lt_succ_self _⟩
termination_by 64 * ts.length + 5 + n
decreasing_by all_goals (try simp only [List.length_cons] at *); omega

def unary (ts : List Token) : Result Expr ts.length :=
  match ts with
  | t :: ts₁ =>
    match incrementOp? t.kind with
    | some op => do
      let ⟨e, ts₂, h₂⟩ ← unary ts₁
      match e.target? with
      | some target =>
        return ⟨.increment op t.line .before target, ts₂, by simp only [List.length_cons]; omega⟩
      | none => failAt { cause := .invalidTarget } t ts₂
    | none =>
      match unaryOp? t.kind with
      | some op =>
        match negativeLiteral? t (ts₁.headD endOfFile) with
        | some literal =>
          .ok ⟨literal, ts₁.tail, by simp only [List.length_tail, List.length_cons]; omega⟩
        | none => do
          let ⟨e, ts₂, h₂⟩ ← unary ts₁
          return ⟨.unary op t.line e, ts₂, by simp only [List.length_cons]; omega⟩
      | none => do
        let ⟨e, ts₂, h₂⟩ ← primary (t :: ts₁)
        let ⟨e', ts₃, h₃⟩ ← increments e ts₂
        return ⟨e', ts₃, by omega⟩
  | [] => failNext { cause := .expectedExpression } []
termination_by 64 * ts.length + 4
decreasing_by all_goals (try simp only [List.length_cons] at *); omega

/-- Literals, names, calls, new objects and expressions in parentheses. -/
def primary (ts : List Token) : Result Expr ts.length :=
  match ts with
  | t :: ts₁ =>
    match literalForm? t with
    | some form =>
      .ok ⟨.literal { form, lexeme := t.lexeme, line := t.line }, ts₁, Nat.lt_succ_self _⟩
    | none =>
      if t.kind = .kwNew then do
        let ⟨className, ts₂, h₂⟩ ← typeName ts₁
        let ⟨_, ts₃, h₃⟩ ← expect .leftParen .expectedParen ts₂
        let ⟨_, ts₄, h₄⟩ ← expect .rightParen .unclosedParen ts₃
        return ⟨.new className, ts₄, by simp only [List.length_cons]; omega⟩
      else if t.kind = .identifier then
        match ts₁ with
        | p :: ts₂ =>
          if p.kind = .leftParen then do
            let ⟨args, ts₃, h₃⟩ ← arguments ts₂
            return ⟨.call ⟨t.lexeme, t.line⟩ args, ts₃, by simp only [List.length_cons]; omega⟩
          else .ok ⟨.var ⟨t.lexeme, t.line⟩, p :: ts₂, Nat.lt_succ_self _⟩
        | [] => .ok ⟨.var ⟨t.lexeme, t.line⟩, [], Nat.lt_succ_self _⟩
      else if t.kind = .leftParen then do
        let ⟨e, ts₂, h₂⟩ ← expression ts₁
        let ⟨_, ts₃, h₃⟩ ← expect .rightParen .unclosedParen ts₂
        return ⟨.group e, ts₃, by simp only [List.length_cons]; omega⟩
      else if t.kind.isKeyword then failNext (Cause.unsupported.on t.lexeme) (t :: ts₁)
      else failNext { cause := .expectedExpression } (t :: ts₁)
  | [] => failNext { cause := .expectedExpression } []
termination_by 64 * ts.length + 2
decreasing_by all_goals (try simp only [List.length_cons] at *); omega

def arguments (ts : List Token) : Result (List Expr) ts.length :=
  match ts with
  | t :: ts₁ =>
    if t.kind = .rightParen then .ok ⟨[], ts₁, Nat.lt_succ_self _⟩
    else expressionsTo (t :: ts₁)
  | [] => failNext { cause := .expectedExpression } []
termination_by 64 * ts.length + 50
decreasing_by all_goals (try simp only [List.length_cons] at *); omega

def expressionsTo (ts : List Token) : Result (List Expr) ts.length := do
  match ← expression ts with
  | ⟨e, t :: ts₁, h₁⟩ =>
    if t.kind = .comma then
      let ⟨es, ts₂, h₂⟩ ← expressionsTo ts₁
      return ⟨e :: es, ts₂, by simp only [List.length_cons] at h₁; omega⟩
    else if t.kind = .rightParen then
      return ⟨[e], ts₁, by simp only [List.length_cons] at h₁; omega⟩
    else failNext { cause := .unclosedParen } (t :: ts₁)
  | ⟨_, [], _⟩ => failNext { cause := .unclosedParen } []
termination_by 64 * ts.length + 40
decreasing_by all_goals (try simp only [List.length_cons] at *); omega

end

def parenthesized (ts : List Token) : Result Expr ts.length := do
  let ⟨_, ts₁, h₁⟩ ← expect .leftParen .expectedParen ts
  let ⟨e, ts₂, h₂⟩ ← expression ts₁
  let ⟨_, ts₃, h₃⟩ ← expect .rightParen .unclosedParen ts₂
  return ⟨e, ts₃, by omega⟩

def expressions (ts : List Token) : Result (List Expr) ts.length := do
  match ← expression ts with
  | ⟨e, t :: ts₁, h₁⟩ =>
    if t.kind = .comma then
      let ⟨es, ts₂, h₂⟩ ← expressions ts₁
      return ⟨e :: es, ts₂, by simp only [List.length_cons] at h₁; omega⟩
    else return ⟨[e], t :: ts₁, h₁⟩
  | ⟨e, [], h₁⟩ => return ⟨[e], [], h₁⟩
termination_by ts.length
decreasing_by simp only [List.length_cons] at *; omega

def initializer (ts : List Token) : Result (Option Expr) (ts.length + 1) :=
  match ts with
  | t :: ts₁ =>
    if t.kind = .assign then do
      let ⟨e, ts₂, h₂⟩ ← expression ts₁
      return ⟨some e, ts₂, by simp only [List.length_cons]; omega⟩
    else .ok ⟨none, t :: ts₁, Nat.lt_succ_self _⟩
  | [] => .ok ⟨none, [], Nat.lt_succ_self _⟩

/-- Variables of one type with commas between, one statement for each. -/
def declarators (type : Name) (ts : List Token) : Result (List Stmt) ts.length := do
  let ⟨name, ts₁, h₁⟩ ← expect .identifier .expectedName ts
  let ⟨init, ts₂, h₂⟩ ← initializer ts₁
  let decl := Stmt.var type ⟨name.lexeme, name.line⟩ init
  match ts₂, h₂ with
  | t :: ts₃, h₂ =>
    if t.kind = .comma then
      let ⟨decls, ts₄, h₄⟩ ← declarators type ts₃
      return ⟨decl :: decls, ts₄, by simp only [List.length_cons] at h₂; omega⟩
    else return ⟨[decl], t :: ts₃, by omega⟩
  | [], h₂ => return ⟨[decl], [], by omega⟩
termination_by ts.length
decreasing_by simp only [List.length_cons] at *; omega

def localVariables (ts : List Token) : Result (List Stmt) ts.length := do
  let ⟨type, ts₁, h₁⟩ ← typeName ts
  let ⟨decls, ts₂, h₂⟩ ← declarators type ts₁
  return ⟨decls, ts₂, by omega⟩

/-- What a for statement does first: nothing, declarations or expressions. -/
def forInit (ts : List Token) : Result (List Stmt) (ts.length + 1) :=
  if nextIs .semi ts then .ok ⟨[], ts, by omega⟩
  else if startsDeclaration ts then do
    let ⟨decls, ts₁, h₁⟩ ← localVariables ts
    return ⟨decls, ts₁, by omega⟩
  else do
    let ⟨es, ts₁, h₁⟩ ← expressions ts
    return ⟨es.map .expr, ts₁, by omega⟩

/-- An expression, unless a token of kind `stop` is next. -/
def expressionUnless (stop : Kind) (ts : List Token) : Result (Option Expr) (ts.length + 1) :=
  if nextIs stop ts then .ok ⟨none, ts, by omega⟩
  else do
    let ⟨e, ts₁, h₁⟩ ← expression ts
    return ⟨some e, ts₁, by omega⟩

def forUpdate (ts : List Token) : Result (List Expr) (ts.length + 1) :=
  if nextIs .rightParen ts then .ok ⟨[], ts, by omega⟩
  else do
    let ⟨es, ts₁, h₁⟩ ← expressions ts
    return ⟨es, ts₁, by omega⟩

/-- The parts of a for statement between its parentheses, with both of them. -/
def forHeader (ts : List Token) :
    Result (List Stmt × Option Expr × List Expr) ts.length := do
  let ⟨_, ts₁, h₁⟩ ← expect .leftParen .expectedParen ts
  let ⟨init, ts₂, h₂⟩ ← forInit ts₁
  let ⟨_, ts₃, h₃⟩ ← expect .semi .expectedSemicolon ts₂
  let ⟨cond, ts₄, h₄⟩ ← expressionUnless .semi ts₃
  let ⟨_, ts₅, h₅⟩ ← expect .semi .expectedSemicolon ts₄
  let ⟨update, ts₆, h₆⟩ ← forUpdate ts₅
  let ⟨_, ts₇, h₇⟩ ← expect .rightParen .unclosedParen ts₆
  return ⟨(init, cond, update), ts₇, by omega⟩

def caseLabel (ts : List Token) : Result (Option Expr) ts.length :=
  match ts with
  | t :: ts₁ =>
    if t.kind = .kwDefault then do
      let ⟨_, ts₂, h₂⟩ ← expect .colon .expectedColon ts₁
      return ⟨none, ts₂, by simp only [List.length_cons]; omega⟩
    else if t.kind = .kwCase then do
      let ⟨e, ts₂, h₂⟩ ← expression ts₁
      let ⟨_, ts₃, h₃⟩ ← expect .colon .expectedColon ts₂
      return ⟨some e, ts₃, by simp only [List.length_cons]; omega⟩
    else failNext { cause := .unexpectedToken } (t :: ts₁)
  | [] => failNext { cause := .unexpectedToken } []

def caseLabels (ts : List Token) : Result (List (Option Expr)) (ts.length + 1) :=
  if nextIs .kwCase ts || nextIs .kwDefault ts then do
    let ⟨label, ts₁, h₁⟩ ← caseLabel ts
    let ⟨labels, ts₂, h₂⟩ ← caseLabels ts₁
    return ⟨label :: labels, ts₂, by omega⟩
  else .ok ⟨[], ts, by omega⟩
termination_by ts.length

/-- The labels of a group; a group has at least one. -/
def groupLabels (ts : List Token) : Result (List (Option Expr)) ts.length := do
  let ⟨label, ts₁, h₁⟩ ← caseLabel ts
  let ⟨labels, ts₂, h₂⟩ ← caseLabels ts₁
  return ⟨label :: labels, ts₂, Nat.lt_of_lt_of_le h₂ h₁⟩

/-- The part of a catch clause between its parentheses, with both of them. -/
def catchHeader (ts : List Token) : Result (Name × Name) ts.length := do
  let ⟨_, ts₁, h₁⟩ ← expect .leftParen .expectedParen ts
  let ⟨type, ts₂, h₂⟩ ← typeName ts₁
  let ⟨name, ts₃, h₃⟩ ← expect .identifier .expectedName ts₂
  let ⟨_, ts₄, h₄⟩ ← expect .rightParen .unclosedParen ts₃
  return ⟨(type, ⟨name.lexeme, name.line⟩), ts₄, by omega⟩

/-- Where the statements of a block end. -/
def endsBlock (k : Kind) : Bool := k = .rightCurly || k = .eof

def endsGroup (k : Kind) : Bool := k = .kwCase || k = .kwDefault || endsBlock k

mutual

def blockStatement (ts : List Token) : Result (List Stmt) ts.length :=
  if startsDeclaration ts then do
    let ⟨decls, ts₁, h₁⟩ ← localVariables ts
    let ⟨_, ts₂, h₂⟩ ← expect .semi .expectedSemicolon ts₁
    return ⟨decls, ts₂, by omega⟩
  else do
    let ⟨s, ts₁, h₁⟩ ← statement ts
    return ⟨[s], ts₁, h₁⟩
termination_by 8 * ts.length + 2

/-- Statements up to a token at which `stop` holds. -/
def statements (stop : Kind → Bool) (ts : List Token) : Result (List Stmt) (ts.length + 1) :=
  if stop (ts.headD endOfFile).kind then .ok ⟨[], ts, by omega⟩
  else do
    let ⟨first, ts₁, h₁⟩ ← blockStatement ts
    let ⟨more, ts₂, h₂⟩ ← statements stop ts₁
    return ⟨first ++ more, ts₂, by omega⟩
termination_by 8 * ts.length + 3

/-- The statements of a block behind its opening brace, with the closing one. -/
def blockRest (ts : List Token) : Result (List Stmt) ts.length := do
  let ⟨body, ts₁, h₁⟩ ← statements endsBlock ts
  let ⟨_, ts₂, h₂⟩ ← expect .rightCurly .unclosedBrace ts₁
  return ⟨body, ts₂, by omega⟩
termination_by 8 * ts.length + 4

def block (ts : List Token) : Result (List Stmt) ts.length := do
  let ⟨_, ts₁, h₁⟩ ← expect .leftCurly .expectedBrace ts
  let ⟨body, ts₂, h₂⟩ ← blockRest ts₁
  return ⟨body, ts₂, by omega⟩
termination_by 8 * ts.length + 1

/-- The groups of a switch behind its opening brace, with the closing one. -/
def switchGroups (ts : List Token) : Result (List SwitchGroup) ts.length :=
  if endsBlock (ts.headD endOfFile).kind then do
    let ⟨_, ts₁, h₁⟩ ← expect .rightCurly .unclosedBrace ts
    return ⟨[], ts₁, h₁⟩
  else do
    let ⟨labels, ts₁, h₁⟩ ← groupLabels ts
    let ⟨body, ts₂, h₂⟩ ← statements endsGroup ts₁
    let ⟨groups, ts₃, h₃⟩ ← switchGroups ts₂
    return ⟨.mk labels body :: groups, ts₃, by omega⟩
termination_by 8 * ts.length + 1

def catchClauses (ts : List Token) : Result (List CatchClause) (ts.length + 1) :=
  match ts with
  | t :: ts₁ =>
    if t.kind = .kwCatch then do
      let ⟨(type, name), ts₂, h₂⟩ ← catchHeader ts₁
      let ⟨body, ts₃, h₃⟩ ← block ts₂
      let ⟨clauses, ts₄, h₄⟩ ← catchClauses ts₃
      return ⟨.mk type name body :: clauses, ts₄, by simp only [List.length_cons]; omega⟩
    else .ok ⟨[], t :: ts₁, Nat.lt_succ_self _⟩
  | [] => .ok ⟨[], [], Nat.lt_succ_self _⟩
termination_by 8 * ts.length
decreasing_by all_goals (try simp only [List.length_cons] at *); omega

def finallyClause (ts : List Token) : Result (Option (List Stmt)) (ts.length + 1) :=
  match ts with
  | t :: ts₁ =>
    if t.kind = .kwFinally then do
      let ⟨body, ts₂, h₂⟩ ← block ts₁
      return ⟨some body, ts₂, by simp only [List.length_cons]; omega⟩
    else .ok ⟨none, t :: ts₁, Nat.lt_succ_self _⟩
  | [] => .ok ⟨none, [], Nat.lt_succ_self _⟩
termination_by 8 * ts.length
decreasing_by all_goals (try simp only [List.length_cons] at *); omega

/-- An else branch, if there is one; it belongs to the nearest if. -/
def elseClause (ts : List Token) : Result (Option Stmt) (ts.length + 1) :=
  match ts with
  | t :: ts₁ =>
    if t.kind = .kwElse then do
      let ⟨s, ts₂, h₂⟩ ← statement ts₁
      return ⟨some s, ts₂, by simp only [List.length_cons]; omega⟩
    else .ok ⟨none, t :: ts₁, Nat.lt_succ_self _⟩
  | [] => .ok ⟨none, [], Nat.lt_succ_self _⟩
termination_by 8 * ts.length
decreasing_by all_goals (try simp only [List.length_cons] at *); omega

/-- Every statement that is not a declaration. -/
def statement (ts : List Token) : Result Stmt ts.length :=
  match ts with
  | t :: ts₁ =>
    match t.kind with
    | .leftCurly => do
      let ⟨body, ts₂, h₂⟩ ← blockRest ts₁
      return ⟨.block body, ts₂, by simp only [List.length_cons]; omega⟩
    | .kwIf => do
      let ⟨cond, ts₂, h₂⟩ ← parenthesized ts₁
      let ⟨thenBranch, ts₃, h₃⟩ ← statement ts₂
      let ⟨elseBranch, ts₄, h₄⟩ ← elseClause ts₃
      return ⟨.ifElse t.line cond thenBranch elseBranch, ts₄, by
        simp only [List.length_cons]; omega⟩
    | .kwWhile => do
      let ⟨cond, ts₂, h₂⟩ ← parenthesized ts₁
      let ⟨body, ts₃, h₃⟩ ← statement ts₂
      return ⟨.whileLoop t.line cond body, ts₃, by simp only [List.length_cons]; omega⟩
    | .kwDo => do
      let ⟨body, ts₂, h₂⟩ ← statement ts₁
      let ⟨_, ts₃, h₃⟩ ← expect .kwWhile .expectedWhile ts₂
      let ⟨cond, ts₄, h₄⟩ ← parenthesized ts₃
      let ⟨_, ts₅, h₅⟩ ← expect .semi .expectedSemicolon ts₄
      return ⟨.doLoop t.line body cond, ts₅, by simp only [List.length_cons]; omega⟩
    | .kwFor => do
      let ⟨(init, cond, update), ts₂, h₂⟩ ← forHeader ts₁
      let ⟨body, ts₃, h₃⟩ ← statement ts₂
      return ⟨.forLoop t.line init cond update body, ts₃, by simp only [List.length_cons]; omega⟩
    | .kwSwitch => do
      let ⟨subject, ts₂, h₂⟩ ← parenthesized ts₁
      let ⟨_, ts₃, h₃⟩ ← expect .leftCurly .expectedBrace ts₂
      let ⟨groups, ts₄, h₄⟩ ← switchGroups ts₃
      return ⟨.switch t.line subject groups, ts₄, by simp only [List.length_cons]; omega⟩
    | .kwBreak => do
      let ⟨_, ts₂, h₂⟩ ← expect .semi .expectedSemicolon ts₁
      return ⟨.brk t.line, ts₂, by simp only [List.length_cons]; omega⟩
    | .kwContinue => do
      let ⟨_, ts₂, h₂⟩ ← expect .semi .expectedSemicolon ts₁
      return ⟨.cont t.line, ts₂, by simp only [List.length_cons]; omega⟩
    | .kwReturn => do
      let ⟨value, ts₂, h₂⟩ ← expressionUnless .semi ts₁
      let ⟨_, ts₃, h₃⟩ ← expect .semi .expectedSemicolon ts₂
      return ⟨.ret t.line value, ts₃, by simp only [List.length_cons]; omega⟩
    | .kwThrow => do
      let ⟨value, ts₂, h₂⟩ ← expression ts₁
      let ⟨_, ts₃, h₃⟩ ← expect .semi .expectedSemicolon ts₂
      return ⟨.throw t.line value, ts₃, by simp only [List.length_cons]; omega⟩
    | .kwTry => do
      let ⟨body, ts₂, h₂⟩ ← block ts₁
      let ⟨catches, ts₃, h₃⟩ ← catchClauses ts₂
      let ⟨cleanup, ts₄, h₄⟩ ← finallyClause ts₃
      if catches.isEmpty && cleanup.isNone then failNext { cause := .expectedHandler } ts₄
      else return ⟨.tryCatch body catches cleanup, ts₄, by simp only [List.length_cons]; omega⟩
    | .semi => .ok ⟨.empty, ts₁, Nat.lt_succ_self _⟩
    | _ => do
      let ⟨e, ts₂, h₂⟩ ← expression (t :: ts₁)
      let ⟨_, ts₃, h₃⟩ ← expect .semi .expectedSemicolon ts₂
      return ⟨.expr e, ts₃, by omega⟩
  | [] => failNext { cause := .expectedExpression } []
termination_by 8 * ts.length
decreasing_by all_goals (try simp only [List.length_cons] at *); omega

end

/-- Kinds with which a statement may start when parsing goes on behind a failure. -/
def restarts (k : Kind) : Bool :=
  isPrimitive k || k = .kwIf || k = .kwWhile || k = .kwDo || k = .kwFor || k = .kwSwitch ||
    k = .kwTry || k = .kwThrow || k = .kwReturn || k = .kwBreak || k = .kwContinue

/-- Drops tokens up to the end of a statement or the start of the next; `last` is the kind of the
token dropped before. -/
def synchronize (last : Kind) : List Token → List Token
  | t :: ts =>
    if t.kind = .eof || last = .semi || last = .rightCurly || restarts t.kind then t :: ts
    else synchronize t.kind ts
  | [] => []

def recover (ts : List Token) : List Token :=
  match ts with
  | t :: rest => if t.kind = .eof then t :: rest else synchronize t.kind rest
  | [] => []

/-- What is left of `ts` behind a failure inside it. -/
def afterFailure (ts : List Token) (f : Failure) : List Token :=
  recover (ts.drop (ts.length - f.left))

theorem synchronize_length (last : Kind) (ts : List Token) :
    (synchronize last ts).length ≤ ts.length := by
  induction ts generalizing last with
  | nil => simp [synchronize]
  | cons t ts ih =>
    rw [synchronize]
    split
    · simp
    · have := ih t.kind
      simp only [List.length_cons]
      omega

/-- Recovery takes no step back. -/
theorem recover_length (ts : List Token) : (recover ts).length ≤ ts.length := by
  unfold recover
  split
  · rename_i t rest
    split
    · simp
    · have := synchronize_length t.kind rest
      simp only [List.length_cons]
      omega
  · simp

/-- Every failure costs at least one token. -/
theorem afterFailure_length {t : Token} {ts : List Token} (f : Failure) (h : t.kind ≠ .eof) :
    (afterFailure (t :: ts) f).length < (t :: ts).length := by
  unfold afterFailure
  generalize (t :: ts).length - f.left = k
  cases k with
  | zero =>
    have := synchronize_length t.kind ts
    simp only [List.drop_zero, recover, h, if_false, List.length_cons]
    omega
  | succ k =>
    have := recover_length (ts.drop k)
    simp only [List.drop_succ_cons, List.length_cons]
    simp only [List.length_drop] at this
    omega

def Failure.diagnostic (f : Failure) : Diagnostic :=
  { phase := .syntactic, severity := .error, problem := f.problem, line := f.line }

/-- The statements of a program and the reports of those that could not be read. -/
def program (ts : List Token) : List Stmt × List Diagnostic :=
  match ts with
  | t :: rest =>
    if _h : t.kind = .eof then ([], [])
    else match blockStatement (t :: rest) with
    | .ok ⟨first, rest', _⟩ =>
      let (more, diagnostics) := program rest'
      (first ++ more, diagnostics)
    | .error f =>
      let (more, diagnostics) := program (afterFailure (t :: rest) f)
      (more, f.diagnostic :: diagnostics)
  | [] => ([], [])
termination_by ts.length
decreasing_by
  · assumption
  · exact afterFailure_length f _h

end Jminus.Parser
