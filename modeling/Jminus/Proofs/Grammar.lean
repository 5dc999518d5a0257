import Jminus.Tree.Parser
import Mathlib

/-!
The grammar: which tokens a tree may come from.

Every rule says what the tokens of its parts put together are, and nothing about looking ahead. What
could be read in two ways is settled by conditions on the parts: a minus before a number belongs to
the number, an else belongs to the nearest if, and labels of a switch that follow one another
belong to one group.
-/
namespace Jminus.Grammar

open Jminus.Parser (Joiner)

inductive Primitive : Kind → Prop
  | int : Primitive .kwInt
  | long : Primitive .kwLong
  | double : Primitive .kwDouble
  | boolean : Primitive .kwBoolean
  | char : Primitive .kwChar

inductive Numeric : Kind → Prop
  | int : Numeric .intLiteral
  | long : Numeric .longLiteral
  | double : Numeric .doubleLiteral

/-- What a literal stands for, by its kind and by what its text was decoded to. A character or a
string whose text could not be decoded stands for the null character or for the empty string. -/
inductive Denotes : Kind → Decoded → LiteralForm → Prop
  | int {d} : Denotes .intLiteral d .int
  | long {d} : Denotes .longLiteral d .long
  | double {d} : Denotes .doubleLiteral d .double
  | char {c} : Denotes .charLiteral (.char c) (.char c)
  | noChar {d} : (∀ c, d ≠ .char c) → Denotes .charLiteral d (.char '\x00')
  | string {s} : Denotes .stringLiteral (.text s) (.string s)
  | noString {d} : (∀ s, d ≠ .text s) → Denotes .stringLiteral d (.string "")
  | yes {d} : Denotes .kwTrue d (.bool true)
  | no {d} : Denotes .kwFalse d (.bool false)
  | null {d} : Denotes .kwNull d .null

inductive Increments : Kind → IncrementOp → Prop
  | inc : Increments .inc .inc
  | dec : Increments .dec .dec

inductive Prefixes : Kind → UnaryOp → Prop
  | neg : Prefixes .minus .neg
  | not : Prefixes .lnot .not
  | complement : Prefixes .bitNot .complement

inductive Assigns : Kind → AssignOp → Prop
  | plain : Assigns .assign .plain
  | add : Assigns .plusAssign (.compound (.arith .add))
  | sub : Assigns .minusAssign (.compound (.arith .sub))
  | mul : Assigns .starAssign (.compound (.arith .mul))
  | div : Assigns .divAssign (.compound (.arith .div))
  | rem : Assigns .remAssign (.compound (.arith .rem))
  | and : Assigns .andAssign (.compound (.bit .and))
  | or : Assigns .orAssign (.compound (.bit .or))
  | xor : Assigns .xorAssign (.compound (.bit .xor))
  | shl : Assigns .alshiftAssign (.compound (.shift .shl))
  | shr : Assigns .arshiftAssign (.compound (.shift .shr))
  | ushr : Assigns .lrshiftAssign (.compound (.shift .ushr))

/-- The operators between two operands, level by level; those of level 0 bind most tightly. -/
inductive Joins : Nat → Kind → Joiner → Prop
  | mul : Joins 0 .star (.binary (.compute (.arith .mul)))
  | div : Joins 0 .div (.binary (.compute (.arith .div)))
  | rem : Joins 0 .rem (.binary (.compute (.arith .rem)))
  | add : Joins 1 .plus (.binary (.compute (.arith .add)))
  | sub : Joins 1 .minus (.binary (.compute (.arith .sub)))
  | shl : Joins 2 .alshift (.binary (.compute (.shift .shl)))
  | shr : Joins 2 .arshift (.binary (.compute (.shift .shr)))
  | ushr : Joins 2 .lrshift (.binary (.compute (.shift .ushr)))
  | lt : Joins 3 .lt (.binary (.compare .lt))
  | gt : Joins 3 .gt (.binary (.compare .gt))
  | le : Joins 3 .le (.binary (.compare .le))
  | ge : Joins 3 .ge (.binary (.compare .ge))
  | eq : Joins 4 .equal (.binary (.compare .eq))
  | ne : Joins 4 .notEqual (.binary (.compare .ne))
  | and : Joins 5 .and (.binary (.compute (.bit .and)))
  | xor : Joins 6 .xor (.binary (.compute (.bit .xor)))
  | or : Joins 7 .or (.binary (.compute (.bit .or)))
  | land : Joins 8 .land (.logical .and)
  | lor : Joins 9 .lor (.logical .or)

/-- `.name` as often as it comes, behind a name that is read so far. -/
inductive Qualified : String → List Token → String → Prop
  | nil {text} : Qualified text [] text
  | cons {text text' dot name ts} : dot.kind = .dot → name.kind = .identifier →
    Qualified (text ++ "." ++ name.lexeme) ts text' → Qualified text (dot :: name :: ts) text'

inductive TypeName : List Token → Name → Prop
  | primitive {t} : Primitive t.kind → TypeName [t] ⟨t.lexeme, t.line⟩
  | named {t ts text} : t.kind = .identifier → Qualified t.lexeme ts text →
    TypeName (t :: ts) ⟨text, t.line⟩

/-- A variable, possibly in parentheses. -/
inductive Target : List Token → Name → Prop
  | var {t} : t.kind = .identifier → Target [t] ⟨t.lexeme, t.line⟩
  | group {l r ts name} : l.kind = .leftParen → Target ts name → r.kind = .rightParen →
    Target (l :: ts ++ [r]) name

mutual

inductive Primary : List Token → Expr → Prop
  | literal {t form} : Denotes t.kind t.decoded form →
    Primary [t] (.literal ⟨form, t.lexeme, t.line⟩)
  | var {t} : t.kind = .identifier → Primary [t] (.var ⟨t.lexeme, t.line⟩)
  | new {t ts name l r} : t.kind = .kwNew → TypeName ts name → l.kind = .leftParen →
    r.kind = .rightParen → Primary (t :: ts ++ [l, r]) (.new name)
  | call {t l ts args r} : t.kind = .identifier → l.kind = .leftParen → Arguments ts args →
    r.kind = .rightParen → Primary (t :: l :: ts ++ [r]) (.call ⟨t.lexeme, t.line⟩ args)
  | group {l ts e r} : l.kind = .leftParen → Expression ts e → r.kind = .rightParen →
    Primary (l :: ts ++ [r]) (.group e)

inductive Arguments : List Token → List Expr → Prop
  | none : Arguments [] []
  | some {ts es} : Expressions ts es → Arguments ts es

inductive Expressions : List Token → List Expr → Prop
  | one {ts e} : Expression ts e → Expressions ts [e]
  | more {ts e comma us es} : Expression ts e → comma.kind = .comma → Expressions us es →
    Expressions (ts ++ comma :: us) (e :: es)

inductive Postfix : List Token → Expr → Prop
  | primary {ts e} : Primary ts e → Postfix ts e
  | increment {ts name t op} : Target ts name → Increments t.kind op →
    Postfix (ts ++ [t]) (.increment op t.line .after name)

/-- Operands with the operators that stand before one. -/
inductive Unary : List Token → Expr → Prop
  | operand {ts e} : Postfix ts e → Unary ts e
  | increment {t op ts name} : Increments t.kind op → Target ts name →
    Unary (t :: ts) (.increment op t.line .before name)
  | negative {t u form} : t.kind = .minus → Numeric u.kind → Denotes u.kind u.decoded form →
    Unary [t, u] (.literal ⟨form, "-" ++ u.lexeme, u.line⟩)
  /-- A minus before a number is part of the number. -/
  | operator {t op ts e} : Prefixes t.kind op → Unary ts e →
    (t.kind = .minus → ∀ u ∈ ts.head?, ¬Numeric u.kind) →
    Unary (t :: ts) (.unary op t.line e)

/-- Operands joined by operators of the levels below `n`, grouped to the left. -/
inductive Chain : Nat → List Token → Expr → Prop
  | operand {ts e} : Unary ts e → Chain 0 ts e
  | up {n ts e} : Chain n ts e → Chain (n + 1) ts e
  | join {n ts left t j us right} : Chain (n + 1) ts left → Joins n t.kind j → Chain n us right →
    Chain (n + 1) (ts ++ t :: us) (j.join t.line left right)

/-- `c ? a : b`, with any expression in the middle and grouped to the right. -/
inductive Conditional : List Token → Expr → Prop
  | chain {ts e} : Chain 10 ts e → Conditional ts e
  | choice {cs c q ts a colon us b} : Chain 10 cs c → q.kind = .question → Expression ts a →
    colon.kind = .colon → Conditional us b →
    Conditional (cs ++ q :: ts ++ colon :: us) (.conditional q.line c a b)

/-- Assignments, grouped to the right. -/
inductive Expression : List Token → Expr → Prop
  | conditional {ts e} : Conditional ts e → Expression ts e
  | assign {ts name t op us value} : Target ts name → Assigns t.kind op →
    Expression us value → Expression (ts ++ t :: us) (.assign op t.line name value)

end

inductive Parenthesized : List Token → Expr → Prop
  | mk {l ts e r} : l.kind = .leftParen → Expression ts e → r.kind = .rightParen →
    Parenthesized (l :: ts ++ [r]) e

inductive Maybe : List Token → Option Expr → Prop
  | absent : Maybe [] none
  | present {ts e} : Expression ts e → Maybe ts (some e)

inductive Initializer : List Token → Option Expr → Prop
  | absent : Initializer [] none
  | present {t ts e} : t.kind = .assign → Expression ts e → Initializer (t :: ts) (some e)

/-- Variables of one type with commas between, one statement for each. -/
inductive Declarators (type : Name) : List Token → List Stmt → Prop
  | one {t ts init} : t.kind = .identifier → Initializer ts init →
    Declarators type (t :: ts) [.var type ⟨t.lexeme, t.line⟩ init]
  | more {t ts init comma us decls} : t.kind = .identifier → Initializer ts init →
    comma.kind = .comma → Declarators type us decls →
    Declarators type (t :: ts ++ comma :: us) (.var type ⟨t.lexeme, t.line⟩ init :: decls)

inductive Declaration : List Token → List Stmt → Prop
  | mk {ts type us decls} : TypeName ts type → Declarators type us decls →
    Declaration (ts ++ us) decls

inductive ForInit : List Token → List Stmt → Prop
  | none : ForInit [] []
  | declaration {ts decls} : Declaration ts decls → ForInit ts decls
  | expressions {ts es} : Expressions ts es → ForInit ts (es.map .expr)

/-- The parts of a for statement between its parentheses, with both of them. -/
inductive ForHeader : List Token → List Stmt → Option Expr → List Expr → Prop
  | mk {l is init s₁ cs cond s₂ us update r} : l.kind = .leftParen → ForInit is init →
    s₁.kind = .semi → Maybe cs cond → s₂.kind = .semi → Arguments us update →
    r.kind = .rightParen → ForHeader (l :: is ++ s₁ :: cs ++ s₂ :: us ++ [r]) init cond update

inductive CaseLabel : List Token → Option Expr → Prop
  | default {t colon} : t.kind = .kwDefault → colon.kind = .colon → CaseLabel [t, colon] none
  | case {t ts e colon} : t.kind = .kwCase → Expression ts e → colon.kind = .colon →
    CaseLabel (t :: ts ++ [colon]) (some e)

/-- The labels of a group, at least one. -/
inductive CaseLabels : List Token → List (Option Expr) → Prop
  | one {ts label} : CaseLabel ts label → CaseLabels ts [label]
  | more {ts label us labels} : CaseLabel ts label → CaseLabels us labels →
    CaseLabels (ts ++ us) (label :: labels)

/-- The part of a catch clause between its parentheses, with both of them. -/
inductive CatchHeader : List Token → Name → Name → Prop
  | mk {l ts type t r} : l.kind = .leftParen → TypeName ts type → t.kind = .identifier →
    r.kind = .rightParen → CatchHeader (l :: ts ++ [t, r]) type ⟨t.lexeme, t.line⟩

/-- A statement that ends in an if without an else. -/
def endsOpen : Stmt → Bool
  | .ifElse _ _ _ none => true
  | .ifElse _ _ _ (some elseBranch) => endsOpen elseBranch
  | .whileLoop _ _ body => endsOpen body
  | .forLoop _ _ _ _ body => endsOpen body
  | _ => false

mutual

/-- Every statement that is not a declaration. -/
inductive Statement : List Token → Stmt → Prop
  | block {ts body} : Block ts body → Statement ts (.block body)
  | ifThen {t cs cond ts s} : t.kind = .kwIf → Parenthesized cs cond → Statement ts s →
    Statement (t :: cs ++ ts) (.ifElse t.line cond s none)
  /-- An else belongs to the nearest if, so the branch before it has none that could take it. -/
  | ifElse {t cs cond ts s e us s'} : t.kind = .kwIf → Parenthesized cs cond → Statement ts s →
    endsOpen s = false → e.kind = .kwElse → Statement us s' →
    Statement (t :: cs ++ ts ++ e :: us) (.ifElse t.line cond s (some s'))
  | whileLoop {t cs cond ts body} : t.kind = .kwWhile → Parenthesized cs cond →
    Statement ts body → Statement (t :: cs ++ ts) (.whileLoop t.line cond body)
  | doLoop {t ts body w cs cond semi} : t.kind = .kwDo → Statement ts body → w.kind = .kwWhile →
    Parenthesized cs cond → semi.kind = .semi →
    Statement (t :: ts ++ w :: cs ++ [semi]) (.doLoop t.line body cond)
  | forLoop {t hs init cond update ts body} : t.kind = .kwFor → ForHeader hs init cond update →
    Statement ts body → Statement (t :: hs ++ ts) (.forLoop t.line init cond update body)
  | switch {t cs subject l gs groups r} : t.kind = .kwSwitch → Parenthesized cs subject →
    l.kind = .leftCurly → Groups gs groups → r.kind = .rightCurly →
    Statement (t :: cs ++ l :: gs ++ [r]) (.switch t.line subject groups)
  | brk {t semi} : t.kind = .kwBreak → semi.kind = .semi → Statement [t, semi] (.brk t.line)
  | cont {t semi} : t.kind = .kwContinue → semi.kind = .semi → Statement [t, semi] (.cont t.line)
  | ret {t ts value semi} : t.kind = .kwReturn → Maybe ts value → semi.kind = .semi →
    Statement (t :: ts ++ [semi]) (.ret t.line value)
  | throw {t ts value semi} : t.kind = .kwThrow → Expression ts value → semi.kind = .semi →
    Statement (t :: ts ++ [semi]) (.throw t.line value)
  | tryCatch {t bs body cs catches fs cleanup} : t.kind = .kwTry → Block bs body →
    Catches cs catches → Finally fs cleanup → (catches = [] → cleanup ≠ none) →
    Statement (t :: bs ++ cs ++ fs) (.tryCatch body catches cleanup)
  | empty {t} : t.kind = .semi → Statement [t] .empty
  | expr {ts e semi} : Expression ts e → semi.kind = .semi → Statement (ts ++ [semi]) (.expr e)

inductive Block : List Token → List Stmt → Prop
  | mk {l ts body r} : l.kind = .leftCurly → Statements ts body → r.kind = .rightCurly →
    Block (l :: ts ++ [r]) body

/-- A statement, or a declaration, which is a statement for each variable. -/
inductive BlockStatement : List Token → List Stmt → Prop
  | declaration {ts decls semi} : Declaration ts decls → semi.kind = .semi →
    BlockStatement (ts ++ [semi]) decls
  | statement {ts s} : Statement ts s → BlockStatement ts [s]

inductive Statements : List Token → List Stmt → Prop
  | nil : Statements [] []
  | cons {ts ss us ss'} : BlockStatement ts ss → Statements us ss' →
    Statements (ts ++ us) (ss ++ ss')

/-- The groups of a switch. Labels that follow one another belong to one group, so only the last
group can be without statements. -/
inductive Groups : List Token → List SwitchGroup → Prop
  | nil : Groups [] []
  | cons {ls labels ts body gs groups} : CaseLabels ls labels → Statements ts body →
    Groups gs groups → (body = [] → groups = []) →
    Groups (ls ++ ts ++ gs) (.mk labels body :: groups)

inductive Catches : List Token → List CatchClause → Prop
  | nil : Catches [] []
  | cons {t hs type name bs body cs catches} : t.kind = .kwCatch → CatchHeader hs type name →
    Block bs body → Catches cs catches →
    Catches (t :: hs ++ bs ++ cs) (.mk type name body :: catches)

inductive Finally : List Token → Option (List Stmt) → Prop
  | absent : Finally [] none
  | present {t bs body} : t.kind = .kwFinally → Block bs body → Finally (t :: bs) (some body)

end

end Jminus.Grammar
