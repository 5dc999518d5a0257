import Jminus.Checked
import Jminus.Decimal.Reader
import Jminus.Diagnostic

/-!
From trees to checked trees.

Expressions are checked against the names in scope and change nothing: their checks answer with
the checked expression and with what is wrong, in the order of the source. Statements open and
close scopes and frames and hand out slots.
-/
namespace Jminus.Checked

/-- A value with the reports made on the way to it. -/
abbrev Reported (α : Type) := α × List Diagnostic

def report (line : Nat) (p : Problem) : Diagnostic :=
  { phase := .semantic, severity := .error, problem := p, line }

/-- The least and greatest whole numbers of 32 bits. -/
def fitsInt (n : Int) : Bool := -2147483648 ≤ n && n ≤ 2147483647

def fitsLong (n : Int) : Bool := -9223372036854775808 ≤ n && n ≤ 9223372036854775807

/-- A literal whose text stands for no value. -/
def noValue (cause : Cause) (lit : Literal) : Reported Expr :=
  (.literal .any none, [report lit.line (cause.on lit.lexeme)])

def checkLiteral (lit : Literal) : Reported Expr :=
  let text := lit.lexeme.toList
  match lit.form with
  | .int =>
    let n := Decimal.integerOf text
    if fitsInt n then (.literal .int (some (.int (Int32.ofInt n))), []) else noValue .intRange lit
  | .long =>
    let n := Decimal.integerOf text.dropLast
    if fitsLong n then (.literal .long (some (.long (Int64.ofInt n))), [])
    else noValue .intRange lit
  | .double =>
    match Decimal.floatOf? (text.takeWhile fun c => c ≠ 'd' && c ≠ 'D') with
    | some x => (.literal .double (some (.double x)), [])
    | none => noValue .malformedNumber lit
  | .char c => (.literal .char (some (.int (Int32.ofNat c.toNat))), [])
  | .string s => (.literal (.ref .string) (some (.string s)), [])
  | .bool b => (.literal .boolean (some (.bool b)), [])
  | .null => (.literal .null none, [])

def lookUp (env : Env) (name : Name) : Reported (Option Local) :=
  match env.get? name.text with
  | some v => (some v, [])
  | none => (none, [report name.line (Cause.undefinedVariable.on name.text)])

def conditionReports (line : Nat) (t : Ty) : List Diagnostic :=
  if t = .any || t = .boolean then []
  else [report line (Cause.typeMismatch.on ("condition must be boolean, found " ++ t.name))]

/-- The report that a value does not fit a variable. -/
def assignReports (line : Nat) (got want : Ty) : List Diagnostic :=
  if got.assignableTo want then []
  else [report line
    (Cause.typeMismatch.on ("cannot assign " ++ got.name ++ " to " ++ want.name))]

/-- The result of the operation fits back into the variable. -/
def fitsCompound (op : Operator) (want got : Ty) : Bool :=
  (Ty.binary (some (.compute op)) want got).any fun (result, _) => result.assignableTo want

/-- The report that a variable cannot be combined with a value. -/
def compoundReports (line : Nat) (op : Operator) (want got : Ty) : List Diagnostic :=
  if fitsCompound op want got then []
  else [report line
    (Cause.operandType.on (want.name ++ " " ++ op.image ++ "= " ++ got.name))]

mutual

def checkExpr (env : Env) : Jminus.Expr → Reported Expr
  | .literal lit => checkLiteral lit
  | .var name =>
    let (v, found) := lookUp env name
    (.var v, found)
  | .assign op line target value =>
    let (v, inTarget) := lookUp env target
    let (value, inValue) := checkExpr env value
    let want := typeOf v
    let got := value.type
    let mismatch :=
      match op with
      | .plain => assignReports line got want
      | .compound o => compoundReports line o want got
    (.assign op v value, inTarget ++ inValue ++ mismatch)
  | .binary op line left right =>
    let (left, inLeft) := checkExpr env left
    let (right, inRight) := checkExpr env right
    match Ty.binary (some op) left.type right.type with
    | some (result, operand) =>
      (.binary op result (some operand) left right, inLeft ++ inRight)
    | none =>
      (.binary op .any none left right, inLeft ++ inRight ++
        [report line (Cause.operandType.on
          (left.type.name ++ " " ++ op.image ++ " " ++ right.type.name))])
  | .logical op line left right =>
    let (left, inLeft) := checkExpr env left
    let (right, inRight) := checkExpr env right
    (.logical op left right,
      inLeft ++ conditionReports line left.type ++ (inRight ++ conditionReports line right.type))
  | .unary op line operand =>
    let (operand, found) := checkExpr env operand
    let t := operand.type
    if t = .any then (.unary op .any operand, found)
    else if t.unary op then (.unary op t operand, found)
    else (.unary op .any operand,
      found ++ [report line (Cause.operandType.on (op.image ++ t.name))])
  | .increment op line side target =>
    let (v, found) := lookUp env target
    let t := typeOf v
    let unfit :=
      if t = .any || t.isNumeric then []
      else [report line (Cause.operandType.on (op.image ++ t.name))]
    (.increment op side v, found ++ unfit)
  | .conditional line cond thenPart elsePart =>
    let (cond, inCond) := checkExpr env cond
    let (thenPart, inThen) := checkExpr env thenPart
    let (elsePart, inElse) := checkExpr env elsePart
    let found := inCond ++ conditionReports line cond.type ++ inThen ++ inElse
    match Ty.conditional thenPart.type elsePart.type with
    | some t => (.conditional t cond thenPart elsePart, found)
    | none =>
      (.conditional .any cond thenPart elsePart, found ++
        [report line (Cause.typeMismatch.on ("conditional branches have types " ++
          thenPart.type.name ++ " and " ++ elsePart.type.name))])
  | .new className =>
    match Ty.ofName? className.text with
    | none => (.new .any, [report className.line (Cause.unknownType.on className.text)])
    | some t =>
      if t = .ref .object || t.isThrowable then (.new t, [])
      else (.new .any, [report className.line (Cause.notClass.on t.name)])
  | .call name args =>
    let (args, found) := checkExprs env args
    match Method.resolve name.text (args.map Expr.type) with
    | .ok method => (.call (some method) args, found)
    | .error p => (.call none args, found ++ [report name.line p])
  | .group inner =>
    let (inner, found) := checkExpr env inner
    (.group inner, found)

def checkExprs (env : Env) : List Jminus.Expr → Reported (List Expr)
  | [] => ([], [])
  | e :: es =>
    let (e, found) := checkExpr env e
    let (es, more) := checkExprs env es
    (e :: es, found ++ more)

end

structure State where
  env : Env := {}
  flows : FlowStack := {}
  /-- How many frames have been opened. -/
  frames : Nat := 0
  diagnostics : List Diagnostic := []

abbrev Analysis := StateT State (Except Fault)

namespace Analysis

def tell (ds : List Diagnostic) : Analysis Unit :=
  modify fun s => { s with diagnostics := s.diagnostics ++ ds }

def expr (e : Jminus.Expr) : Analysis Expr := do
  let (e, found) := checkExpr (← get).env e
  tell found
  return e

def exprs (es : List Jminus.Expr) : Analysis (List Expr) := do
  let (es, found) := checkExprs (← get).env es
  tell found
  return es

def condition (line : Nat) (e : Jminus.Expr) : Analysis Expr := do
  let e ← expr e
  tell (conditionReports line e.type)
  return e

def inScope {α : Type} (body : Analysis α) : Analysis α := do
  modify fun s => { s with env := s.env.enter }
  let a ← body
  modify fun s => { s with env := s.env.leave }
  return a

/-- Runs an analysis in a frame of its own and answers with the frame as it was left. -/
def inFrame {α : Type} (kind : FrameKind) (body : Analysis α) : Analysis (Frame × α) := do
  let id := (← get).frames
  modify fun s => { s with frames := s.frames + 1, flows := s.flows.push { id, kind } }
  let a ← body
  let (frame, flows) ← (← get).flows.pop id
  modify fun s => { s with flows }
  return (frame, a)

def allocate : Analysis Nat := do
  let (slot, env) := (← get).env.allocate
  modify fun s => { s with env }
  return slot

def declaredType (type name : Name) : Analysis Ty :=
  match Ty.ofName? type.text with
  | none => do
    tell [report type.line (Cause.unknownType.on type.text)]
    return .any
  | some .void => do
    tell [report name.line
      (Cause.typeMismatch.on ("variable " ++ name.text ++ " cannot be void"))]
    return .any
  | some t => return t

/-- Declares a variable; a second declaration means the first one. -/
def declare (name : Name) (type : Ty) : Analysis Local := do
  let env := (← get).env
  match env.get? name.text with
  | some v =>
    tell [report name.line (Cause.redeclaredVariable.on name.text)]
    return v
  | none =>
    let (v, env) := env.add name.text type
    modify fun s => { s with env }
    return v

def caughtType (type : Name) : Analysis Ty :=
  match Ty.ofName? type.text with
  | none => do
    tell [report type.line (Cause.unknownType.on type.text)]
    return .ref .throwable
  | some t =>
    if t.isThrowable then return t
    else do
      tell [report type.line (Cause.notThrowable.on t.name)]
      return .ref .throwable

/-- Declares a catch parameter; one whose name is taken gets a slot all the same. -/
def declareCaught (name : Name) (type : Ty) : Analysis Local := do
  match (← get).env.define name.text type with
  | some (v, env) =>
    modify fun s => { s with env }
    return v
  | none =>
    tell [report name.line (Cause.redeclaredVariable.on name.text)]
    let slot ← allocate
    return { name := name.text, type, slot }

structure Labels where
  values : List Int32 := []
  hasDefault : Bool := false

/-- Checks one label of a switch at `line` and answers with the value it adds. -/
def label (line : Nat) (seen : Labels) : Option Jminus.Expr → Analysis (Option Int32 × Labels)
  | none => do
    if seen.hasDefault then tell [report line { cause := .duplicateDefault }]
    return (none, { seen with hasDefault := true })
  | some e => do
    let checked ← expr e
    match e with
    | .literal { form := .int, line := own, .. } =>
      match checked with
      | .literal .int (some (.int v)) =>
        if seen.values.contains v then
          tell [report own (Cause.duplicateCase.on (toString v.toInt))]
          return (none, seen)
        else return (some v, { seen with values := seen.values ++ [v] })
      | _ => return (none, seen)
    | _ =>
      tell [report line { cause := .caseNotLiteral }]
      return (none, seen)

/-- Checks the labels of a group: its values, and what has been met with them. -/
def labels (line : Nat) (seen : Labels) :
    List (Option Jminus.Expr) → Analysis (List Int32 × Labels)
  | [] => return ([], seen)
  | l :: ls => do
    let (value, seen) ← label line seen l
    let (values, seen) ← labels line seen ls
    return (value.toList ++ values, seen)

/-- Binds a jump to the frame that it leads to, which is marked. -/
def jumpAt (find : FlowStack → Option Frame) (mark : FlowStack → Nat → FlowStack) (cause : Cause)
    (line : Nat) : Analysis (Option Nat) := do
  match find (← get).flows with
  | some frame =>
    modify fun s => { s with flows := mark s.flows frame.id }
    return some frame.id
  | none =>
    tell [report line { cause }]
    return none

abbrev breakAt (line : Nat) : Analysis (Option Nat) :=
  jumpAt FlowStack.breakTarget? FlowStack.markBreak .breakOutside line

abbrev continueAt (line : Nat) : Analysis (Option Nat) :=
  jumpAt FlowStack.continueTarget? FlowStack.markContinue .continueOutside line

end Analysis

open Analysis

mutual

def checkStmt : Jminus.Stmt → Analysis Stmt
  | .expr e => do return .expr (← expr e)
  | .var type name none => do
    let t ← declaredType type name
    return .var (← declare name t) none
  | .var type name (some init) => do
    let t ← declaredType type name
    let init ← expr init
    tell (assignReports name.line init.type t)
    return .var (← declare name t) (some init)
  | .block body => do return .block (← inScope (checkStmts body))
  | .ifElse line cond thenBranch none => do
    let cond ← condition line cond
    return .ifElse cond (← inScope (checkStmt thenBranch)) none
  | .ifElse line cond thenBranch (some elseBranch) => do
    let cond ← condition line cond
    let thenBranch ← inScope (checkStmt thenBranch)
    let elseBranch ← inScope (checkStmt elseBranch)
    return .ifElse cond thenBranch (some elseBranch)
  | .whileLoop line cond body => do
    let (frame, cond, body) ← inFrame .loop do
      let cond ← condition line cond
      let body ← inScope (checkStmt body)
      return (cond, body)
    return .whileLoop frame cond body
  | .doLoop line body cond => do
    let (frame, body, cond) ← inFrame .loop do
      let body ← inScope (checkStmt body)
      let cond ← condition line cond
      return (body, cond)
    return .doLoop frame body cond
  | .forLoop line init cond update body => do
    let (frame, init, cond, update, body) ← inFrame .loop <| inScope do
      let init ← checkStmts init
      let cond ← cond.mapM (condition line)
      let update ← exprs update
      let body ← inScope (checkStmt body)
      return (init, cond, update, body)
    return .forLoop frame init cond update body
  | .switch line subject groups => do
    let (frame, subject, groups) ← inFrame .switch do
      let subject ← expr subject
      let t := subject.type
      unless t = .any || t = .int do
        tell [report line (Cause.typeMismatch.on ("switch on " ++ t.name ++ ", expected int"))]
      let groups ← checkGroups line {} groups
      return (subject, groups)
    return .switch line frame subject groups
  | .brk line => do return .brk line (← breakAt line)
  | .cont line => do return .cont line (← continueAt line)
  | .ret _ none => return .ret
  | .ret line (some value) => do
    let _ ← expr value
    tell [report line (Cause.typeMismatch.on "cannot return a value from main")]
    return .ret
  | .throw line value => do
    let value ← expr value
    let t := value.type
    unless t = .any || t = .null || t.isThrowable do
      tell [report line (Cause.typeMismatch.on ("cannot throw " ++ t.name))]
    return .throw value
  | .tryCatch body catches none => do
    let body ← inScope (checkStmts body)
    return .tryCatch body (← checkCatches catches) .absent
  | .tryCatch body catches (some cleanup) => do
    let body ← inScope (checkStmts body)
    let catches ← checkCatches catches
    let cleanup ← inScope (checkStmts cleanup)
    return .tryCatch body catches (.mk (← allocate) cleanup)
  | .empty => return .empty

def checkStmts : List Jminus.Stmt → Analysis (List Stmt)
  | [] => return []
  | s :: ss => do
    let s ← checkStmt s
    return s :: (← checkStmts ss)

def checkGroups (line : Nat) (seen : Labels) :
    List Jminus.SwitchGroup → Analysis (List SwitchGroup)
  | [] => return []
  | .mk ls body :: groups => do
    let (values, seen) ← labels line seen ls
    let body ← inScope (checkStmts body)
    return .mk values (ls.any (·.isNone)) body :: (← checkGroups line seen groups)

def checkCatches : List Jminus.CatchClause → Analysis (List CatchClause)
  | [] => return []
  | .mk type name body :: clauses => do
    let clause ← inScope do
      let param ← declareCaught name (← caughtType type)
      let body ← inScope (checkStmts body)
      return CatchClause.mk param body
    return clause :: (← checkCatches clauses)

end

/-- A whole program after analysis. -/
structure Program where
  stmts : List Stmt
  slots : Nat
  diagnostics : List Diagnostic

def check (program : List Jminus.Stmt) : Except Fault Program := do
  let (stmts, s) ← (checkStmts program).run {}
  if s.flows.depth = 0 then
    return { stmts, slots := s.env.slots, diagnostics := s.diagnostics }
  else .error (.flowLeftOpen s.flows.depth)

end Jminus.Checked
