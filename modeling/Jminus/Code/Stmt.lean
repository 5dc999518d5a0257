import Jminus.Code.Expr

/-!
Code of statements.

A statement starts and ends with an empty stack. A finally clause is laid out once behind the try
block, once behind each catch block, and once as a handler that throws on what it caught; each
copy has labels of its own, and none of them lies in a range that leads back to it.
-/
namespace Jminus.Checked

/-- Where the jumps of a frame lead. -/
structure Exit where
  frame : Nat
  brk : Option Label
  cont : Option Label
  deriving DecidableEq, Repr

/-- The exits of the frames around a statement, innermost first. -/
abbrev Exits := List Exit

namespace Exits

def ofFrame? (exits : Exits) (target : Option Nat) : Option Exit :=
  target.bind fun id => exits.find? (·.frame = id)

end Exits

def zero (t : Ty) : Item :=
  match t with
  | .int | .boolean | .char => Code.ldc (.int 0)
  | .long => Code.ldc (.long 0)
  | .double => Code.ldc (.double 0)
  | _ => Code.op .aconstNull

def effect (e : Expr) : Gen Code := do
  let code ← e.value
  return if e.type = .void then code else code ++ [Code.op .pop]

def effects : List Expr → Gen Code
  | [] => return []
  | e :: es => do
    let first ← effect e
    return first ++ (← effects es)

/-- The label of the group at an index, if the labels of the groups follow `base`. -/
def groupLabel (base index : Nat) : Label := ⟨(base + index + 1 : Nat)⟩

def SwitchGroup.values : SwitchGroup → List Int32
  | .mk values _ _ => values

def SwitchGroup.isDefault : SwitchGroup → Bool
  | .mk _ isDefault _ => isDefault

def casePairs (base : Nat) (groups : List SwitchGroup) : List (Int32 × Label) :=
  groups.zipIdx.flatMap fun (g, i) => g.values.map fun v => (v, groupLabel base i)

/-- The label of the default group. Of several the last one counts. -/
def defaultLabel? (base : Nat) (groups : List SwitchGroup) : Option Label :=
  (groups.zipIdx.filter fun (g, _) => g.isDefault).getLast?.map fun (_, i) => groupLabel base i

/-- A catch block that was laid out: its start, which is its handler, and its end. -/
structure Caught where
  start : Label
  stop : Label
  deriving DecidableEq, Repr

/-- The handler of a finally clause, for the try block and for the catch blocks. It also covers
its own first instruction, the one that puts the exception aside. -/
def delay (tryStart tryEnd : Label) (caught : List Caught) (slot : Nat) (cleanup : Gen Code) :
    Gen Code := do
  let start ← Code.fresh
  let body ← Code.fresh
  let copy ← cleanup
  let covers (first last : Label) : Item :=
    .handler { start := first, stop := last, handler := start, exceptionType := "" }
  return [.label start, Code.store .ref slot, .label body] ++ copy ++
    [Code.load .ref slot, Code.op .athrow, covers tryStart tryEnd] ++
    caught.map (fun c => covers c.start c.stop) ++ [covers start body]

mutual

def stmtCode : Stmt → Exits → Gen Code
  | .expr e, _ => effect e
  | .var v none, _ => return [zero v.type, Code.store v.type.cell v.slot]
  | .var v (some init), _ => do return (← init.value) ++ [Code.store v.type.cell v.slot]
  | .block body, exits => stmtsCode body exits
  | .ifElse cond thenBranch none, exits => do
    let elseLabel ← Code.fresh
    let test ← cond.cond elseLabel false
    let thenCode ← stmtCode thenBranch exits
    return test ++ thenCode ++ [.label elseLabel]
  | .ifElse cond thenBranch (some elseBranch), exits => do
    let elseLabel ← Code.fresh
    let test ← cond.cond elseLabel false
    let thenCode ← stmtCode thenBranch exits
    let endLabel ← Code.fresh
    let elseCode ← stmtCode elseBranch exits
    return test ++ thenCode ++ [Code.goto endLabel, .label elseLabel] ++ elseCode ++
      [.label endLabel]
  | .whileLoop frame cond body, exits => do
    let test ← Code.fresh
    let contLabel ← Code.fresh
    let brkLabel ← Code.fresh
    let condCode ← cond.cond brkLabel false
    let inner : Exits := { frame := frame.id, brk := brkLabel, cont := contLabel } :: exits
    let bodyCode ← stmtCode body inner
    return [.label test] ++ condCode ++ bodyCode ++
      [.label contLabel, Code.goto test, .label brkLabel]
  | .doLoop frame body cond, exits => do
    let bodyStart ← Code.fresh
    let contLabel ← Code.fresh
    let brkLabel ← Code.fresh
    let inner : Exits := { frame := frame.id, brk := brkLabel, cont := contLabel } :: exits
    let bodyCode ← stmtCode body inner
    let condCode ← cond.cond bodyStart true
    return [.label bodyStart, .label contLabel] ++ bodyCode ++ condCode ++ [.label brkLabel]
  | .forLoop frame init cond update body, exits => do
    let test ← Code.fresh
    let contLabel ← Code.fresh
    let brkLabel ← Code.fresh
    let inner : Exits := { frame := frame.id, brk := brkLabel, cont := contLabel } :: exits
    let initCode ← stmtsCode init inner
    let condCode ← match cond with
      | some c => c.cond brkLabel false
      | none => pure []
    let bodyCode ← stmtCode body inner
    let updateCode ← effects update
    return initCode ++ [.label test] ++ condCode ++ bodyCode ++ [.label contLabel] ++ updateCode ++
      [Code.goto test, .label brkLabel]
  | .switch line frame subject groups, exits => do
    let subjectCode ← subject.value
    let base ← get
    set (base + groups.length)
    let (dflt, past) ← match defaultLabel? base groups with
      | some label => pure (label, [])
      | none => do
        let label ← Code.fresh
        pure (label, [Item.label label])
    let (brk, behind) ← if frame.hasBreak then do
        let label ← Code.fresh
        pure (some label, [Item.label label])
      else pure (none, [])
    let bodies ← groupsCode groups base ({ frame := frame.id, brk, cont := none } :: exits)
    return subjectCode ++ [.dispatch line (casePairs base groups) dflt] ++ bodies ++ past ++ behind
  | .brk line target, exits =>
    match (exits.ofFrame? target).bind (·.brk) with
    | some label => return [Code.goto label]
    | none => throw (.breakWithoutTarget line)
  | .cont line target, exits =>
    match (exits.ofFrame? target).bind (·.cont) with
    | some label => return [Code.goto label]
    | none => throw (.continueWithoutTarget line)
  | .ret, _ => return [Code.op .ret]
  | .throw value, _ => do return (← value.value) ++ [Code.op .athrow]
  | .tryCatch body catches cleanup, exits => do
    let tryStart ← Code.fresh
    let tryEnd ← Code.fresh
    let endLabel ← Code.fresh
    let bodyCode ← stmtsCode body exits
    let copy ← cleanupCode cleanup exits
    let (catchCode, caught) ← catchesCode catches exits (cleanupCode cleanup exits) endLabel
      tryStart tryEnd
    let delayed ← match cleanup with
      | .absent => pure []
      | .mk slot _ => delay tryStart tryEnd caught slot (cleanupCode cleanup exits)
    return [.label tryStart] ++ bodyCode ++ [.label tryEnd] ++ copy ++ [Code.goto endLabel] ++
      catchCode ++ delayed ++ [.label endLabel]
  | .empty, _ => return []

def stmtsCode : List Stmt → Exits → Gen Code
  | [], _ => return []
  | s :: ss, exits => do
    let first ← stmtCode s exits
    return first ++ (← stmtsCode ss exits)

def groupsCode : List SwitchGroup → Nat → Exits → Gen Code
  | [], _, _ => return []
  | .mk _ _ body :: groups, base, exits => do
    let bodyCode ← stmtsCode body exits
    return .label (groupLabel base 0) :: bodyCode ++ (← groupsCode groups (base + 1) exits)

/-- Catch blocks one after the other, each followed by a copy of the cleanup. -/
def catchesCode : List CatchClause → Exits → Gen Code → Label → Label → Label →
    Gen (Code × List Caught)
  | [], _, _, _, _, _ => return ([], [])
  | .mk param body :: clauses, exits, cleanup, endLabel, tryStart, tryEnd => do
    let start ← Code.fresh
    let stop ← Code.fresh
    let bodyCode ← stmtsCode body exits
    let copy ← cleanup
    let (more, caught) ← catchesCode clauses exits cleanup endLabel tryStart tryEnd
    let entry : Handler :=
      { start := tryStart, stop := tryEnd, handler := start, exceptionType := param.type.path }
    return ([.label start, Code.store param.type.cell param.slot] ++ bodyCode ++ [.label stop] ++
      copy ++ [Code.goto endLabel, .handler entry] ++ more, { start, stop } :: caught)

def cleanupCode : Cleanup → Exits → Gen Code
  | .absent, _ => return []
  | .mk _ body, exits => stmtsCode body exits

end

def programCode (stmts : List Stmt) : Gen Code := do
  return (← stmtsCode stmts []) ++ [Code.op .ret]

/-- The code and the listing of a program, with every label in its place. -/
def generate (stmts : List Stmt) : Except Fault (Code × Listing) := do
  let (code, _) ← (programCode stmts).run 0
  let listing ← code.assemble
  listing.resolve
  return (code, listing)

end Jminus.Checked
