import Jminus.Code.Stmt
import Jminus.Proofs.Peeling
import Mathlib

/-!
What the code of each construct looks like, in one line each: the parts it is made of, in the order
in which they are made, and where their labels come from.
-/
namespace Jminus.Checked

open Code

variable {n n' : Nat} {code : Code}

-- Makes the equations of both once, before the many proofs that unfold them.
attribute [local simp] forms stmtCode

attribute [local simp] bind_ok map_ok pure_ok throw_ok fresh_ok get_ok set_ok and_assoc

variable {v : Option Local} {i : Item} {o : Operator} {target : Label} {onTrue : Bool}
  {left right : Label → Bool → Gen Code} {value operand e : Expr} {t : Ty} {es : List Expr}

/-- Only a resolved variable is loaded. -/
theorem loadLocal_ok :
    loadLocal v n = .ok (i, n') ↔ ∃ x, v = some x ∧ i = load x.type.cell x.slot ∧ n' = n := by
  cases v with
  | none => simp [loadLocal, throw_ok]
  | some x => simp [loadLocal, pure_ok]

theorem storeLocal_ok :
    storeLocal v n = .ok (i, n') ↔ ∃ x, v = some x ∧ i = store x.type.cell x.slot ∧ n' = n := by
  cases v with
  | none => simp [storeLocal, throw_ok]
  | some x => simp [storeLocal, pure_ok]

attribute [local simp] loadLocal_ok storeLocal_ok

def operatorItem? (o : Operator) (left right : Ty) : Option Item :=
  if o = .arith .add && (left = .ref .string || right = .ref .string) then
    some (call (Method.concat left right))
  else (opcode? o left).map op

theorem operator_ok {left right : Ty} :
    operator o left right n = .ok (i, n') ↔ operatorItem? o left right = some i ∧ n' = n := by
  unfold operator operatorItem?
  by_cases hjoin : (o = .arith .add && (left = .ref .string || right = .ref .string)) = true
  · simp [hjoin, Option.some.injEq, @eq_comm _ i]
  · simp [hjoin]
    cases opcode? o left with
    | none => simp [throw_ok]
    | some o => simp [pure_ok, @eq_comm _ i]

attribute [local simp] operator_ok

/-- A value is tested by a branch behind it. -/
theorem test_ok {value : Gen Code} :
    Forms.test value target onTrue n = .ok (code, n') ↔ ∃ c, value n = .ok (c, n') ∧
      code = c ++ [.jump (.ifZero (if onTrue then .ne else .eq)) target] := by
  simp [Forms.test]

/-- A condition is made a value by two ways that meet. -/
theorem materialize_ok {cond : Label → Bool → Gen Code} :
    Forms.materialize cond n = .ok (code, n') ↔
      ∃ test, cond (.nth (n + 1)) false (n + 2) = .ok (test, n') ∧
        code = test ++ [ldc (.int 1), goto (.nth (n + 2)), .label (.nth (n + 1)), ldc (.int 0),
          .label (.nth (n + 2))] := by
  simp [Forms.materialize]

/-- Operands are compared by a branch behind both. -/
theorem compare_ok {rel : Relation} {t : Option Ty} {left right : Gen Code} :
    compare rel t left right target onTrue n = .ok (code, n') ↔
      ∃ a m, left n = .ok (a, m) ∧ ∃ b, right m = .ok (b, n') ∧
        code = a ++ b ++ (comparison rel t).1 ++ [.jump (if onTrue then (comparison rel t).2
          else (comparison rel t).2.negated?.getD (comparison rel t).2) target] := by
  simp [compare]

/-- Both conditions have to go the same way: the first one leaves early the other way. -/
theorem both_skip_ok {o : LogicalOp} (h : decide (o = .and) = onTrue) :
    both o left right target onTrue n = .ok (code, n') ↔
      ∃ a m, left (.nth (n + 1)) (!onTrue) (n + 1) = .ok (a, m) ∧
        ∃ b, right target onTrue m = .ok (b, n') ∧
          code = a ++ b ++ [.label (.nth (n + 1))] := by
  simp [both, h]

/-- One condition is enough: both lead to the target. -/
theorem both_join_ok {o : LogicalOp} (h : decide (o = .and) ≠ onTrue) :
    both o left right target onTrue n = .ok (code, n') ↔
      ∃ a m, left target onTrue n = .ok (a, m) ∧
        ∃ b, right target onTrue m = .ok (b, n') ∧ code = a ++ b := by
  simp [both, h]

theorem value_assign_ok {target : Option Local} :
    (Expr.assign .plain target value).value n = .ok (code, n') ↔
      ∃ c, value.value n = .ok (c, n') ∧ ∃ x, target = some x ∧
        code = c ++ [op .dup, store x.type.cell x.slot] := by
  simp [Expr.value, Forms.ofValue]

theorem value_compound_ok {target : Option Local} :
    (Expr.assign (.compound o) target value).value n = .ok (code, n') ↔
      ∃ x, target = some x ∧ ∃ c, value.value n = .ok (c, n') ∧
        ∃ i, operatorItem? o x.type value.type = some i ∧
          code = load x.type.cell x.slot :: c ++ [i, op .dup, store x.type.cell x.slot] := by
  cases target with
  | none => simp [Expr.value, Forms.ofValue]
  | some x => simp [Expr.value, Forms.ofValue, typeOf]

theorem value_compute_ok (t : Ty) (u : Option Ty) {left right : Expr} :
    (Expr.binary (.compute o) t u left right).value n = .ok (code, n') ↔
      ∃ a m, left.value n = .ok (a, m) ∧ ∃ b, right.value m = .ok (b, n') ∧
        ∃ i, operatorItem? o left.type right.type = some i ∧ code = a ++ b ++ [i] := by
  simp [Expr.value, Forms.ofValue]

theorem value_neg_ok :
    (Expr.unary .neg t operand).value n = .ok (code, n') ↔
      ∃ c, operand.value n = .ok (c, n') ∧ code = c ++ [op (.neg t.num)] := by
  simp [Expr.value, Forms.ofValue]

theorem value_complement_ok :
    (Expr.unary .complement t operand).value n = .ok (code, n') ↔
      ∃ c, operand.value n = .ok (c, n') ∧ code = c ++
        if t = .long then [ldc (.long (-1)), op (.bit .long .xor)]
        else [ldc (.int (-1)), op (.bit .int .xor)] := by
  simp [Expr.value, Forms.ofValue]

def stepOperator : IncrementOp → Operator
  | .inc => .arith .add
  | .dec => .arith .sub

/-- The code of an increment, around the item that makes the step. -/
def incrementCode (side : Side) (x : Local) (i : Item) : Code :=
  match side with
  | .before => [load x.type.cell x.slot, one x.type, i, op .dup, store x.type.cell x.slot]
  | .after => [load x.type.cell x.slot, op .dup, one x.type, i, store x.type.cell x.slot]

/-- A variable is loaded, changed and stored, with its value kept before or behind the change. -/
theorem value_increment_ok {o : IncrementOp} {side : Side} {target : Option Local} :
    (Expr.increment o side target).value n = .ok (code, n') ↔
      ∃ x, target = some x ∧ ∃ i, operatorItem? (stepOperator o) x.type x.type = some i ∧
        code = incrementCode side x i ∧ n' = n := by
  cases target with
  | none => simp [Expr.value, Forms.ofValue]
  | some x =>
    cases o <;> cases side <;>
      simp [Expr.value, Forms.ofValue, typeOf, stepOperator, incrementCode, and_comm]

/-- A conditional has the code of both parts and goes through one of them. -/
theorem value_conditional_ok (t : Ty) {cond thenPart elsePart : Expr} :
    (Expr.conditional t cond thenPart elsePart).value n = .ok (code, n') ↔
      ∃ a m, cond.cond (.nth (n + 1)) false (n + 2) = .ok (a, m) ∧
        ∃ b m', thenPart.value m = .ok (b, m') ∧ ∃ c, elsePart.value m' = .ok (c, n') ∧
          code = a ++ b ++ [goto (.nth (n + 2)), .label (.nth (n + 1))] ++ c ++
            [.label (.nth (n + 2))] := by
  simp [Expr.value, Expr.cond, Forms.ofValue]

theorem value_call_ok {m : Method} {args : List Expr} :
    (Expr.call (some m) args).value n = .ok (code, n') ↔
      ∃ c, values args n = .ok (c, n') ∧ code = c ++ [call m] := by
  simp [Expr.value, Forms.ofValue]

theorem values_cons_ok :
    values (e :: es) n = .ok (code, n') ↔
      ∃ a m, e.value n = .ok (a, m) ∧ ∃ b, values es m = .ok (b, n') ∧ code = a ++ b := by
  simp [Expr.value, values]

/-- A value that nobody wants is popped. -/
theorem effect_ok :
    effect e n = .ok (code, n') ↔ ∃ c, e.value n = .ok (c, n') ∧
      code = if e.type = .void then c else c ++ [op .pop] := by
  simp [effect]

theorem effects_cons_ok :
    effects (e :: es) n = .ok (code, n') ↔
      ∃ a m, effect e n = .ok (a, m) ∧ ∃ b, effects es m = .ok (b, n') ∧ code = a ++ b := by
  simp [effects]

section

variable {exits : Exits}

theorem var_ok {v : Local} {init : Expr} :
    stmtCode (.var v (some init)) exits n = .ok (code, n') ↔
      ∃ c, init.value n = .ok (c, n') ∧ code = c ++ [store v.type.cell v.slot] := by
  simp

variable {cond : Expr} {thenBranch body : Stmt} {frame : Frame} {line : Nat}
  {groups : List SwitchGroup} {target : Option Nat} {tryStart tryEnd : Label} {caught : List Caught}
  {cleanup : Gen Code}

theorem if_ok :
    stmtCode (.ifElse cond thenBranch none) exits n = .ok (code, n') ↔
      ∃ a m, cond.cond (.nth (n + 1)) false (n + 1) = .ok (a, m) ∧
        ∃ b, stmtCode thenBranch exits m = .ok (b, n') ∧
          code = a ++ b ++ [.label (.nth (n + 1))] := by
  simp

theorem ifElse_ok {elseBranch : Stmt} :
    stmtCode (.ifElse cond thenBranch (some elseBranch)) exits n = .ok (code, n') ↔
      ∃ a m, cond.cond (.nth (n + 1)) false (n + 1) = .ok (a, m) ∧
        ∃ b m', stmtCode thenBranch exits m = .ok (b, m') ∧
          ∃ c, stmtCode elseBranch exits (m' + 1) = .ok (c, n') ∧
            code = a ++ b ++ [goto (.nth (m' + 1)), .label (.nth (n + 1))] ++ c ++
              [.label (.nth (m' + 1))] := by
  simp

/-- A while loop tests, runs its body and goes back to the test. -/
theorem while_ok :
    stmtCode (.whileLoop frame cond body) exits n = .ok (code, n') ↔
      ∃ a m, cond.cond (.nth (n + 3)) false (n + 3) = .ok (a, m) ∧
        ∃ b, stmtCode body (⟨frame.id, some (.nth (n + 3)), some (.nth (n + 2))⟩ :: exits) m =
            .ok (b, n') ∧
          code = [.label (.nth (n + 1))] ++ a ++ b ++
            [.label (.nth (n + 2)), goto (.nth (n + 1)), .label (.nth (n + 3))] := by
  simp

theorem do_ok :
    stmtCode (.doLoop frame body cond) exits n = .ok (code, n') ↔
      ∃ b m, stmtCode body (⟨frame.id, some (.nth (n + 3)), some (.nth (n + 2))⟩ :: exits)
          (n + 3) = .ok (b, m) ∧
        ∃ a, cond.cond (.nth (n + 1)) true m = .ok (a, n') ∧
          code = [.label (.nth (n + 1)), .label (.nth (n + 2))] ++ b ++ a ++
            [.label (.nth (n + 3))] := by
  simp

def forTest (cond : Option Expr) (target : Label) : Gen Code :=
  match cond with
  | some c => c.cond target false
  | none => pure []

/-- In a for loop the updates stand behind the body. -/
theorem for_ok {init : List Stmt} {cond : Option Expr} {update : List Expr} :
    stmtCode (.forLoop frame init cond update body) exits n = .ok (code, n') ↔
      ∃ i m₁, stmtsCode init (⟨frame.id, some (.nth (n + 3)), some (.nth (n + 2))⟩ :: exits)
          (n + 3) = .ok (i, m₁) ∧
        ∃ a m₂, forTest cond (.nth (n + 3)) m₁ = .ok (a, m₂) ∧
          ∃ b m₃, stmtCode body (⟨frame.id, some (.nth (n + 3)), some (.nth (n + 2))⟩ :: exits)
              m₂ = .ok (b, m₃) ∧
            ∃ u, effects update m₃ = .ok (u, n') ∧
              code = i ++ [.label (.nth (n + 1))] ++ a ++ b ++ [.label (.nth (n + 2))] ++ u ++
                [goto (.nth (n + 1)), .label (.nth (n + 3))] := by
  cases cond <;>
    simp [forTest]

/-- Where a switch leads if no case fits: the label, what stands behind the groups for it, and the
labels used so far. -/
def fallback (base : Nat) (groups : List SwitchGroup) (n : Nat) : Label × Code × Nat :=
  match defaultLabel? base groups with
  | some label => (label, [], n)
  | none => (.nth (n + 1), [.label (.nth (n + 1))], n + 1)

/-- Where a break leads out of a switch. -/
def wayOut (frame : Frame) (n : Nat) : Option Label × Code × Nat :=
  if frame.hasBreak then (some (.nth (n + 1)), [.label (.nth (n + 1))], n + 1) else (none, [], n)

/-- A switch chooses among labels before the groups. -/
theorem switch_ok {subject : Expr} :
    stmtCode (.switch line frame subject groups) exits n = .ok (code, n') ↔
      ∃ a m, subject.value n = .ok (a, m) ∧ ∃ d, d = fallback m groups (m + groups.length) ∧
        ∃ o, o = wayOut frame d.2.2 ∧
          ∃ b, groupsCode groups m (⟨frame.id, o.1, none⟩ :: exits) o.2.2 = .ok (b, n') ∧
            code = a ++ [.dispatch line (casePairs m groups) d.1] ++ b ++ d.2.1 ++ o.2.1 := by
  simp
  refine exists_congr fun a => exists_congr fun m => and_congr_right fun _ => ?_
  cases hd : defaultLabel? m groups <;> cases hb : frame.hasBreak <;>
    simp [fallback, wayOut, hd, hb]

theorem groups_cons_ok {values : List Int32} {isDefault : Bool} {body : List Stmt} {base : Nat} :
    groupsCode (.mk values isDefault body :: groups) base exits n = .ok (code, n') ↔
      ∃ a m, stmtsCode body exits n = .ok (a, m) ∧
        ∃ b, groupsCode groups (base + 1) exits m = .ok (b, n') ∧
          code = .label (groupLabel base 0) :: a ++ b := by
  simp [groupsCode]

/-- A break needs an exit of its frame. -/
theorem brk_ok :
    stmtCode (.brk line target) exits n = .ok (code, n') ↔
      ∃ l, (exits.ofFrame? target).bind (·.brk) = some l ∧ code = [goto l] ∧ n' = n := by
  rw [stmtCode]
  cases (exits.ofFrame? target).bind (·.brk) with
  | none => simp [throw_ok]
  | some l => simp [pure_ok]

theorem cont_ok :
    stmtCode (.cont line target) exits n = .ok (code, n') ↔
      ∃ l, (exits.ofFrame? target).bind (·.cont) = some l ∧ code = [goto l] ∧ n' = n := by
  rw [stmtCode]
  cases (exits.ofFrame? target).bind (·.cont) with
  | none => simp [throw_ok]
  | some l => simp [pure_ok]

theorem throw_code_ok {value : Expr} :
    stmtCode (.throw value) exits n = .ok (code, n') ↔
      ∃ c, value.value n = .ok (c, n') ∧ code = c ++ [op .athrow] := by
  simp

theorem stmts_cons_ok {s : Stmt} {ss : List Stmt} :
    stmtsCode (s :: ss) exits n = .ok (code, n') ↔
      ∃ a m, stmtCode s exits n = .ok (a, m) ∧
        ∃ b, stmtsCode ss exits m = .ok (b, n') ∧ code = a ++ b := by
  simp [stmtsCode]

/-- The handler of a finally clause for one range of code. -/
def delays (start : Label) (c : Caught) : Item :=
  .handler { start := c.start, stop := c.stop, handler := start, exceptionType := "" }

/-- The ranges that the handler of a finally clause covers: the try block, the catch blocks and its
own first instruction. -/
def delayRanges (tryStart tryEnd : Label) (caught : List Caught) (n : Nat) : List Caught :=
  ⟨tryStart, tryEnd⟩ :: caught ++ [⟨.nth (n + 1), .nth (n + 2)⟩]

/-- A delayed exception is stored, and thrown again behind a copy of the clause. -/
theorem delay_ok {slot : Nat} :
    delay tryStart tryEnd caught slot cleanup n = .ok (code, n') ↔
      ∃ f, cleanup (n + 2) = .ok (f, n') ∧
        code = [.label (.nth (n + 1)), store .ref slot, .label (.nth (n + 2))] ++ f ++
          [load .ref slot, op .athrow] ++
          (delayRanges tryStart tryEnd caught n).map (delays (.nth (n + 1))) := by
  simp [delay]
  have hmap : caught.map (delays (.nth (n + 1))) = caught.map fun c => .handler
      { start := c.start, stop := c.stop, handler := .nth (n + 1), exceptionType := "" } := rfl
  simp [delays, delayRanges, hmap]

/-- The handler that delays exceptions for a finally clause, if there is one. -/
def delayed (cleanup : Cleanup) (exits : Exits) (tryStart tryEnd : Label) (caught : List Caught) :
    Gen Code :=
  match cleanup with
  | .absent => pure []
  | .mk slot _ => delay tryStart tryEnd caught slot (cleanupCode cleanup exits)

/-- A try statement: its block, a copy of the clause, the catch clauses, and the handler that
delays. -/
theorem try_ok {body : List Stmt} {catches : List CatchClause} {cleanup : Cleanup} :
    stmtCode (.tryCatch body catches cleanup) exits n = .ok (code, n') ↔
      ∃ a m₁, stmtsCode body exits (n + 3) = .ok (a, m₁) ∧
        ∃ f m₂, cleanupCode cleanup exits m₁ = .ok (f, m₂) ∧
          ∃ c caught m₃, catchesCode catches exits (cleanupCode cleanup exits) (.nth (n + 3))
              (.nth (n + 1)) (.nth (n + 2)) m₂ = .ok ((c, caught), m₃) ∧
            ∃ d, delayed cleanup exits (.nth (n + 1)) (.nth (n + 2)) caught m₃ = .ok (d, n') ∧
              code = [.label (.nth (n + 1))] ++ a ++ [.label (.nth (n + 2))] ++ f ++
                [goto (.nth (n + 3))] ++ c ++ d ++ [.label (.nth (n + 3))] := by
  cases cleanup with
  | mk slot body =>
    simp [delayed]
  | absent =>
    simp [delayed]

theorem catches_cons_ok {param : Local} {body : List Stmt} {clauses : List CatchClause}
    {last : Label} :
    catchesCode (.mk param body :: clauses) exits cleanup last tryStart tryEnd n =
        .ok ((code, caught), n') ↔
      ∃ a m₁, stmtsCode body exits (n + 2) = .ok (a, m₁) ∧
        ∃ f m₂, cleanup m₁ = .ok (f, m₂) ∧
          ∃ c more, catchesCode clauses exits cleanup last tryStart tryEnd m₂ =
              .ok ((c, more), n') ∧
            code = [.label (.nth (n + 1)), store param.type.cell param.slot] ++ a ++
              [.label (.nth (n + 2))] ++ f ++ [goto last,
                .handler ⟨tryStart, tryEnd, .nth (n + 1), param.type.path⟩] ++ c ∧
            caught = ⟨.nth (n + 1), .nth (n + 2)⟩ :: more := by
  simp [catchesCode]

end

theorem program_ok {program : List Stmt} :
    programCode program n = .ok (code, n') ↔
      ∃ c, stmtsCode program [] n = .ok (c, n') ∧ code = c ++ [op .ret] := by
  simp [programCode]

end Jminus.Checked
