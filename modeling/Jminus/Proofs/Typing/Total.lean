import Jminus.Proofs.Peeling
import Jminus.Proofs.Typing.Expr
import Mathlib

/-!
Analysis of statements always ends, whatever the statements are. It closes every scope and every
frame that it opens, all it reports is errors, and what was reported before makes no difference to
it.
-/
namespace Jminus.Checked

open Analysis

namespace State

/-- The variables in sight, innermost first. -/
def inSight (st : State) : List Local := st.env.scopes.flatten

def tells (st : State) (ds : List Diagnostic) : State :=
  { st with diagnostics := st.diagnostics ++ ds }

def carries (st : State) (ds : List Diagnostic) : State :=
  { st with diagnostics := ds ++ st.diagnostics }

theorem carries_tells (st : State) (ds es : List Diagnostic) :
    (st.carries ds).tells es = (st.tells es).carries ds := by
  simp [carries, tells]

def entered (st : State) : State := { st with env := st.env.enter }

def left (st : State) : State := { st with env := st.env.leave }

def opened (st : State) (kind : FrameKind) : State :=
  { st with frames := st.frames + 1, flows := st.flows.push { id := st.frames, kind } }

def adds (st : State) (name : Name) (type : Ty) : State :=
  { st with env := (st.env.add name.text type).2 }

/-- How a state may change while the innermost scope and the frames stay open. -/
structure Grows (st st' : State) : Prop where
  flows : Frame.AllLe st.flows.frames st'.flows.frames
  frames : st.frames ≤ st'.frames
  outer : st'.env.scopes.tail = st.env.scopes.tail
  reports : ∃ ds, Reports ds ∧ st'.diagnostics = st.diagnostics ++ ds

instance : IsPreorder State Grows where
  refl _ := ⟨.refl _, le_refl _, rfl, [], .nil, by simp⟩
  trans a b c hab hbc := by
    obtain ⟨ds, hds, hb⟩ := hab.reports
    obtain ⟨es, hes, hc⟩ := hbc.reports
    exact ⟨hab.flows.trans hbc.flows, hab.frames.trans hbc.frames, hbc.outer.trans hab.outer,
      ds ++ es, hds.append hes, by rw [hc, hb, List.append_assoc]⟩

/-- How a state may change without frames and jumps. -/
structure Steady (st st' : State) : Prop where
  flows : st'.flows = st.flows
  frames : st'.frames = st.frames
  outer : st'.env.scopes.tail = st.env.scopes.tail
  reports : ∃ ds, Mistakes ds ∧ st'.diagnostics = st.diagnostics ++ ds

instance : IsPreorder State Steady where
  refl _ := ⟨rfl, rfl, rfl, [], .nil, by simp⟩
  trans a b c hab hbc := by
    obtain ⟨ds, hds, hb⟩ := hab.reports
    obtain ⟨es, hes, hc⟩ := hbc.reports
    exact ⟨hbc.flows.trans hab.flows, hbc.frames.trans hab.frames, hbc.outer.trans hab.outer,
      ds ++ es, Mistakes.append.2 ⟨hds, hes⟩, by rw [hc, hb, List.append_assoc]⟩

/-- Without frames and jumps a state changes as it may. -/
theorem Steady.grows {st st' : State} (h : st.Steady st') : st.Grows st' := by
  obtain ⟨ds, hds, hreports⟩ := h.reports
  exact ⟨h.flows ▸ .refl _, h.frames.ge, h.outer, ds, hds.reports, hreports⟩

end State

/-- What happens in a scope ends with it. -/
theorem inScope_ok {α : Type} {x : Analysis α} {st st' : State} {a : α} :
    inScope x st = .ok (a, st') ↔ ∃ st₁, x st.entered = .ok (a, st₁) ∧ st' = st₁.left := by
  simp only [inScope, bind_ok, modify_ok, pure_ok, Prod.mk.injEq, exists_and_left,
    exists_eq_left, true_and, exists_const]
  constructor
  · rintro ⟨b, st₁, hx, rfl, rfl⟩
    exact ⟨st₁, hx, rfl⟩
  · rintro ⟨st₁, hx, rfl⟩
    exact ⟨a, st₁, hx, rfl, rfl⟩

/-- What happens in a frame ends with it. -/
theorem inFrame_ok {α : Type} {kind : FrameKind} {x : Analysis α} {st st' : State}
    {frame : Frame} {a : α} :
    inFrame kind x st = .ok ((frame, a), st') ↔
      ∃ st₁, x (st.opened kind) = .ok (a, st₁) ∧
        ∃ flows, st₁.flows.pop st.frames = .ok (frame, flows) ∧ st' = { st₁ with flows } := by
  simp only [inFrame, bind_ok, get_ok, modify_ok, pure_ok, lift_ok, Prod.mk.injEq,
    exists_and_left, exists_eq_left, true_and, exists_const, and_assoc, Prod.exists]
  constructor
  · rintro ⟨b, st₁, hx, f, flows, _, ⟨_, _, hpop, rfl, rfl, rfl⟩, rfl, rfl, rfl⟩
    exact ⟨_, hx, _, hpop, rfl⟩
  · rintro ⟨st₁, hx, flows, hpop, rfl⟩
    exact ⟨a, st₁, hx, frame, flows, st₁, ⟨frame, flows, hpop, rfl, rfl, rfl⟩, rfl, rfl, rfl⟩

variable {line : Nat} {target : Option Nat} {find : FlowStack → Option Frame}
  {mark : FlowStack → Nat → FlowStack} {cause : Cause}

/-- A jump is bound to a frame, which it marks, or it is reported. -/
theorem jumpAt_ok {st st' : State} :
    jumpAt find mark cause line st = .ok (target, st') ↔
      (find st.flows = none ∧ target = none ∧ st' = st.tells [report line { cause }]) ∨
      ∃ frame, find st.flows = some frame ∧ target = some frame.id ∧
        st' = { st with flows := mark st.flows frame.id } := by
  simp only [jumpAt, bind_of_ok (get_ok.2 rfl)]
  cases find st.flows <;>
    simp only [bind_ok, pure_ok, Analysis.tell, modify_ok, State.tells, Prod.mk.injEq,
      Option.some.injEq, exists_and_left, exists_eq_left, exists_eq_left', exists_const, exists_false,
      true_and, false_and, or_false, false_or, reduceCtorEq]

section

variable {st : State} {name : Name} {type : Ty}

/-- A new name gets the next slot. -/
theorem declare_new (h : st.env.get? name.text = none) :
    declare name type st = .ok ((st.env.add name.text type).1, st.adds name type) := by
  simp only [declare, bind_of_ok (get_ok.2 rfl), h]
  rfl

theorem declare_taken {v : Local} (h : st.env.get? name.text = some v) :
    declare name type st =
      (do tell [report name.line (Cause.redeclaredVariable.on name.text)]; return v) st := by
  simp only [declare, bind_of_ok (get_ok.2 rfl), h]

theorem declareCaught_new (h : st.env.get? name.text = none) :
    declareCaught name type st = .ok ((st.env.add name.text type).1, st.adds name type) := by
  simp only [declareCaught, bind_of_ok (get_ok.2 rfl), Env.define, h]
  rfl

theorem declareCaught_taken {v : Local} (h : st.env.get? name.text = some v) :
    declareCaught name type st =
      (do
        tell [report name.line (Cause.redeclaredVariable.on name.text)]
        let slot ← allocate
        return ({ name := name.text, type, slot } : Local)) st := by
  simp only [declareCaught, bind_of_ok (get_ok.2 rfl), Env.define, h]
  rfl

end

/-- What is left to do about a label once it is checked as an expression. -/
def labelRest (line : Nat) (seen : Labels) (e : Jminus.Expr) (checked : Expr) :
    Analysis (Option Int32 × Labels) :=
  match e with
  | .literal { form := .int, line := own, .. } =>
    match checked with
    | .literal .int (some (.int v)) =>
      if seen.values.contains v then do
        tell [report own (Cause.duplicateCase.on (toString v.toInt))]
        return (none, seen)
      else return (some v, { seen with values := seen.values ++ [v] })
    | _ => return (none, seen)
  | _ => do
    tell [report line { cause := .caseNotLiteral }]
    return (none, seen)

/-- An action that succeeds in every state and changes it only as `R` allows. What was reported
before makes no difference to it. -/
def Finishes (R : State → State → Prop) {α : Type} (x : Analysis α) : Prop :=
  ∀ st, ∃ a st', (∀ ds, x (st.carries ds) = .ok (a, st'.carries ds)) ∧ R st st'

abbrev Total {α : Type} (x : Analysis α) : Prop := Finishes State.Grows x

abbrev Calm {α : Type} (x : Analysis α) : Prop := Finishes State.Steady x

namespace Finishes

variable {R : State → State → Prop} {α β : Type} {x : Analysis α} {f : α → Analysis β}
  {st st' : State} {a : α}

theorem pure [IsPreorder State R] (a : α) : Finishes R (Pure.pure a : Analysis α) :=
  fun st => ⟨a, st, fun _ => rfl, refl st⟩

theorem bind [IsPreorder State R] (hx : Finishes R x) (hf : ∀ a, Finishes R (f a)) :
    Finishes R (x >>= f) := by
  intro st
  obtain ⟨a, st₁, hx, hR⟩ := hx st
  obtain ⟨b, st₂, hf, hR'⟩ := hf a st₁
  exact ⟨b, st₂, fun ds => (bind_of_ok (hx ds)).trans (hf ds), IsTrans.trans _ _ _ hR hR'⟩

/-- Such an action has a result in every state. -/
theorem run (h : Finishes R x) (st : State) : ∃ a st', x st = .ok (a, st') ∧ R st st' := by
  obtain ⟨a, st', hx, hR⟩ := h st
  exact ⟨a, st', hx [], hR⟩

/-- What is known of the state behind an action. -/
theorem behind (h : Finishes R x) (hrun : x st = .ok (a, st')) : R st st' := by
  obtain ⟨b, st₁, hx, hR⟩ := h.run st
  cases hrun.symm.trans hx
  exact hR

theorem total (h : Finishes State.Steady x) : Finishes State.Grows x := by
  intro st
  obtain ⟨a, st', hx, hsteady⟩ := h st
  exact ⟨a, st', hx, hsteady.grows⟩

end Finishes

namespace Calm

theorem tell {ds : List Diagnostic} (h : Mistakes ds) : Calm (Analysis.tell ds) :=
  fun st => ⟨(), st.tells ds, fun es => by rw [← st.carries_tells]; rfl,
    rfl, rfl, rfl, ds, h, rfl⟩

/-- A check that ends with its reports. -/
theorem told {α : Type} {x : Analysis α} {check : Env → Reported α}
    (hx : ∀ st, x st = .ok ((check st.env).1, st.tells (check st.env).2))
    (h : ∀ env, Mistakes (check env).2) : Calm x :=
  fun st => ⟨(check st.env).1, st.tells (check st.env).2,
    fun ds => by rw [hx, ← st.carries_tells]; rfl, rfl, rfl, rfl, _, h st.env, rfl⟩

theorem expr (e : Jminus.Expr) : Calm (Analysis.expr e) :=
  told (fun _ => rfl) fun env => checkExpr_mistakes env e

theorem exprs (es : List Jminus.Expr) : Calm (Analysis.exprs es) :=
  told (fun _ => rfl) fun env => checkExprs_mistakes env es

theorem condition (line : Nat) (e : Jminus.Expr) : Calm (Analysis.condition line e) :=
  (expr e).bind fun e => (tell (conditionReports_mistakes line e.type)).bind fun _ => .pure e

theorem mapM_condition (line : Nat) (cond : Option Jminus.Expr) :
    Calm (cond.mapM (Analysis.condition line)) := by
  cases cond with
  | none => exact .pure _
  | some c => exact (condition line c).bind fun _ => .pure _

theorem allocate : Calm Analysis.allocate :=
  fun st => ⟨st.env.slots, { st with env := st.env.allocate.2 }, fun _ => rfl, rfl, rfl, rfl, [], .nil,
    by simp⟩

theorem declaredType (type name : Name) : Calm (Analysis.declaredType type name) := by
  unfold Analysis.declaredType
  split
  · exact (tell (by simp [Cause.on])).bind fun _ => .pure _
  · exact (tell (by simp [Cause.on])).bind fun _ => .pure _
  · exact .pure _

theorem caughtType (type : Name) : Calm (Analysis.caughtType type) := by
  unfold Analysis.caughtType
  split
  · exact (tell (by simp [Cause.on])).bind fun _ => .pure _
  · split
    · exact .pure _
    · exact (tell (by simp [Cause.on])).bind fun _ => .pure _

/-- A new variable goes into the innermost scope. -/
theorem add_outer (env : Env) (name : String) (type : Ty) :
    (env.add name type).2.scopes.tail = env.scopes.tail := by
  simp only [Env.add, Env.bind, Env.allocate]
  cases env.scopes <;> rfl

/-- What happens to a name depends on whether it is taken. -/
theorem declared {x : Analysis Local} {y : Local → Analysis Local} {name : Name} {type : Ty}
    (hnew : ∀ st : State, st.env.get? name.text = none →
      x st = .ok ((st.env.add name.text type).1, st.adds name type))
    (htaken : ∀ (st : State) v, st.env.get? name.text = some v → x st = y v st)
    (hy : ∀ v, Calm (y v)) : Calm x := by
  intro st
  cases hget : st.env.get? name.text with
  | some v =>
    obtain ⟨a, st', hrun, hsteady⟩ := hy v st
    exact ⟨a, st', fun ds => (htaken (st.carries ds) v hget).trans (hrun ds), hsteady⟩
  | none =>
    exact ⟨(st.env.add name.text type).1, st.adds name type, fun ds => hnew (st.carries ds) hget,
      rfl, rfl, add_outer _ _ _, [], .nil, by simp [State.adds]⟩

theorem declare (name : Name) (type : Ty) : Calm (Analysis.declare name type) :=
  declared (fun _ h => declare_new h) (fun _ _ h => declare_taken h)
    fun _ => (tell (by simp [Cause.on])).bind fun _ => .pure _

theorem declareCaught (name : Name) (type : Ty) : Calm (Analysis.declareCaught name type) :=
  declared (fun _ h => declareCaught_new h) (fun _ _ h => declareCaught_taken h)
    fun _ => (tell (by simp [Cause.on])).bind fun _ => allocate.bind fun _ => .pure _

theorem labelRest (line : Nat) (seen : Labels) (e : Jminus.Expr) (checked : Expr) :
    Calm (Checked.labelRest line seen e checked) := by
  unfold Checked.labelRest
  split
  · split
    · split
      · exact (tell (by simp [Cause.on])).bind fun _ => .pure _
      · exact .pure _
    · exact .pure _
  · exact (tell (by simp)).bind fun _ => .pure _

theorem label (line : Nat) (seen : Labels) (l : Option Jminus.Expr) :
    Calm (Analysis.label line seen l) := by
  cases l with
  | none =>
    simp only [Analysis.label]
    split
    · exact (tell (by simp)).bind fun _ => .pure _
    · exact .pure _
  | some e => exact (expr e).bind fun checked => labelRest line seen e checked

theorem labels (line : Nat) (seen : Labels) (ls : List (Option Jminus.Expr)) :
    Calm (Analysis.labels line seen ls) := by
  induction ls generalizing seen with
  | nil => exact .pure _
  | cons l ls ih => exact (label line seen l).bind fun one => (ih one.2).bind fun _ => .pure _

end Calm

namespace Total

variable {α : Type} {x : Analysis α}

theorem inScope (h : Total x) : Total (Analysis.inScope x) := by
  intro st
  obtain ⟨a, st', hx, hgrow⟩ := h st.entered
  have houter : st'.left.env.scopes = st.env.scopes := hgrow.outer
  exact ⟨a, st'.left, fun ds => inScope_ok.2 ⟨_, hx ds, rfl⟩,
    hgrow.flows, hgrow.frames, by rw [houter], hgrow.reports⟩

theorem required {c : Prop} [Decidable c] {line : Nat} {p : Problem}
    (hp : Mistakes [report line p]) (h : Total x) :
    Total (if c then x else tell [report line p] >>= fun _ => x) := by
  split
  · exact h
  · exact (Calm.tell hp).total.bind fun _ => h

theorem inFrame (kind : FrameKind) (h : Total x) : Total (Analysis.inFrame kind x) := by
  intro st
  obtain ⟨a, st', hx, hgrow⟩ := h (st.opened kind)
  obtain ⟨frame, rest, hle, hrest, hframes⟩ := List.forall₂_cons_left_iff.1 hgrow.flows
  have hpop : st'.flows.pop st.frames = .ok (frame, ⟨rest⟩) := by
    rw [FlowStack.pop, hframes]
    exact if_pos hle.id.symm
  exact ⟨(frame, a), { st' with flows := ⟨rest⟩ },
    fun ds => inFrame_ok.2 ⟨_, hx ds, _, hpop, rfl⟩,
    hrest, (Nat.le_succ _).trans hgrow.frames, hgrow.outer, hgrow.reports⟩

/-- Marks on frames do not move them. -/
theorem update_frames (s : FlowStack) (id : Nat) {f : Frame → Frame} (hf : ∀ g : Frame, g.Le (f g)) :
    Frame.AllLe s.frames (s.update id f).frames := by
  simp only [FlowStack.update, Frame.AllLe, List.forall₂_map_right_iff]
  refine List.forall₂_same.2 fun g _ => ?_
  split
  · exact hf g
  · exact .refl g

/-- A mark changes no frame but for the mark. -/
theorem markBreak_frames (s : FlowStack) (id : Nat) :
    Frame.AllLe s.frames (s.markBreak id).frames :=
  update_frames s id fun _ => ⟨rfl, rfl, fun _ => rfl, fun h => h⟩

theorem markContinue_frames (s : FlowStack) (id : Nat) :
    Frame.AllLe s.frames (s.markContinue id).frames :=
  update_frames s id fun _ => ⟨rfl, rfl, fun h => h, fun _ => rfl⟩

theorem jumpAt (hmark : ∀ s id, Frame.AllLe s.frames (mark s id).frames) (line : Nat) :
    Total (Analysis.jumpAt find mark cause line) := by
  intro st
  cases htarget : find st.flows with
  | some frame =>
    exact ⟨_, { st with flows := mark st.flows frame.id },
      fun ds => jumpAt_ok.2 (.inr ⟨frame, htarget, rfl, rfl⟩), hmark _ _, le_refl _, rfl, [], .nil,
      by simp⟩
  | none =>
    exact ⟨_, st.tells [_], fun ds => jumpAt_ok.2 (.inl ⟨htarget, rfl, (st.carries_tells _ _).symm⟩),
      .refl _, le_refl _, rfl, _, .singleton _ _, rfl⟩

end Total

mutual

/-- Every statement is checked to an end. -/
theorem checkStmt_total : ∀ s, Total (checkStmt s)
  | .expr e => ((Calm.expr e).bind fun _ => .pure _).total
  | .var type name none => Finishes.total <|
    (Calm.declaredType type name).bind fun t => (Calm.declare name t).bind fun _ => .pure _
  | .var type name (some init) => Finishes.total <|
    (Calm.declaredType type name).bind fun t => (Calm.expr init).bind fun _ =>
      (Calm.tell (assignReports_mistakes _ _ _)).bind fun _ =>
        (Calm.declare name t).bind fun _ => .pure _
  | .block body => (checkStmts_total body).inScope.bind fun _ => .pure _
  | .ifElse line cond thenBranch none =>
    (Calm.condition line cond).total.bind fun _ =>
      (checkStmt_total thenBranch).inScope.bind fun _ => .pure _
  | .ifElse line cond thenBranch (some elseBranch) =>
    (Calm.condition line cond).total.bind fun _ =>
      (checkStmt_total thenBranch).inScope.bind fun _ =>
        (checkStmt_total elseBranch).inScope.bind fun _ => .pure _
  | .whileLoop line cond body =>
    (Total.inFrame .loop ((Calm.condition line cond).total.bind fun _ =>
      (checkStmt_total body).inScope.bind fun _ => .pure _)).bind fun _ => .pure _
  | .doLoop line body cond =>
    (Total.inFrame .loop ((checkStmt_total body).inScope.bind fun _ =>
      (Calm.condition line cond).total.bind fun _ => .pure _)).bind fun _ => .pure _
  | .forLoop line init cond update body =>
    (Total.inFrame .loop (Total.inScope ((checkStmts_total init).bind fun _ =>
      (Calm.mapM_condition line cond).total.bind fun _ => (Calm.exprs update).total.bind fun _ =>
        (checkStmt_total body).inScope.bind fun _ => .pure _))).bind fun _ => .pure _
  | .switch line subject groups =>
    (Total.inFrame .switch ((Calm.expr subject).total.bind fun _ =>
      Total.required (by simp [Cause.on])
        ((checkGroups_total line {} groups).bind fun _ => .pure _))).bind fun _ => .pure _
  | .brk line => (Total.jumpAt Total.markBreak_frames line).bind fun _ => .pure _
  | .cont line => (Total.jumpAt Total.markContinue_frames line).bind fun _ => .pure _
  | .ret _ none => .pure _
  | .ret line (some value) => Finishes.total <|
    (Calm.expr value).bind fun _ => (Calm.tell (by simp [Cause.on])).bind fun _ => .pure _
  | .throw line value =>
    (Calm.expr value).total.bind fun _ => Total.required (by simp [Cause.on]) (.pure _)
  | .tryCatch body catches none =>
    (checkStmts_total body).inScope.bind fun _ => (checkCatches_total catches).bind fun _ => .pure _
  | .tryCatch body catches (some cleanup) =>
    (checkStmts_total body).inScope.bind fun _ => (checkCatches_total catches).bind fun _ =>
      (checkStmts_total cleanup).inScope.bind fun _ => Calm.allocate.total.bind fun _ => .pure _
  | .empty => .pure _

theorem checkStmts_total : ∀ ss, Total (checkStmts ss)
  | [] => .pure _
  | s :: ss => (checkStmt_total s).bind fun _ => (checkStmts_total ss).bind fun _ => .pure _

theorem checkGroups_total (line : Nat) : ∀ seen gs, Total (checkGroups line seen gs)
  | _, [] => .pure _
  | seen, .mk ls body :: groups =>
    (Calm.labels line seen ls).total.bind fun (_, seen) =>
      (checkStmts_total body).inScope.bind fun _ =>
        (checkGroups_total line seen groups).bind fun _ => .pure _

theorem checkCatches_total : ∀ cs, Total (checkCatches cs)
  | [] => .pure _
  | .mk type name body :: clauses =>
    (Total.inScope ((Calm.caughtType type).total.bind fun t =>
      (Calm.declareCaught name t).total.bind fun _ =>
        (checkStmts_total body).inScope.bind fun _ => .pure _)).bind fun _ =>
          (checkCatches_total clauses).bind fun _ => .pure _

end

/-- What a whole program is checked to is what its statements are. -/
theorem check_run (program : List Jminus.Stmt) :
    ∃ stmts st, checkStmts program {} = .ok (stmts, st) ∧ State.Grows {} st ∧
      check program = .ok ⟨stmts, st.env.slots, st.diagnostics⟩ := by
  obtain ⟨stmts, st, hrun, hgrow⟩ := (checkStmts_total program).run {}
  have hdepth : st.flows.depth = 0 := by
    rw [FlowStack.depth, List.forall₂_nil_left_iff.1 hgrow.flows]
    rfl
  refine ⟨stmts, st, hrun, hgrow, ?_⟩
  change (checkStmts program {} >>= _) = _
  rw [hrun]
  exact if_pos hdepth

/-- Analysis of a whole program ends, and all it reports is errors. -/
theorem check_total (program : List Jminus.Stmt) :
    ∃ checked, check program = .ok checked ∧ Reports checked.diagnostics := by
  obtain ⟨stmts, st, _, hgrow, hcheck⟩ := check_run program
  obtain ⟨ds, hds, hreports⟩ := hgrow.reports
  refine ⟨_, hcheck, ?_⟩
  rw [hreports]
  exact hds

end Jminus.Checked
