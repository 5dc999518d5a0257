import Jminus.Proofs.Typing.Total
import Mathlib

/-!
Analysis without reports: what each construct comes down to when nothing is reported about it.
-/
namespace Jminus.Checked

open Analysis

/-- An action that ends without a report. -/
def Silent {α : Type} (x : Analysis α) (st : State) (a : α) (st' : State) : Prop :=
  x st = .ok (a, st') ∧ st'.diagnostics = st.diagnostics

namespace Silent

variable {α : Type} {x : Analysis α} {st st' : State} {a : α}

/-- Without a report the state changes as it may. -/
theorem grows (h : Silent x st a st') (hx : Total x) : st.Grows st' := hx.behind h.1

end Silent

/-- An action that always succeeds, and what it does without a report. -/
structure Acts {α : Type} (x : Analysis α) (R : State → α → State → Prop) : Prop where
  total : Total x
  silent : ∀ {st a st'}, Silent x st a st' ↔ R st a st'

def ConditionIn (env : Env) (e : Jminus.Expr) (a : Expr) : Prop :=
  checkExpr env e = (a, []) ∧ (a.type = .any ∨ a.type = .boolean)

/-- The frame opened in `st` is closed in `st₁`, as it was left there. -/
structure State.Closes (st : State) (kind : FrameKind) (st₁ : State) (frame : Frame)
    (st' : State) : Prop where
  le : Frame.Le { id := st.frames, kind } frame
  frames : st₁.flows.frames = frame :: st'.flows.frames
  same : st' = { st₁ with flows := st'.flows }

theorem State.Closes.id {st st₁ st' : State} {kind : FrameKind} {frame : Frame}
    (h : st.Closes kind st₁ frame st') : frame.id = st.frames :=
  h.le.id.symm

/-- A type that a variable can be declared with, as it is written. -/
def Written (type : Name) (t : Ty) : Prop := Ty.ofName? type.text = some t ∧ t ≠ .void

def Catchable (type : Name) (t : Ty) : Prop :=
  Ty.ofName? type.text = some t ∧ t.isThrowable = true

/-- What a label of a switch adds to those met before. -/
inductive LabelRead (seen : Labels) : Option Jminus.Expr → Option Int32 × Labels → Prop
  | default (h : seen.hasDefault = false) :
    LabelRead seen none (none, { seen with hasDefault := true })
  | value {lexeme : String} {line : Nat} {v : Int32}
    (h : checkLiteral ⟨.int, lexeme, line⟩ = (.literal .int (some (.int v)), []))
    (hnew : v ∉ seen.values) :
    LabelRead seen (some (.literal ⟨.int, lexeme, line⟩))
      (some v, { seen with values := seen.values ++ [v] })

inductive LabelsRead : Labels → List (Option Jminus.Expr) → List Int32 × Labels → Prop
  | nil {seen : Labels} : LabelsRead seen [] ([], seen)
  | cons {seen : Labels} {l : Option Jminus.Expr} {ls : List (Option Jminus.Expr)}
    {r : Option Int32 × Labels} {s : List Int32 × Labels} (hl : LabelRead seen l r)
    (hls : LabelsRead r.2 ls s) : LabelsRead seen (l :: ls) (r.1.toList ++ s.1, s.2)

namespace Acts

variable {α β : Type} {x : Analysis α} {f : α → Analysis β} {R : State → α → State → Prop}
  {S : α → State → β → State → Prop}

theorem self (h : Total x) : Acts x (Silent x) := ⟨h, Iff.rfl⟩

theorem pure (a : α) : Acts (Pure.pure a) fun st b st' => b = a ∧ st' = st := by
  refine ⟨.pure a, ?_, ?_⟩
  · rintro ⟨h, -⟩
    cases pure_ok.1 h
    exact ⟨rfl, rfl⟩
  · rintro ⟨rfl, rfl⟩
    exact ⟨rfl, rfl⟩

/-- Actions without a report, one after the other. -/
theorem bind (hx : Acts x R) (hf : ∀ a, Acts (f a) (S a)) :
    Acts (x >>= f) fun st b st' => ∃ a st₁, R st a st₁ ∧ S a st₁ b st' := by
  refine ⟨hx.total.bind fun a => (hf a).total, ?_, ?_⟩
  · rintro ⟨h, hd⟩
    obtain ⟨a, st₁, hrun, hrun'⟩ := bind_ok.1 h
    obtain ⟨ds, _, hds⟩ := (hx.total.behind hrun).reports
    obtain ⟨es, _, hes⟩ := ((hf a).total.behind hrun').reports
    rw [hes, hds, List.append_assoc, List.append_right_eq_self, List.append_eq_nil_iff] at hd
    obtain ⟨rfl, rfl⟩ := hd
    exact ⟨a, st₁, hx.silent.1 ⟨hrun, by simp [hds]⟩, (hf a).silent.1 ⟨hrun', by simp [hes]⟩⟩
  · rintro ⟨a, st₁, hR, hS⟩
    obtain ⟨hrun, hd⟩ := hx.silent.2 hR
    obtain ⟨hrun', hd'⟩ := (hf a).silent.2 hS
    exact ⟨bind_ok.2 ⟨a, st₁, hrun, hrun'⟩, hd'.trans hd⟩

/-- A check that ends with its reports. -/
theorem told (check : Env → Reported α) (hx : Total x)
    (heq : ∀ st, x st = .ok ((check st.env).1, st.tells (check st.env).2)) :
    Acts x fun st a st' => check st.env = (a, []) ∧ st' = st := by
  refine ⟨hx, ?_, ?_⟩
  · rintro ⟨h, hd⟩
    cases (heq _).symm.trans h
    have hnone : (check _).2 = [] := List.append_right_eq_self.1 hd
    exact ⟨Prod.ext rfl hnone, by simp [State.tells, hnone]⟩
  · rintro ⟨h, rfl⟩
    simp [Silent, heq, h, State.tells]

theorem tell {ds : List Diagnostic} (h : Mistakes ds) :
    Acts (Analysis.tell ds) fun st _ st' => ds = [] ∧ st' = st := by
  have hacts := told (fun _ => ((), ds)) (Calm.tell h).total fun _ => rfl
  exact ⟨hacts.total, hacts.silent.trans (by simp)⟩

theorem expr (e : Jminus.Expr) :
    Acts (Analysis.expr e) fun st a st' => checkExpr st.env e = (a, []) ∧ st' = st :=
  told (checkExpr · e) (Calm.expr e).total fun _ => rfl

theorem exprs (es : List Jminus.Expr) :
    Acts (Analysis.exprs es) fun st as st' => checkExprs st.env es = (as, []) ∧ st' = st :=
  told (checkExprs · es) (Calm.exprs es).total fun _ => rfl

/-- A condition is checked where it stands. -/
theorem condition (line : Nat) (e : Jminus.Expr) :
    Acts (Analysis.condition line e) fun st a st' => ConditionIn st.env e a ∧ st' = st := by
  have hacts := (expr e).bind fun a =>
    (tell (conditionReports_mistakes line a.type)).bind fun _ => pure a
  refine ⟨hacts.total, hacts.silent.trans ⟨?_, ?_⟩⟩
  · rintro ⟨_, _, ⟨he, rfl⟩, _, _, ⟨hreports, rfl⟩, rfl, rfl⟩
    exact ⟨⟨he, conditionReports_eq_nil.1 hreports⟩, rfl⟩
  · rintro ⟨⟨he, htype⟩, rfl⟩
    exact ⟨_, _, ⟨he, rfl⟩, (), _, ⟨conditionReports_eq_nil.2 htype, rfl⟩, rfl, rfl⟩

theorem mapM_condition (line : Nat) (c : Option Jminus.Expr) :
    Acts (c.mapM (Analysis.condition line)) fun st a st' =>
      Option.Rel (ConditionIn st.env) c a ∧ st' = st := by
  refine ⟨(Calm.mapM_condition line c).total, ?_⟩
  cases c with
  | none =>
    refine (pure none).silent.trans ⟨?_, ?_⟩
    · rintro ⟨rfl, rfl⟩
      exact ⟨.none, rfl⟩
    · rintro ⟨⟨⟩, rfl⟩
      exact ⟨rfl, rfl⟩
  | some e =>
    refine ((condition line e).bind fun a => pure (some a)).silent.trans ⟨?_, ?_⟩
    · rintro ⟨_, _, ⟨he, rfl⟩, rfl, rfl⟩
      exact ⟨.some he, rfl⟩
    · rintro ⟨⟨he⟩, rfl⟩
      exact ⟨_, _, ⟨he, rfl⟩, rfl, rfl⟩

/-- What happens in a scope ends with it. -/
theorem inScope (hx : Acts x R) :
    Acts (Analysis.inScope x) fun st a st' => ∃ st₁, R st.entered a st₁ ∧ st' = st₁.left := by
  refine ⟨Total.inScope hx.total, ?_, ?_⟩
  · rintro ⟨h, hd⟩
    obtain ⟨st₁, hrun, rfl⟩ := inScope_ok.1 h
    exact ⟨st₁, hx.silent.1 ⟨hrun, hd⟩, rfl⟩
  · rintro ⟨st₁, hR, rfl⟩
    obtain ⟨hrun, hd⟩ := hx.silent.2 hR
    exact ⟨inScope_ok.2 ⟨st₁, hrun, rfl⟩, hd⟩

theorem inFrame (kind : FrameKind) (hx : Acts x R) :
    Acts (Analysis.inFrame kind x) fun st r st' =>
      ∃ st₁, R (st.opened kind) r.2 st₁ ∧ st.Closes kind st₁ r.1 st' := by
  refine ⟨Total.inFrame kind hx.total, ?_, ?_⟩
  · rintro ⟨h, hd⟩
    obtain ⟨st₁, hrun, flows, hpop, rfl⟩ := inFrame_ok.1 h
    refine ⟨st₁, hx.silent.1 ⟨hrun, hd⟩, ?_⟩
    obtain ⟨f, rest, hf, _, hframes⟩ := List.forall₂_cons_left_iff.1 (hx.total.behind hrun).flows
    have hid : f.id = _ := hf.id.symm
    simp only [FlowStack.pop, hframes, hid, if_true, Except.ok.injEq, Prod.mk.injEq] at hpop
    obtain ⟨rfl, rfl⟩ := hpop
    exact ⟨hf, hframes, rfl⟩
  · rintro ⟨st₁, hR, hclose⟩
    obtain ⟨hrun, hd⟩ := hx.silent.2 hR
    refine ⟨inFrame_ok.2 ⟨st₁, hrun, _, ?_, hclose.same⟩, ?_⟩
    · rw [FlowStack.pop, hclose.frames]
      exact if_pos hclose.le.id.symm
    · rw [hclose.same]
      exact hd

theorem allocate :
    Acts Analysis.allocate fun st slot st' =>
      slot = st.env.slots ∧ st' = { st with env := st.env.allocate.2 } := by
  refine ⟨Calm.allocate.total, ?_, ?_⟩
  · rintro ⟨h, -⟩
    cases h
    exact ⟨rfl, rfl⟩
  · rintro ⟨rfl, rfl⟩
    exact ⟨rfl, rfl⟩

variable {line : Nat} {p : Problem}

/-- An action that starts with a report is not silent. -/
theorem not_silent {f : Unit → Analysis α} {st st' : State} {a : α}
    (h : Silent (Analysis.tell [report line p] >>= f) st a st') (hf : Total (f ())) : False := by
  obtain ⟨h, hd⟩ := h
  obtain ⟨_, st₁, htell, hrun⟩ := bind_ok.1 h
  cases modify_ok.1 htell
  obtain ⟨ds, _, hds⟩ := (hf.behind hrun).reports
  rw [hds, List.append_assoc, List.append_right_eq_self] at hd
  cases hd

/-- What is reported unless a condition holds. -/
theorem required {c : Prop} [Decidable c] (hp : Mistakes [report line p]) (hx : Acts x R) :
    Acts (if c then x else Analysis.tell [report line p] >>= fun _ => x) fun st a st' =>
      c ∧ R st a st' := by
  by_cases hc : c
  · simpa only [hc, if_true, true_and] using hx
  · simp only [hc, if_false, false_and]
    exact ⟨(Calm.tell hp).total.bind fun _ => hx.total,
      iff_of_false (fun h => not_silent h hx.total) not_false⟩

theorem declaredType (type name : Name) :
    Acts (Analysis.declaredType type name) fun st t st' =>
      Written type t ∧ st' = st := by
  refine ⟨(Calm.declaredType type name).total, ?_, ?_⟩
  · intro h
    unfold Analysis.declaredType at h
    split at h
    · exact (not_silent h (.pure _)).elim
    · exact (not_silent h (.pure _)).elim
    · rename_i hvoid htype
      obtain ⟨rfl, rfl⟩ := (pure _).silent.1 h
      exact ⟨⟨htype, hvoid⟩, rfl⟩
  · rintro ⟨⟨htype, hvoid⟩, rfl⟩
    unfold Analysis.declaredType
    simp only [htype]
    exact (pure _).silent.2 ⟨rfl, rfl⟩

theorem caughtType (type : Name) :
    Acts (Analysis.caughtType type) fun st t st' =>
      Catchable type t ∧ st' = st := by
  refine ⟨(Calm.caughtType type).total, ?_, ?_⟩
  · intro h
    unfold Analysis.caughtType at h
    split at h
    · exact (not_silent h (.pure _)).elim
    · split at h
      · obtain ⟨rfl, rfl⟩ := (pure _).silent.1 h
        exact ⟨⟨by assumption, by assumption⟩, rfl⟩
      · exact (not_silent h (.pure _)).elim
  · rintro ⟨⟨htype, hthrow⟩, rfl⟩
    simp only [Analysis.caughtType, htype, hthrow, if_true]
    exact (pure _).silent.2 ⟨rfl, rfl⟩

/-- A new name gets the next slot. -/
theorem declare (name : Name) (t : Ty) :
    Acts (Analysis.declare name t) fun st v st' =>
      st.env.get? name.text = none ∧ v = (st.env.add name.text t).1 ∧ st' = st.adds name t := by
  refine ⟨(Calm.declare name t).total, ?_, ?_⟩
  · rintro ⟨h, hd⟩
    cases hget : State.env _ |>.get? name.text with
    | some v => exact (not_silent ⟨(declare_taken hget).symm.trans h, hd⟩ (.pure _)).elim
    | none =>
      cases (declare_new hget).symm.trans h
      exact ⟨rfl, rfl, rfl⟩
  · rintro ⟨hnew, rfl, rfl⟩
    exact ⟨declare_new hnew, rfl⟩

theorem declareCaught (name : Name) (t : Ty) :
    Acts (Analysis.declareCaught name t) fun st v st' =>
      st.env.get? name.text = none ∧ v = (st.env.add name.text t).1 ∧ st' = st.adds name t := by
  refine ⟨(Calm.declareCaught name t).total, ?_, ?_⟩
  · rintro ⟨h, hd⟩
    cases hget : State.env _ |>.get? name.text with
    | some v =>
      exact (not_silent ⟨(declareCaught_taken hget).symm.trans h, hd⟩
        (Calm.allocate.bind fun _ => .pure _).total).elim
    | none =>
      cases (declareCaught_new hget).symm.trans h
      exact ⟨rfl, rfl, rfl⟩
  · rintro ⟨hnew, rfl, rfl⟩
    exact ⟨declareCaught_new hnew, rfl⟩

/-- A jump is bound to a frame, which is marked. -/
theorem jumpAt {find : FlowStack → Option Frame} {mark : FlowStack → Nat → FlowStack}
    {cause : Cause} (hmark : ∀ s id, Frame.AllLe s.frames (mark s id).frames) (line : Nat) :
    Acts (Analysis.jumpAt find mark cause line) fun st target st' => ∃ frame,
      find st.flows = some frame ∧ target = some frame.id ∧
        st' = { st with flows := mark st.flows frame.id } := by
  refine ⟨Total.jumpAt hmark line, ?_, ?_⟩
  · rintro ⟨h, hd⟩
    rcases jumpAt_ok.1 h with ⟨_, _, rfl⟩ | hbound
    · simp [State.tells] at hd
    · exact hbound
  · rintro ⟨frame, hbound⟩
    exact ⟨jumpAt_ok.2 (.inr ⟨frame, hbound⟩), by rw [hbound.2.2]⟩

/-- What an int is checked to, if it is checked to a value. -/
theorem checkLiteral_int {lexeme : String} {a : Expr}
    (h : checkLiteral ⟨.int, lexeme, line⟩ = (a, [])) : ∃ v, a = .literal .int (some (.int v)) := by
  simp only [checkLiteral] at h
  split at h
  · cases h
    exact ⟨_, rfl⟩
  · cases h

/-- A label is a number that was not met before. -/
theorem labelRest (line : Nat) (seen : Labels) {env : Env} {e : Jminus.Expr} {checked : Expr}
    (h : checkExpr env e = (checked, [])) :
    Acts (Checked.labelRest line seen e checked) fun st r st' =>
      LabelRead seen (some e) r ∧ st' = st := by
  refine ⟨(Calm.labelRest line seen e checked).total, ?_, ?_⟩
  · intro hrest
    unfold Checked.labelRest at hrest
    split at hrest
    · obtain ⟨v, rfl⟩ := checkLiteral_int h
      simp only at hrest
      split at hrest
      · exact (not_silent hrest (.pure _)).elim
      · rename_i hnew
        obtain ⟨rfl, rfl⟩ := (pure _).silent.1 hrest
        exact ⟨.value h (by simpa using hnew), rfl⟩
    · exact (not_silent hrest (.pure _)).elim
  · rintro ⟨hread, rfl⟩
    cases hread with
    | value hv hnew =>
      cases h.symm.trans hv
      simp only [Checked.labelRest, List.contains_eq_mem, hnew, decide_false]
      exact (pure _).silent.2 ⟨rfl, rfl⟩

theorem label (line : Nat) (seen : Labels) (l : Option Jminus.Expr) :
    Acts (Analysis.label line seen l) fun st r st' => LabelRead seen l r ∧ st' = st := by
  refine ⟨(Calm.label line seen l).total, ?_⟩
  intro st r st'
  cases l with
  | none =>
    simp only [Analysis.label]
    split
    · rename_i hdefault
      refine ⟨fun h => (not_silent h (.pure _)).elim, ?_⟩
      rintro ⟨⟨hnone⟩, _⟩
      cases hdefault.symm.trans hnone
    · rename_i hnone
      refine (pure _).silent.trans ⟨?_, ?_⟩
      · rintro ⟨rfl, rfl⟩
        exact ⟨.default (Bool.eq_false_iff.2 hnone), rfl⟩
      · rintro ⟨⟨_⟩, rfl⟩
        exact ⟨rfl, rfl⟩
  | some e =>
    have hrest := fun checked => self (Calm.labelRest line seen e checked).total
    refine ((expr e).bind hrest).silent.trans ⟨?_, ?_⟩
    · rintro ⟨checked, _, ⟨hcheck, rfl⟩, h⟩
      exact (labelRest line seen hcheck).silent.1 h
    · rintro ⟨hread, rfl⟩
      cases hread with
      | value hv hnew =>
        have hcheck : checkExpr st'.env (.literal _) = _ := hv
        exact ⟨_, _, ⟨hv, rfl⟩, (labelRest line seen hcheck).silent.2 ⟨.value hv hnew, rfl⟩⟩

theorem labels (line : Nat) (seen : Labels) (ls : List (Option Jminus.Expr)) :
    Acts (Analysis.labels line seen ls) fun st r st' => LabelsRead seen ls r ∧ st' = st := by
  refine ⟨(Calm.labels line seen ls).total, ?_⟩
  induction ls generalizing seen with
  | nil =>
    refine (pure _).silent.trans ⟨?_, ?_⟩
    · rintro ⟨rfl, rfl⟩
      exact ⟨.nil, rfl⟩
    · rintro ⟨⟨⟩, rfl⟩
      exact ⟨rfl, rfl⟩
  | cons l ls ih =>
    intro st r st'
    have hmore := fun seen => Acts.mk (Calm.labels line seen ls).total (ih seen)
    refine ((label line seen l).bind fun one => (hmore one.2).bind fun more =>
      pure (one.1.toList ++ more.1, more.2)).silent.trans ⟨?_, ?_⟩
    · rintro ⟨one, _, ⟨hl, rfl⟩, more, _, ⟨hls, rfl⟩, rfl, rfl⟩
      exact ⟨.cons hl hls, rfl⟩
    · rintro ⟨hread, rfl⟩
      cases hread with
      | cons hl hls => exact ⟨_, _, ⟨hl, rfl⟩, _, _, ⟨hls, rfl⟩, rfl, rfl⟩

end Acts

section

variable {st st' : State} {a : Stmt} {line : Nat} {type name : Name} {e : Jminus.Expr}
  {s t : Jminus.Stmt} {ss fs : List Jminus.Stmt} {cs : List Jminus.CatchClause}

theorem silent_expr : Silent (checkStmt (.expr e)) st a st' ↔
    ∃ e', checkExpr st.env e = (e', []) ∧ a = .expr e' ∧ st' = st :=
  ((Acts.expr e).bind fun e' => .pure (Stmt.expr e')).silent.trans (by simp)

theorem silent_var : Silent (checkStmt (.var type name none)) st a st' ↔
    ∃ t, Written type t ∧ st.env.get? name.text = none ∧
      a = .var (st.env.add name.text t).1 none ∧ st' = st.adds name t :=
  ((Acts.declaredType type name).bind fun t => (Acts.declare name t).bind fun v =>
    .pure (Stmt.var v none)).silent.trans (by simp)

/-- The type is known, the value fits, and the name is new. -/
theorem silent_varInit : Silent (checkStmt (.var type name (some e))) st a st' ↔
    ∃ t, Written type t ∧ ∃ init, checkExpr st.env e = (init, []) ∧
      init.type.assignableTo t = true ∧ st.env.get? name.text = none ∧
      a = .var (st.env.add name.text t).1 (some init) ∧ st' = st.adds name t :=
  ((Acts.declaredType type name).bind fun t => (Acts.expr e).bind fun init =>
    (Acts.tell (assignReports_mistakes name.line init.type t)).bind fun _ =>
      (Acts.declare name t).bind fun v => .pure (Stmt.var v (some init))).silent.trans
    (by simp [assignReports_eq_nil])

theorem silent_block : Silent (checkStmt (.block ss)) st a st' ↔
    ∃ b, Silent (inScope (checkStmts ss)) st b st' ∧ a = .block b :=
  ((Acts.self (checkStmts_total ss).inScope).bind fun b => .pure (Stmt.block b)).silent.trans
    (by simp)

theorem silent_ifThen : Silent (checkStmt (.ifElse line e s none)) st a st' ↔
    ∃ c, ConditionIn st.env e c ∧ ∃ b, Silent (inScope (checkStmt s)) st b st' ∧
      a = .ifElse c b none :=
  ((Acts.condition line e).bind fun c => (Acts.self (checkStmt_total s).inScope).bind fun b =>
    .pure (Stmt.ifElse c b none)).silent.trans (by simp)

theorem silent_ifElse : Silent (checkStmt (.ifElse line e s (some t))) st a st' ↔
    ∃ c, ConditionIn st.env e c ∧ ∃ b st₁, Silent (inScope (checkStmt s)) st b st₁ ∧
      ∃ d, Silent (inScope (checkStmt t)) st₁ d st' ∧ a = .ifElse c b (some d) :=
  ((Acts.condition line e).bind fun c => (Acts.self (checkStmt_total s).inScope).bind fun b =>
    (Acts.self (checkStmt_total t).inScope).bind fun d =>
      .pure (Stmt.ifElse c b (some d))).silent.trans (by simp)

/-- The condition is checked outside the scope of the body. -/
theorem silent_while : Silent (checkStmt (.whileLoop line e s)) st a st' ↔
    ∃ frame c, ConditionIn (st.opened .loop).env e c ∧
      ∃ b, (∃ st₁, Silent (inScope (checkStmt s)) (st.opened .loop) b st₁ ∧
        st.Closes .loop st₁ frame st') ∧ a = .whileLoop frame c b :=
  ((Acts.inFrame .loop ((Acts.condition line e).bind fun c =>
    (Acts.self (checkStmt_total s).inScope).bind fun b => .pure (c, b))).bind fun r =>
      .pure (Stmt.whileLoop r.1 r.2.1 r.2.2)).silent.trans (by simp [and_assoc])

theorem silent_do : Silent (checkStmt (.doLoop line s e)) st a st' ↔
    ∃ frame b c, (∃ st₁, Silent (inScope (checkStmt s)) (st.opened .loop) b st₁ ∧
      ConditionIn st₁.env e c ∧ st.Closes .loop st₁ frame st') ∧ a = .doLoop frame b c :=
  ((Acts.inFrame .loop ((Acts.self (checkStmt_total s).inScope).bind fun b =>
    (Acts.condition line e).bind fun c => .pure (b, c))).bind fun r =>
      .pure (Stmt.doLoop r.1 r.2.1 r.2.2)).silent.trans (by simp [and_assoc])

/-- All of a for loop is in one scope. -/
theorem silent_for {c : Option Jminus.Expr} {us : List Jminus.Expr} :
    Silent (checkStmt (.forLoop line ss c us s)) st a st' ↔
      ∃ frame bs st₁, Silent (checkStmts ss) (st.opened .loop).entered bs st₁ ∧
        ∃ c', Option.Rel (ConditionIn st₁.env) c c' ∧ ∃ us', checkExprs st₁.env us = (us', []) ∧
          ∃ b st₂, Silent (inScope (checkStmt s)) st₁ b st₂ ∧
            st.Closes .loop st₂.left frame st' ∧ a = .forLoop frame bs c' us' b := by
  refine ((Acts.inFrame .loop (Acts.inScope ((Acts.self (checkStmts_total ss)).bind fun bs =>
    (Acts.mapM_condition line c).bind fun c => (Acts.exprs us).bind fun us =>
      (Acts.self (checkStmt_total s).inScope).bind fun b => .pure (bs, c, us, b)))).bind fun r =>
        .pure (Stmt.forLoop r.1 r.2.1 r.2.2.1 r.2.2.2.1 r.2.2.2.2)).silent.trans ⟨?_, ?_⟩
  · rintro ⟨⟨frame, _⟩, _, ⟨_, ⟨_, ⟨bs, _, hinit, c', _, ⟨hcond, rfl⟩, us', _, ⟨hupdate, rfl⟩, b, _,
      hbody, rfl, rfl⟩, rfl⟩, hclose⟩, rfl, rfl⟩
    exact ⟨frame, bs, _, hinit, c', hcond, us', hupdate, b, _, hbody, hclose, rfl⟩
  · rintro ⟨frame, bs, _, hinit, c', hcond, us', hupdate, b, _, hbody, hclose, rfl⟩
    exact ⟨(frame, bs, c', us', b), _, ⟨_, ⟨_, ⟨bs, _, hinit, c', _, ⟨hcond, rfl⟩, us', _,
      ⟨hupdate, rfl⟩, b, _, hbody, rfl, rfl⟩, rfl⟩, hclose⟩, rfl, rfl⟩

variable {gs : List Jminus.SwitchGroup}

/-- The subject is an int, and labels are read from group to group. -/
theorem silent_switch :
    Silent (checkStmt (.switch line e gs)) st a st' ↔
      ∃ frame e', checkExpr st.env e = (e', []) ∧ (e'.type = .any ∨ e'.type = .int) ∧
        ∃ bs st₁, Silent (checkGroups line {} gs) (st.opened .switch) bs st₁ ∧
          st.Closes .switch st₁ frame st' ∧ a = .switch line frame e' bs := by
  refine ((Acts.inFrame .switch ((Acts.expr e).bind fun e' => .required (by simp [Cause.on])
    ((Acts.self (checkGroups_total line {} gs)).bind fun bs => .pure (e', bs)))).bind fun r =>
      .pure (Stmt.switch line r.1 r.2.1 r.2.2)).silent.trans ⟨?_, ?_⟩
  · rintro ⟨⟨frame, _⟩, _, ⟨_, ⟨e', _, ⟨he, rfl⟩, htype, bs, _, hgroups, rfl, rfl⟩, hclose⟩, rfl, rfl⟩
    exact ⟨frame, e', he, by simpa using htype, bs, _, hgroups, hclose, rfl⟩
  · rintro ⟨frame, e', he, htype, bs, _, hgroups, hclose, rfl⟩
    exact ⟨(frame, e', bs), _, ⟨_, ⟨e', _, ⟨he, rfl⟩, by simpa using htype, bs, _, hgroups, rfl, rfl⟩,
      hclose⟩, rfl, rfl⟩

theorem silent_brk : Silent (checkStmt (.brk line)) st a st' ↔
    ∃ frame, st.flows.breakTarget? = some frame ∧ a = .brk line (some frame.id) ∧
      st' = { st with flows := st.flows.markBreak frame.id } :=
  ((Acts.jumpAt Total.markBreak_frames line).bind fun target =>
    .pure (Stmt.brk line target)).silent.trans (by simp)

theorem silent_cont : Silent (checkStmt (.cont line)) st a st' ↔
    ∃ frame, st.flows.continueTarget? = some frame ∧ a = .cont line (some frame.id) ∧
      st' = { st with flows := st.flows.markContinue frame.id } :=
  ((Acts.jumpAt Total.markContinue_frames line).bind fun target =>
    .pure (Stmt.cont line target)).silent.trans (by simp)

theorem silent_ret {value : Option Jminus.Expr} :
    Silent (checkStmt (.ret line value)) st a st' ↔ value = none ∧ a = .ret ∧ st' = st := by
  cases value with
  | none => exact (Acts.pure Stmt.ret).silent.trans (by simp)
  | some e =>
    exact ((Acts.expr e).bind fun _ => (Acts.tell (by simp [Cause.on])).bind fun _ =>
      .pure Stmt.ret).silent.trans (by simp)

theorem silent_throw : Silent (checkStmt (.throw line e)) st a st' ↔
    ∃ e', checkExpr st.env e = (e', []) ∧
      (e'.type = .any ∨ e'.type = .null ∨ e'.type.isThrowable = true) ∧ a = .throw e' ∧
      st' = st :=
  ((Acts.expr e).bind fun e' => .required (by simp [Cause.on])
    (.pure (Stmt.throw e'))).silent.trans (by simp [or_assoc])

theorem silent_tryCatch : Silent (checkStmt (.tryCatch ss cs none)) st a st' ↔
    ∃ b st₁, Silent (inScope (checkStmts ss)) st b st₁ ∧
      ∃ ds, Silent (checkCatches cs) st₁ ds st' ∧ a = .tryCatch b ds .absent :=
  ((Acts.self (checkStmts_total ss).inScope).bind fun b =>
    (Acts.self (checkCatches_total cs)).bind fun ds =>
      .pure (Stmt.tryCatch b ds .absent)).silent.trans (by simp)

/-- A finally clause is checked last, and its slot comes behind it. -/
theorem silent_tryFinally : Silent (checkStmt (.tryCatch ss cs (some fs))) st a st' ↔
    ∃ b st₁, Silent (inScope (checkStmts ss)) st b st₁ ∧
      ∃ ds st₂, Silent (checkCatches cs) st₁ ds st₂ ∧
        ∃ f st₃, Silent (inScope (checkStmts fs)) st₂ f st₃ ∧
          a = .tryCatch b ds (.mk st₃.env.slots f) ∧
          st' = { st₃ with env := st₃.env.allocate.2 } :=
  ((Acts.self (checkStmts_total ss).inScope).bind fun b =>
    (Acts.self (checkCatches_total cs)).bind fun ds =>
      (Acts.self (checkStmts_total fs).inScope).bind fun f => Acts.allocate.bind fun slot =>
        .pure (Stmt.tryCatch b ds (.mk slot f))).silent.trans (by simp)

theorem silent_empty : Silent (checkStmt .empty) st a st' ↔ a = .empty ∧ st' = st :=
  (Acts.pure Stmt.empty).silent

theorem silent_cons {as : List Stmt} : Silent (checkStmts (s :: ss)) st as st' ↔
    ∃ b st₁, Silent (checkStmt s) st b st₁ ∧ ∃ bs, Silent (checkStmts ss) st₁ bs st' ∧
      as = b :: bs :=
  ((Acts.self (checkStmt_total s)).bind fun b => (Acts.self (checkStmts_total ss)).bind fun bs =>
    .pure (b :: bs)).silent.trans (by simp)

theorem silent_groups {seen : Labels} {ls : List (Option Jminus.Expr)} {as : List SwitchGroup} :
    Silent (checkGroups line seen (.mk ls ss :: gs)) st as st' ↔
      ∃ r, LabelsRead seen ls r ∧ ∃ b st₁, Silent (inScope (checkStmts ss)) st b st₁ ∧
        ∃ bs, Silent (checkGroups line r.2 gs) st₁ bs st' ∧
          as = .mk r.1 (ls.any (·.isNone)) b :: bs :=
  ((Acts.labels line seen ls).bind fun r => (Acts.self (checkStmts_total ss).inScope).bind fun b =>
    (Acts.self (checkGroups_total line r.2 gs)).bind fun bs =>
      .pure (SwitchGroup.mk r.1 (ls.any (·.isNone)) b :: bs)).silent.trans (by simp)

/-- Each clause has a scope of its own. -/
theorem silent_catches {as : List CatchClause} :
    Silent (checkCatches (.mk type name ss :: cs)) st as st' ↔
      ∃ t, Catchable type t ∧ st.env.get? name.text = none ∧
        ∃ b st₁, Silent (inScope (checkStmts ss)) (st.entered.adds name t) b st₁ ∧
          ∃ ds, Silent (checkCatches cs) st₁.left ds st' ∧
            as = .mk (st.env.add name.text t).1 b :: ds := by
  refine ((Acts.inScope ((Acts.caughtType type).bind fun t =>
    (Acts.declareCaught name t).bind fun v => (Acts.self (checkStmts_total ss).inScope).bind fun b =>
      .pure (CatchClause.mk v b))).bind fun c => (Acts.self (checkCatches_total cs)).bind fun ds =>
        .pure (c :: ds)).silent.trans ⟨?_, ?_⟩
  · rintro ⟨_, _, ⟨_, ⟨t, _, ⟨ht, rfl⟩, _, _, ⟨hnew, rfl, rfl⟩, b, _, hbody, rfl, rfl⟩, rfl⟩, ds, _,
      hcatches, rfl, rfl⟩
    exact ⟨t, ht, hnew, b, _, hbody, ds, hcatches, rfl⟩
  · rintro ⟨t, ht, hnew, b, _, hbody, ds, hcatches, rfl⟩
    exact ⟨_, _, ⟨_, ⟨t, _, ⟨ht, rfl⟩, _, _, ⟨hnew, rfl, rfl⟩, b, _, hbody, rfl, rfl⟩, rfl⟩, ds, _,
      hcatches, rfl, rfl⟩

end

end Jminus.Checked
