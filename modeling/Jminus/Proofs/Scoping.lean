import Jminus.Proofs.Typing.Stmt
import Mathlib

/-!
What the names of a program stand for, and the slots of its variables.

`Scoped vs s a` says that `a` is the statement `s` with its names resolved, where the variables `vs`
are in sight: a name stands for the one variable of that name in sight, a declaration adds a name
that is not in sight yet to what the rest of its scope sees, and nothing declared in a scope is in
sight behind it. Statements about which analysis has nothing to report are resolved like this, and
slots go to what they declare one after the other.
-/
namespace Jminus.Checked

open Analysis

def Named (vs : List Local) : Prop := (vs.map (·.name)).Nodup

/-- A name stands for a variable: the only one of that name among those in sight. -/
structure Names (vs : List Local) (name : Name) (v : Local) : Prop where
  mem : v ∈ vs
  text : v.name = name.text
  only : ∀ u ∈ vs, u.name = name.text → u = v

mutual

/-- An expression and the same with its names resolved. -/
inductive ExprScoped (vs : List Local) : Jminus.Expr → Expr → Prop
  | literal (lit : Literal) (type : Ty) (value : Option Constant) :
    ExprScoped vs (.literal lit) (.literal type value)
  | var {name : Name} {v : Local} (hname : Names vs name v) :
    ExprScoped vs (.var name) (.var (some v))
  | assign (op : AssignOp) (line : Nat) {target : Name} {v : Local} {value : Jminus.Expr}
    {value' : Expr} (hname : Names vs target v) (hvalue : ExprScoped vs value value') :
    ExprScoped vs (.assign op line target value) (.assign op (some v) value')
  | binary (op : BinaryOp) (line : Nat) (type : Ty) (operandType : Option Ty)
    {left right : Jminus.Expr} {left' right' : Expr} (hleft : ExprScoped vs left left')
    (hright : ExprScoped vs right right') :
    ExprScoped vs (.binary op line left right) (.binary op type operandType left' right')
  | logical (op : LogicalOp) (line : Nat) {left right : Jminus.Expr} {left' right' : Expr}
    (hleft : ExprScoped vs left left') (hright : ExprScoped vs right right') :
    ExprScoped vs (.logical op line left right) (.logical op left' right')
  | unary (op : UnaryOp) (line : Nat) (type : Ty) {operand : Jminus.Expr} {operand' : Expr}
    (hoperand : ExprScoped vs operand operand') :
    ExprScoped vs (.unary op line operand) (.unary op type operand')
  | increment (op : IncrementOp) (line : Nat) (side : Side) {target : Name} {v : Local}
    (hname : Names vs target v) :
    ExprScoped vs (.increment op line side target) (.increment op side (some v))
  | conditional (line : Nat) (type : Ty) {cond thenPart elsePart : Jminus.Expr}
    {cond' thenPart' elsePart' : Expr} (hcond : ExprScoped vs cond cond')
    (hthen : ExprScoped vs thenPart thenPart') (helse : ExprScoped vs elsePart elsePart') :
    ExprScoped vs (.conditional line cond thenPart elsePart)
      (.conditional type cond' thenPart' elsePart')
  | new (className : Name) (type : Ty) : ExprScoped vs (.new className) (.new type)
  | call (name : Name) (method : Option Method) {args : List Jminus.Expr} {args' : List Expr}
    (hargs : ExprsScoped vs args args') : ExprScoped vs (.call name args) (.call method args')
  | group {inner : Jminus.Expr} {inner' : Expr} (hinner : ExprScoped vs inner inner') :
    ExprScoped vs (.group inner) (.group inner')

inductive ExprsScoped (vs : List Local) : List Jminus.Expr → List Expr → Prop
  | nil : ExprsScoped vs [] []
  | cons {e : Jminus.Expr} {e' : Expr} {es : List Jminus.Expr} {es' : List Expr}
    (he : ExprScoped vs e e') (hes : ExprsScoped vs es es') : ExprsScoped vs (e :: es) (e' :: es')

end

/-- A declaration of a variable: its type and name are those written, and no two variables have one
name once it is in sight. -/
structure Introduces (vs : List Local) (type name : Name) (v : Local) : Prop where
  type : Ty.ofName? type.text = some v.type
  text : v.name = name.text
  named : Named (v :: vs)

mutual

/-- A statement and the same with its names resolved, where the variables `vs` are in sight. -/
inductive Scoped : List Local → Jminus.Stmt → Stmt → Prop
  | expr {vs : List Local} {e : Jminus.Expr} {e' : Expr} (h : ExprScoped vs e e') :
    Scoped vs (.expr e) (.expr e')
  | var {vs : List Local} {type name : Name} {v : Local} (hv : Introduces vs type name v) :
    Scoped vs (.var type name none) (.var v none)
  -- The variable is not yet in sight of its own initial value.
  | varInit {vs : List Local} {type name : Name} {v : Local} {init : Jminus.Expr} {init' : Expr}
    (hv : Introduces vs type name v) (hinit : ExprScoped vs init init') :
    Scoped vs (.var type name (some init)) (.var v (some init'))
  | block {vs : List Local} {body : List Jminus.Stmt} {body' : List Stmt}
    (hbody : AllScoped vs body body') : Scoped vs (.block body) (.block body')
  | ifOnly (line : Nat) {vs : List Local} {cond : Jminus.Expr} {cond' : Expr}
    {thenBranch : Jminus.Stmt} {thenBranch' : Stmt} (hcond : ExprScoped vs cond cond')
    (hthen : Scoped vs thenBranch thenBranch') :
    Scoped vs (.ifElse line cond thenBranch none) (.ifElse cond' thenBranch' none)
  | ifElse (line : Nat) {vs : List Local} {cond : Jminus.Expr} {cond' : Expr}
    {thenBranch elseBranch : Jminus.Stmt} {thenBranch' elseBranch' : Stmt}
    (hcond : ExprScoped vs cond cond') (hthen : Scoped vs thenBranch thenBranch')
    (helse : Scoped vs elseBranch elseBranch') :
    Scoped vs (.ifElse line cond thenBranch (some elseBranch))
      (.ifElse cond' thenBranch' (some elseBranch'))
  | whileLoop (line : Nat) (frame : Frame) {vs : List Local} {cond : Jminus.Expr} {cond' : Expr}
    {body : Jminus.Stmt} {body' : Stmt} (hcond : ExprScoped vs cond cond')
    (hbody : Scoped vs body body') :
    Scoped vs (.whileLoop line cond body) (.whileLoop frame cond' body')
  | doLoop (line : Nat) (frame : Frame) {vs : List Local} {body : Jminus.Stmt} {body' : Stmt}
    {cond : Jminus.Expr} {cond' : Expr} (hbody : Scoped vs body body')
    (hcond : ExprScoped vs cond cond') :
    Scoped vs (.doLoop line body cond) (.doLoop frame body' cond')
  -- What the head declares is in sight of the rest of the loop.
  | forLoop (line : Nat) (frame : Frame) {vs : List Local} {init : List Jminus.Stmt}
    {init' : List Stmt} {cond : Option Jminus.Expr} {cond' : Option Expr}
    {update : List Jminus.Expr} {update' : List Expr} {body : Jminus.Stmt} {body' : Stmt}
    (hinit : AllScoped vs init init')
    (hcond : ExprsScoped (Stmt.inSight vs init') cond.toList cond'.toList)
    (hupdate : ExprsScoped (Stmt.inSight vs init') update update')
    (hbody : Scoped (Stmt.inSight vs init') body body') :
    Scoped vs (.forLoop line init cond update body) (.forLoop frame init' cond' update' body')
  | switch (line : Nat) (frame : Frame) {vs : List Local} {subject : Jminus.Expr}
    {subject' : Expr} {groups : List Jminus.SwitchGroup} {groups' : List SwitchGroup}
    (hsubject : ExprScoped vs subject subject') (hgroups : GroupsScoped vs groups groups') :
    Scoped vs (.switch line subject groups) (.switch line frame subject' groups')
  | brk (line : Nat) (target : Option Nat) {vs : List Local} :
    Scoped vs (.brk line) (.brk line target)
  | cont (line : Nat) (target : Option Nat) {vs : List Local} :
    Scoped vs (.cont line) (.cont line target)
  | ret (line : Nat) {vs : List Local} : Scoped vs (.ret line none) .ret
  | throw (line : Nat) {vs : List Local} {value : Jminus.Expr} {value' : Expr}
    (hvalue : ExprScoped vs value value') : Scoped vs (.throw line value) (.throw value')
  | tryCatch {vs : List Local} {body : List Jminus.Stmt} {body' : List Stmt}
    {catches : List Jminus.CatchClause} {catches' : List CatchClause}
    (hbody : AllScoped vs body body') (hcatches : CatchesScoped vs catches catches') :
    Scoped vs (.tryCatch body catches none) (.tryCatch body' catches' .absent)
  | tryFinally (slot : Nat) {vs : List Local} {body cleanup : List Jminus.Stmt}
    {body' cleanup' : List Stmt} {catches : List Jminus.CatchClause}
    {catches' : List CatchClause} (hbody : AllScoped vs body body')
    (hcatches : CatchesScoped vs catches catches') (hcleanup : AllScoped vs cleanup cleanup') :
    Scoped vs (.tryCatch body catches (some cleanup))
      (.tryCatch body' catches' (.mk slot cleanup'))
  | empty {vs : List Local} : Scoped vs .empty .empty

/-- Statements one after the other, each in sight of what those before it declare. -/
inductive AllScoped : List Local → List Jminus.Stmt → List Stmt → Prop
  | nil {vs : List Local} : AllScoped vs [] []
  | cons {vs : List Local} {s : Jminus.Stmt} {s' : Stmt} {ss : List Jminus.Stmt} {ss' : List Stmt}
    (hs : Scoped vs s s') (hss : AllScoped (s'.declares ++ vs) ss ss') :
    AllScoped vs (s :: ss) (s' :: ss')

inductive GroupsScoped : List Local → List Jminus.SwitchGroup → List SwitchGroup → Prop
  | nil {vs : List Local} : GroupsScoped vs [] []
  | cons (values : List Int32) (isDefault : Bool) {vs : List Local}
    {labels : List (Option Jminus.Expr)} {body : List Jminus.Stmt} {body' : List Stmt}
    {groups : List Jminus.SwitchGroup} {groups' : List SwitchGroup}
    (hlabels : ∀ e, some e ∈ labels → ∃ lit, e = .literal lit) (hbody : AllScoped vs body body')
    (hgroups : GroupsScoped vs groups groups') :
    GroupsScoped vs (.mk labels body :: groups) (.mk values isDefault body' :: groups')

inductive CatchesScoped : List Local → List Jminus.CatchClause → List CatchClause → Prop
  | nil {vs : List Local} : CatchesScoped vs [] []
  | cons {vs : List Local} {type name : Name} {param : Local} {body : List Jminus.Stmt}
    {body' : List Stmt} {clauses : List Jminus.CatchClause} {clauses' : List CatchClause}
    (hparam : Introduces vs type name param) (hbody : AllScoped (param :: vs) body body')
    (hclauses : CatchesScoped vs clauses clauses') :
    CatchesScoped vs (.mk type name body :: clauses) (.mk param body' :: clauses')

end

/-- A variable, or what a finally clause keeps an exception in. -/
inductive Declared where
  | variable (v : Local)
  | delayed (slot : Nat)

namespace Declared

def slot : Declared → Nat
  | .variable v => v.slot
  | .delayed slot => slot

/-- What the slot holds. -/
def cell : Declared → Cell
  | .variable v => v.type.cell
  | .delayed _ => .ref

end Declared

mutual

/-- Everything in a statement that has a slot, in the order of the text; what a finally clause
keeps comes behind the clause. -/
def Stmt.declared : Stmt → List Declared
  | .var v _ => [.variable v]
  | .block body => Stmt.allDeclared body
  | .ifElse _ thenBranch none => thenBranch.declared
  | .ifElse _ thenBranch (some elseBranch) => thenBranch.declared ++ elseBranch.declared
  | .whileLoop _ _ body | .doLoop _ body _ => body.declared
  | .forLoop _ init _ _ body => Stmt.allDeclared init ++ body.declared
  | .switch _ _ _ groups => SwitchGroup.allDeclared groups
  | .tryCatch body catches cleanup =>
    Stmt.allDeclared body ++ CatchClause.allDeclared catches ++ cleanup.declared
  | .expr _ | .brk .. | .cont .. | .ret | .throw _ | .empty => []

def Stmt.allDeclared : List Stmt → List Declared
  | [] => []
  | s :: ss => s.declared ++ Stmt.allDeclared ss

def SwitchGroup.allDeclared : List SwitchGroup → List Declared
  | [] => []
  | .mk _ _ body :: groups => Stmt.allDeclared body ++ SwitchGroup.allDeclared groups

def CatchClause.allDeclared : List CatchClause → List Declared
  | [] => []
  | .mk param body :: clauses =>
    .variable param :: (Stmt.allDeclared body ++ CatchClause.allDeclared clauses)

def Cleanup.declared : Cleanup → List Declared
  | .absent => []
  | .mk slot body => Stmt.allDeclared body ++ [.delayed slot]

end

namespace State

/-- How a state changes without a report: the variables in sight are `vs` then, all with different
names, and what was declared got the next slots. -/
structure Hands (st st' : State) (vs : List Local) (ds : List Declared) : Prop where
  sight : st'.inSight = vs
  named : Named vs
  next : st'.env.slots = st.env.slots + ds.length
  slots : ds.map Declared.slot = List.range' st.env.slots ds.length

namespace Hands

variable {st st' st'' : State} {vs ws : List Local} {ds es : List Declared}

theorem refl (h : Named st.inSight) : st.Hands st st.inSight [] := ⟨rfl, h, rfl, rfl⟩

/-- Declarations one after the other get slots one after the other. -/
theorem trans (h : st.Hands st' vs ds) (h' : st'.Hands st'' ws es) :
    st.Hands st'' ws (ds ++ es) := by
  refine ⟨h'.sight, h'.named, ?_, ?_⟩
  · rw [h'.next, h.next, List.length_append, Nat.add_assoc]
  · rw [List.map_append, h.slots, h'.slots, h.next, List.length_append, List.range'_append_1]

theorem names (h : st.Hands st' vs ds) : Named st'.inSight := h.sight ▸ h.named

/-- A new variable gets the next slot. -/
theorem adds (h : Named st.inSight) {name : Name} (t : Ty) (hnew : st.env.get? name.text = none) :
    st.Hands (st.adds name t) ((st.env.add name.text t).1 :: st.inSight)
      [.variable (st.env.add name.text t).1] := by
  refine ⟨add_inSight _ _ _, ?_, rfl, rfl⟩
  refine List.nodup_cons.2 ⟨fun hmem => ?_, h⟩
  obtain ⟨u, hu, htext⟩ := List.mem_map.1 hmem
  have hne := List.find?_eq_none.1 hnew u hu
  exact hne (beq_iff_eq.2 htext)

/-- A slot may go to a finally clause instead. -/
theorem allocate (h : Named st.inSight) :
    st.Hands { st with env := st.env.allocate.2 } st.inSight [.delayed st.env.slots] :=
  ⟨rfl, h, rfl, rfl⟩

/-- What a scope declares is out of sight behind it, but keeps its slots. -/
theorem left (h : st.entered.Hands st' vs ds) (hvs : Named st.inSight)
    (houter : st'.env.scopes.tail = st.env.scopes) : st.Hands st'.left st.inSight ds :=
  ⟨congrArg List.flatten houter, hvs, h.next, h.slots⟩

theorem closed {kind : FrameKind} {frame : Frame} (h : (st.opened kind).Hands st' vs ds)
    (hclose : st.Closes kind st' frame st'') : st.Hands st'' vs ds := by
  rw [hclose.same]
  exact ⟨h.sight, h.named, h.next, h.slots⟩

end Hands

end State

/-- A name that is found stands for the variable found. -/
theorem lookUp_names {env : Env} {name : Name} (hvs : Named env.scopes.flatten)
    (h : (lookUp env name).2 = []) :
    ∃ v, Names env.scopes.flatten name v ∧ (lookUp env name).1 = some v := by
  unfold lookUp at h ⊢
  split at h
  · rename_i v hv
    have hfind : env.scopes.flatten.find? (·.name == name.text) = some v := hv
    have hmem := List.mem_of_find?_eq_some hfind
    have htext : v.name = name.text := by simpa using List.find?_some hfind
    refine ⟨v, ⟨hmem, htext, fun u hu hname => ?_⟩, rfl⟩
    exact List.inj_on_of_nodup_map hvs hu hmem (hname.trans htext.symm)
  · cases h

mutual

/-- An expression without reports has its names resolved. -/
theorem checkExpr_scoped {env : Env} (hvs : Named env.scopes.flatten) :
    ∀ e, (checkExpr env e).2 = [] → ExprScoped env.scopes.flatten e (checkExpr env e).1
  | .literal lit, h => by
    obtain ⟨type, value, heq, _⟩ := checkLiteral_sound h
    rw [checkExpr, heq]
    exact .literal lit type value
  | .var name, h => by
    obtain ⟨v, hname, hv⟩ := lookUp_names hvs h
    simp only [checkExpr, hv]
    exact .var hname
  | .assign op line target value, h => by
    simp only [checkExpr, List.append_eq_nil_iff] at h ⊢
    obtain ⟨v, hname, hv⟩ := lookUp_names hvs h.1.1
    rw [hv]
    exact .assign op line hname (checkExpr_scoped hvs value h.1.2)
  | .binary op line left right, h => by
    simp only [checkExpr] at h ⊢
    split at h
    · rename_i result operand _
      rw [List.append_eq_nil_iff] at h
      exact .binary op line _ _ (checkExpr_scoped hvs left h.1) (checkExpr_scoped hvs right h.2)
    · simp at h
  | .logical op line left right, h => by
    simp only [checkExpr, List.append_eq_nil_iff] at h ⊢
    exact .logical op line (checkExpr_scoped hvs left h.1.1) (checkExpr_scoped hvs right h.2.1)
  | .unary op line operand, h => by
    have ih := checkExpr_scoped hvs operand
    simp only [checkExpr] at h ⊢
    split
    · rename_i hany
      simp only [hany, if_true] at h
      exact .unary op line _ (ih h)
    · rename_i hany
      simp only [hany, if_false] at h
      split
      · rename_i hunary
        simp only [hunary, if_true] at h
        exact .unary op line _ (ih h)
      · rename_i hunary
        simp [hunary] at h
  | .increment op line side target, h => by
    simp only [checkExpr, List.append_eq_nil_iff] at h ⊢
    obtain ⟨v, hname, hv⟩ := lookUp_names hvs h.1
    rw [hv]
    exact .increment op line side hname
  | .conditional line cond thenPart elsePart, h => by
    simp only [checkExpr] at h ⊢
    split at h
    · simp only [List.append_eq_nil_iff] at h
      exact .conditional line _ (checkExpr_scoped hvs cond h.1.1.1)
        (checkExpr_scoped hvs thenPart h.1.2) (checkExpr_scoped hvs elsePart h.2)
    · simp at h
  | .new className, h => by
    simp only [checkExpr] at h ⊢
    split at h
    · cases h
    · split at h
      · simp only [*, if_true]
        exact .new className _
      · cases h
  | .call name args, h => by
    simp only [checkExpr] at h ⊢
    split at h
    · exact .call name _ (checkExprs_scoped hvs args h)
    · simp at h
  | .group inner, h => .group (checkExpr_scoped hvs inner h)

theorem checkExprs_scoped {env : Env} (hvs : Named env.scopes.flatten) :
    ∀ es, (checkExprs env es).2 = [] → ExprsScoped env.scopes.flatten es (checkExprs env es).1
  | [], _ => .nil
  | e :: es, h => by
    simp only [checkExprs, List.append_eq_nil_iff] at h
    exact .cons (checkExpr_scoped hvs e h.1) (checkExprs_scoped hvs es h.2)

end

section

variable {st st' : State}

theorem scoped_of_checkExpr {e : Jminus.Expr} {a : Expr} (hvs : Named st.inSight)
    (h : checkExpr st.env e = (a, [])) : ExprScoped st.inSight e a := by
  have hscoped := checkExpr_scoped hvs e (congrArg Prod.snd h)
  rwa [h] at hscoped

theorem scoped_of_checkExprs {es : List Jminus.Expr} {as : List Expr} (hvs : Named st.inSight)
    (h : checkExprs st.env es = (as, [])) : ExprsScoped st.inSight es as := by
  have hscoped := checkExprs_scoped hvs es (congrArg Prod.snd h)
  rwa [h] at hscoped

theorem scoped_of_conditions {cond : Option Jminus.Expr} {a : Option Expr}
    (hvs : Named st.inSight) (h : Option.Rel (ConditionIn st.env) cond a) :
    ExprsScoped st.inSight cond.toList a.toList := by
  cases h with
  | none => exact .nil
  | some h => exact .cons (scoped_of_checkExpr hvs h.1) .nil

/-- A label that is not reported is a literal. -/
theorem LabelsRead.literal {seen : Labels} {ls : List (Option Jminus.Expr)}
    {r : List Int32 × Labels} (h : LabelsRead seen ls r) :
    ∀ e, some e ∈ ls → ∃ lit, e = .literal lit := by
  induction h with
  | nil => simp
  | cons hl _ ih =>
    intro e he
    rcases List.mem_cons.1 he with rfl | he
    · cases hl
      exact ⟨_, rfl⟩
    · exact ih e he

/-- A new name of a known type introduces a variable. -/
theorem introduces_of_add {type name : Name} {t : Ty} (hvs : Named st.inSight)
    (htype : Ty.ofName? type.text = some t) (hnew : st.env.get? name.text = none) :
    Introduces st.inSight type name (st.env.add name.text t).1 :=
  ⟨htype, rfl, (State.Hands.adds hvs t hnew).named⟩

end

def StmtScopes (s : Jminus.Stmt) : Prop :=
  ∀ ⦃st st' : State⦄ ⦃a : Stmt⦄, Named st.inSight → Silent (checkStmt s) st a st' →
    Scoped st.inSight s a ∧ st.Hands st' (a.declares ++ st.inSight) a.declared

def StmtsScope (ss : List Jminus.Stmt) : Prop :=
  ∀ ⦃st st' : State⦄ ⦃as : List Stmt⦄, Named st.inSight → Silent (checkStmts ss) st as st' →
    AllScoped st.inSight ss as ∧
      st.Hands st' (Stmt.inSight st.inSight as) (Stmt.allDeclared as)

def GroupsScope (line : Nat) (gs : List Jminus.SwitchGroup) : Prop :=
  ∀ ⦃st st' : State⦄ ⦃seen : Labels⦄ ⦃as : List SwitchGroup⦄, Named st.inSight →
    Silent (checkGroups line seen gs) st as st' →
    GroupsScoped st.inSight gs as ∧ st.Hands st' st.inSight (SwitchGroup.allDeclared as)

def CatchesScope (cs : List Jminus.CatchClause) : Prop :=
  ∀ ⦃st st' : State⦄ ⦃as : List CatchClause⦄, Named st.inSight →
    Silent (checkCatches cs) st as st' →
    CatchesScoped st.inSight cs as ∧ st.Hands st' st.inSight (CatchClause.allDeclared as)

/-- What is declared in a scope is out of sight behind it. -/
theorem StmtScopes.inScope {s : Jminus.Stmt} (hs : StmtScopes s) {st st' : State} {a : Stmt}
    (hvs : Named st.inSight) (h : Silent (inScope (checkStmt s)) st a st') :
    Scoped st.inSight s a ∧ st.Hands st' st.inSight a.declared := by
  obtain ⟨st₁, hrun, rfl⟩ := (Acts.self (checkStmt_total s)).inScope.silent.1 h
  have hentered : Named st.entered.inSight := hvs
  obtain ⟨hscoped, hhands⟩ := hs hentered hrun
  exact ⟨hscoped, hhands.left hvs (hrun.grows (checkStmt_total s)).outer⟩

theorem StmtsScope.inScope {ss : List Jminus.Stmt} (hs : StmtsScope ss) {st st' : State}
    {as : List Stmt} (hvs : Named st.inSight) (h : Silent (inScope (checkStmts ss)) st as st') :
    AllScoped st.inSight ss as ∧ st.Hands st' st.inSight (Stmt.allDeclared as) := by
  obtain ⟨st₁, hrun, rfl⟩ := (Acts.self (checkStmts_total ss)).inScope.silent.1 h
  have hentered : Named st.entered.inSight := hvs
  obtain ⟨hscoped, hhands⟩ := hs hentered hrun
  exact ⟨hscoped, hhands.left hvs (hrun.grows (checkStmts_total ss)).outer⟩

mutual

/-- A statement without reports has its names resolved, and what it declares has its slots. -/
theorem checkStmt_scoped : ∀ s, StmtScopes s
  | .expr e, st, st', a, hvs, h => by
    obtain ⟨e', he, rfl, rfl⟩ := silent_expr.1 h
    exact ⟨.expr (scoped_of_checkExpr hvs he), .refl hvs⟩
  | .var type name none, st, st', a, hvs, h => by
    obtain ⟨t, ht, hnew, rfl, rfl⟩ := silent_var.1 h
    exact ⟨.var (introduces_of_add hvs ht.1 hnew), .adds hvs t hnew⟩
  | .var type name (some init), st, st', a, hvs, h => by
    obtain ⟨t, ht, e, he, _, hnew, rfl, rfl⟩ := silent_varInit.1 h
    exact ⟨.varInit (introduces_of_add hvs ht.1 hnew) (scoped_of_checkExpr hvs he), .adds hvs t hnew⟩
  | .block body, st, st', a, hvs, h => by
    obtain ⟨b, hbody, rfl⟩ := silent_block.1 h
    obtain ⟨hscoped, hhands⟩ := (checkStmts_scoped body).inScope hvs hbody
    exact ⟨.block hscoped, hhands⟩
  | .ifElse line cond thenBranch none, st, st', a, hvs, h => by
    obtain ⟨c, hcond, b, hthen, rfl⟩ := silent_ifThen.1 h
    obtain ⟨hscoped, hhands⟩ := (checkStmt_scoped thenBranch).inScope hvs hthen
    exact ⟨.ifOnly line (scoped_of_checkExpr hvs hcond.1) hscoped, hhands⟩
  | .ifElse line cond thenBranch (some elseBranch), st, st', a, hvs, h => by
    obtain ⟨c, hcond, b, st₁, hthen, d, helse, rfl⟩ := silent_ifElse.1 h
    obtain ⟨hthen', hhands⟩ := (checkStmt_scoped thenBranch).inScope hvs hthen
    obtain ⟨helse', hhands'⟩ := (checkStmt_scoped elseBranch).inScope hhands.names helse
    rw [hhands.sight] at helse' hhands'
    exact ⟨.ifElse line (scoped_of_checkExpr hvs hcond.1) hthen' helse', hhands.trans hhands'⟩
  | .whileLoop line cond body, st, st', a, hvs, h => by
    obtain ⟨frame, c, hcond, b, ⟨st₁, hbody, hclose⟩, rfl⟩ := silent_while.1 h
    have hopened : Named (st.opened .loop).inSight := hvs
    obtain ⟨hbody', hhands⟩ := (checkStmt_scoped body).inScope hopened hbody
    exact ⟨.whileLoop line frame (scoped_of_checkExpr hopened hcond.1) hbody', hhands.closed hclose⟩
  | .doLoop line body cond, st, st', a, hvs, h => by
    obtain ⟨frame, b, c, ⟨st₁, hbody, hcond, hclose⟩, rfl⟩ := silent_do.1 h
    have hopened : Named (st.opened .loop).inSight := hvs
    obtain ⟨hbody', hhands⟩ := (checkStmt_scoped body).inScope hopened hbody
    have hcond' := scoped_of_checkExpr hhands.names hcond.1
    rw [hhands.sight] at hcond'
    exact ⟨.doLoop line frame hbody' hcond', hhands.closed hclose⟩
  | .forLoop line init cond update body, st, st', a, hvs, h => by
    obtain ⟨frame, is, st₁, hinit, c, hcond, us, hupdate, b, st₂, hbody, hclose, rfl⟩ :=
      silent_for.1 h
    have hopened : Named (st.opened .loop).entered.inSight := hvs
    obtain ⟨hinit', hhands⟩ := checkStmts_scoped init hopened hinit
    have hcond' := scoped_of_conditions hhands.names hcond
    have hupdate' := scoped_of_checkExprs hhands.names hupdate
    obtain ⟨hbody', hhands'⟩ := (checkStmt_scoped body).inScope hhands.names hbody
    rw [hhands.sight] at hcond' hupdate' hbody'
    have houter := (hbody.grows (checkStmt_total body).inScope).outer.trans
      (hinit.grows (checkStmts_total init)).outer
    exact ⟨.forLoop line frame hinit' hcond' hupdate' hbody',
      ((hhands.trans hhands').left hvs houter).closed hclose⟩
  | .switch line subject groups, st, st', a, hvs, h => by
    obtain ⟨frame, e, he, _, bs, st₁, hgroups, hclose, rfl⟩ := silent_switch.1 h
    have hopened : Named (st.opened .switch).inSight := hvs
    obtain ⟨hgroups', hhands⟩ := checkGroups_scoped groups hopened hgroups
    exact ⟨.switch line frame (scoped_of_checkExpr hvs he) hgroups', hhands.closed hclose⟩
  | .brk line, st, st', a, hvs, h => by
    obtain ⟨frame, _, rfl, rfl⟩ := silent_brk.1 h
    exact ⟨.brk line _, rfl, hvs, rfl, rfl⟩
  | .cont line, st, st', a, hvs, h => by
    obtain ⟨frame, _, rfl, rfl⟩ := silent_cont.1 h
    exact ⟨.cont line _, rfl, hvs, rfl, rfl⟩
  | .ret line value, st, st', a, hvs, h => by
    obtain ⟨rfl, rfl, rfl⟩ := silent_ret.1 h
    exact ⟨.ret line, .refl hvs⟩
  | .throw line value, st, st', a, hvs, h => by
    obtain ⟨e, he, _, rfl, rfl⟩ := silent_throw.1 h
    exact ⟨.throw line (scoped_of_checkExpr hvs he), .refl hvs⟩
  | .tryCatch body catches none, st, st', a, hvs, h => by
    obtain ⟨b, st₁, hbody, cs, hcatches, rfl⟩ := silent_tryCatch.1 h
    obtain ⟨hbody', hhands⟩ := (checkStmts_scoped body).inScope hvs hbody
    obtain ⟨hcatches', hhands'⟩ := checkCatches_scoped catches hhands.names hcatches
    rw [hhands.sight] at hcatches' hhands'
    refine ⟨.tryCatch hbody' hcatches', ?_⟩
    simpa [Stmt.declared, Cleanup.declared, Stmt.declares] using hhands.trans hhands'
  | .tryCatch body catches (some cleanup), st, st', a, hvs, h => by
    obtain ⟨b, st₁, hbody, cs, st₂, hcatches, f, st₃, hcleanup, rfl, rfl⟩ := silent_tryFinally.1 h
    obtain ⟨hbody', hhands₁⟩ := (checkStmts_scoped body).inScope hvs hbody
    obtain ⟨hcatches', hhands₂⟩ := checkCatches_scoped catches hhands₁.names hcatches
    obtain ⟨hcleanup', hhands₃⟩ := (checkStmts_scoped cleanup).inScope hhands₂.names hcleanup
    have hhands₄ := State.Hands.allocate hhands₃.names
    rw [hhands₃.sight, hhands₂.sight, hhands₁.sight] at hhands₄
    rw [hhands₁.sight] at hcatches'
    rw [hhands₂.sight, hhands₁.sight] at hcleanup'
    refine ⟨.tryFinally _ hbody' hcatches' hcleanup', ?_⟩
    have hhands := (hhands₁.trans hhands₂).trans (hhands₃.trans hhands₄)
    simpa [Stmt.declared, Cleanup.declared, Stmt.declares] using hhands
  | .empty, st, st', a, hvs, h => by
    obtain ⟨rfl, rfl⟩ := silent_empty.1 h
    exact ⟨.empty, .refl hvs⟩

theorem checkStmts_scoped : ∀ ss, StmtsScope ss
  | [], st, st', as, hvs, h => by
    cases pure_ok.1 h.1
    exact ⟨.nil, .refl hvs⟩
  | s :: ss, st, st', as, hvs, h => by
    obtain ⟨b, st₁, hrun, bs, hruns, rfl⟩ := silent_cons.1 h
    obtain ⟨hscoped, hhands⟩ := checkStmt_scoped s hvs hrun
    obtain ⟨hscopeds, hhands'⟩ := checkStmts_scoped ss hhands.names hruns
    rw [hhands.sight] at hscopeds hhands'
    exact ⟨.cons hscoped hscopeds, hhands.trans hhands'⟩

theorem checkGroups_scoped {line : Nat} : ∀ gs, GroupsScope line gs
  | [], st, st', seen, as, hvs, h => by
    cases pure_ok.1 h.1
    exact ⟨.nil, .refl hvs⟩
  | .mk ls body :: groups, st, st', seen, as, hvs, h => by
    obtain ⟨r, hlabels, b, st₁, hbody, bs, hrest, rfl⟩ := silent_groups.1 h
    obtain ⟨hbody', hhands⟩ := (checkStmts_scoped body).inScope hvs hbody
    obtain ⟨hgroups', hhands'⟩ := checkGroups_scoped groups hhands.names hrest
    rw [hhands.sight] at hgroups' hhands'
    exact ⟨.cons _ _ hlabels.literal hbody' hgroups', hhands.trans hhands'⟩

theorem checkCatches_scoped : ∀ cs, CatchesScope cs
  | [], st, st', as, hvs, h => by
    cases pure_ok.1 h.1
    exact ⟨.nil, .refl hvs⟩
  | .mk type name body :: clauses, st, st', as, hvs, h => by
    obtain ⟨t, ht, hnew, b, st₁, hbody, ds, hrest, rfl⟩ := silent_catches.1 h
    have hentered : Named st.entered.inSight := hvs
    have hadd := State.Hands.adds hentered t hnew
    obtain ⟨hbody', hhands⟩ := (checkStmts_scoped body).inScope hadd.names hbody
    rw [hadd.sight] at hbody'
    have hleft := (hadd.trans hhands).left hvs (hbody.grows (checkStmts_total body).inScope).outer
    obtain ⟨hclauses, hhands'⟩ := checkCatches_scoped clauses hleft.names hrest
    rw [hleft.sight] at hclauses hhands'
    exact ⟨.cons (introduces_of_add hvs ht.1 hnew) hbody' hclauses, hleft.trans hhands'⟩

end

end Jminus.Checked
