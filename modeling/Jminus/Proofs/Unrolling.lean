import Jminus.Proofs.Alike.Stmt
import Jminus.Proofs.Jumps
import Jminus.Proofs.Outline.Tree
import Jminus.Proofs.Typing.Stmt
import Mathlib

/-!
Unrolling do loops: the first round of a do loop may be written out before a while loop that does
the others, if nothing in the body jumps to the loop.

Analysis has nothing to report about the unrolled program if it has nothing to report about the
program, and then the two are checked to alike trees. They need not be written on the same lines.
-/
namespace Jminus

inductive Jump where
  | brk | cont
  deriving DecidableEq, Repr

mutual

/-- Some jump of a kind in the statement is bound to what stands around it. Loops take both kinds of
jumps, and switches take breaks. -/
def Stmt.hasJump (j : Jump) : Stmt → Bool
  | .brk _ => j = .brk
  | .cont _ => j = .cont
  | .block body => Stmt.haveJump j body
  | .ifElse _ _ thenBranch none => thenBranch.hasJump j
  | .ifElse _ _ thenBranch (some elseBranch) => thenBranch.hasJump j || elseBranch.hasJump j
  | .switch _ _ groups => j = .cont && SwitchGroup.haveJump j groups
  | .tryCatch body catches none => Stmt.haveJump j body || CatchClause.haveJump j catches
  | .tryCatch body catches (some cleanup) =>
    Stmt.haveJump j body || CatchClause.haveJump j catches || Stmt.haveJump j cleanup
  | .whileLoop .. | .doLoop .. | .forLoop .. => false
  | .expr _ | .var .. | .ret .. | .throw .. | .empty => false

def Stmt.haveJump (j : Jump) : List Stmt → Bool
  | [] => false
  | s :: ss => s.hasJump j || Stmt.haveJump j ss

def SwitchGroup.haveJump (j : Jump) : List SwitchGroup → Bool
  | [] => false
  | .mk _ body :: groups => Stmt.haveJump j body || SwitchGroup.haveJump j groups

def CatchClause.haveJump (j : Jump) : List CatchClause → Bool
  | [] => false
  | .mk _ _ body :: clauses => Stmt.haveJump j body || CatchClause.haveJump j clauses

end

mutual

/-- The second statement is the first one with some of its do loops unrolled, possibly on other
lines. -/
inductive Stmt.Unrolled : Stmt → Stmt → Prop
  | expr {e e'} : e.unlined = e'.unlined → Stmt.Unrolled (.expr e) (.expr e')
  | var {type type' name name' init init'} : type.text = type'.text → name.text = name'.text →
    init.map Expr.unlined = init'.map Expr.unlined →
    Stmt.Unrolled (.var type name init) (.var type' name' init')
  | block {ss ss'} : Stmt.AllUnrolled ss ss' → Stmt.Unrolled (.block ss) (.block ss')
  | ifThen {line line' c c' s s'} : c.unlined = c'.unlined → Stmt.Unrolled s s' →
    Stmt.Unrolled (.ifElse line c s none) (.ifElse line' c' s' none)
  | ifElse {line line' c c' s s' t t'} : c.unlined = c'.unlined → Stmt.Unrolled s s' →
    Stmt.Unrolled t t' → Stmt.Unrolled (.ifElse line c s (some t)) (.ifElse line' c' s' (some t'))
  | whileLoop {line line' c c' s s'} : c.unlined = c'.unlined → Stmt.Unrolled s s' →
    Stmt.Unrolled (.whileLoop line c s) (.whileLoop line' c' s')
  | doLoop {line line' c c' s s'} : Stmt.Unrolled s s' → c.unlined = c'.unlined →
    Stmt.Unrolled (.doLoop line s c) (.doLoop line' s' c')
  | forLoop {line line' is is' c c' us us' s s'} : Stmt.AllUnrolled is is' →
    c.map Expr.unlined = c'.map Expr.unlined → us.map Expr.unlined = us'.map Expr.unlined →
    Stmt.Unrolled s s' → Stmt.Unrolled (.forLoop line is c us s) (.forLoop line' is' c' us' s')
  | switch {line line' e e' gs gs'} : e.unlined = e'.unlined → SwitchGroup.AllUnrolled gs gs' →
    Stmt.Unrolled (.switch line e gs) (.switch line' e' gs')
  | brk {line line'} : Stmt.Unrolled (.brk line) (.brk line')
  | cont {line line'} : Stmt.Unrolled (.cont line) (.cont line')
  | ret {line line' e e'} : e.map Expr.unlined = e'.map Expr.unlined →
    Stmt.Unrolled (.ret line e) (.ret line' e')
  | throw {line line' e e'} : e.unlined = e'.unlined →
    Stmt.Unrolled (.throw line e) (.throw line' e')
  | tryCatch {ss ss' cs cs'} : Stmt.AllUnrolled ss ss' → CatchClause.AllUnrolled cs cs' →
    Stmt.Unrolled (.tryCatch ss cs none) (.tryCatch ss' cs' none)
  | tryFinally {ss ss' cs cs' fs fs'} : Stmt.AllUnrolled ss ss' → CatchClause.AllUnrolled cs cs' →
    Stmt.AllUnrolled fs fs' →
    Stmt.Unrolled (.tryCatch ss cs (some fs)) (.tryCatch ss' cs' (some fs'))
  | empty : Stmt.Unrolled .empty .empty
  /-- The loop `do S while (c);` becomes `{ S while (c) S }`. -/
  | unroll {line line' ss ss₁ ss₂ c c'} : (∀ j, Stmt.haveJump j ss = false) →
    Stmt.AllUnrolled ss ss₁ → Stmt.AllUnrolled ss ss₂ → c.unlined = c'.unlined →
    Stmt.Unrolled (.doLoop line (.block ss) c)
      (.block [.block ss₁, .whileLoop line' c' (.block ss₂)])

inductive Stmt.AllUnrolled : List Stmt → List Stmt → Prop
  | nil : Stmt.AllUnrolled [] []
  | cons {s s' ss ss'} : Stmt.Unrolled s s' → Stmt.AllUnrolled ss ss' →
    Stmt.AllUnrolled (s :: ss) (s' :: ss')

inductive SwitchGroup.AllUnrolled : List SwitchGroup → List SwitchGroup → Prop
  | nil : SwitchGroup.AllUnrolled [] []
  | cons {ls ls' ss ss' gs gs'} :
    ls.map (Option.map Expr.unlined) = ls'.map (Option.map Expr.unlined) →
    Stmt.AllUnrolled ss ss' → SwitchGroup.AllUnrolled gs gs' →
    SwitchGroup.AllUnrolled (.mk ls ss :: gs) (.mk ls' ss' :: gs')

inductive CatchClause.AllUnrolled : List CatchClause → List CatchClause → Prop
  | nil : CatchClause.AllUnrolled [] []
  | cons {type type' name name' ss ss' cs cs'} : type.text = type'.text → name.text = name'.text →
    Stmt.AllUnrolled ss ss' → CatchClause.AllUnrolled cs cs' →
    CatchClause.AllUnrolled (.mk type name ss :: cs) (.mk type' name' ss' :: cs')

end

mutual

/-- Nothing needs to be unrolled. -/
theorem Stmt.Unrolled.refl : ∀ s, Stmt.Unrolled s s
  | .expr _ => .expr rfl
  | .var .. => .var rfl rfl rfl
  | .block ss => .block (Stmt.AllUnrolled.refl ss)
  | .ifElse _ _ s none => .ifThen rfl (.refl s)
  | .ifElse _ _ s (some t) => .ifElse rfl (.refl s) (.refl t)
  | .whileLoop _ _ s => .whileLoop rfl (.refl s)
  | .doLoop _ s _ => .doLoop (.refl s) rfl
  | .forLoop _ is _ _ s => .forLoop (Stmt.AllUnrolled.refl is) rfl rfl (.refl s)
  | .switch _ _ gs => .switch rfl (SwitchGroup.AllUnrolled.refl gs)
  | .brk _ => .brk
  | .cont _ => .cont
  | .ret .. => .ret rfl
  | .throw .. => .throw rfl
  | .tryCatch ss cs none => .tryCatch (Stmt.AllUnrolled.refl ss) (CatchClause.AllUnrolled.refl cs)
  | .tryCatch ss cs (some fs) =>
    .tryFinally (Stmt.AllUnrolled.refl ss) (CatchClause.AllUnrolled.refl cs)
      (Stmt.AllUnrolled.refl fs)
  | .empty => .empty

theorem Stmt.AllUnrolled.refl : ∀ ss, Stmt.AllUnrolled ss ss
  | [] => .nil
  | s :: ss => .cons (.refl s) (Stmt.AllUnrolled.refl ss)

theorem SwitchGroup.AllUnrolled.refl : ∀ gs, SwitchGroup.AllUnrolled gs gs
  | [] => .nil
  | .mk _ ss :: gs => .cons rfl (Stmt.AllUnrolled.refl ss) (SwitchGroup.AllUnrolled.refl gs)

theorem CatchClause.AllUnrolled.refl : ∀ cs, CatchClause.AllUnrolled cs cs
  | [] => .nil
  | .mk _ _ ss :: cs => .cons rfl rfl (Stmt.AllUnrolled.refl ss) (CatchClause.AllUnrolled.refl cs)

end

namespace Checked

open Analysis

/-- The same answer, and reports in both cases or in none. -/
structure Reported.Agrees {α : Type} (r r' : Reported α) : Prop where
  value : r.1 = r'.1
  quiet : r.2 = [] ↔ r'.2 = []

/-- A literal is checked the same on every line. -/
theorem checkLiteral_unlined (lit : Literal) :
    Reported.Agrees (checkLiteral { lit with line := 0 }) (checkLiteral lit) := by
  obtain ⟨form, lexeme, line⟩ := lit
  cases form with
  | int | long =>
    simp only [checkLiteral]
    split
    · exact ⟨rfl, Iff.rfl⟩
    · exact ⟨rfl, by simp [noValue]⟩
  | double =>
    simp only [checkLiteral]
    split
    · exact ⟨rfl, Iff.rfl⟩
    · exact ⟨rfl, by simp [noValue]⟩
  | _ => exact ⟨rfl, Iff.rfl⟩

theorem lookUp_unlined (env : Env) (name : Name) :
    Reported.Agrees (lookUp env name.unlined) (lookUp env name) := by
  cases hget : env.get? name.text <;> constructor <;> simp [lookUp, Name.unlined, hget]

mutual

theorem checkExpr_unlined (env : Env) :
    ∀ e, Reported.Agrees (checkExpr env e.unlined) (checkExpr env e)
  | .literal lit => checkLiteral_unlined lit
  | .var name => by
    have h := lookUp_unlined env name
    constructor
    · simp only [Expr.unlined, checkExpr, h.value]
    · simp only [Expr.unlined, checkExpr, h.quiet]
  | .assign op line target value => by
    have ht := lookUp_unlined env target
    have hv := checkExpr_unlined env value
    constructor
    · simp only [Expr.unlined, checkExpr, ht.value, hv.value]
    · cases op <;> simp only [Expr.unlined, checkExpr, ht.value, hv.value, ht.quiet, hv.quiet,
        List.append_eq_nil_iff, assignReports_eq_nil, compoundReports_eq_nil]
  | .binary op line left right => by
    have hl := checkExpr_unlined env left
    have hr := checkExpr_unlined env right
    simp only [Expr.unlined, checkExpr, hl.value, hr.value]
    split
    · exact ⟨rfl, by simp only [List.append_eq_nil_iff, hl.quiet, hr.quiet]⟩
    · exact ⟨rfl, by simp⟩
  | .logical op line left right => by
    have hl := checkExpr_unlined env left
    have hr := checkExpr_unlined env right
    constructor
    · simp only [Expr.unlined, checkExpr, hl.value, hr.value]
    · simp only [Expr.unlined, checkExpr, hl.value, hr.value, List.append_eq_nil_iff, hl.quiet,
        hr.quiet, conditionReports_eq_nil]
  | .unary op line operand => by
    have h := checkExpr_unlined env operand
    simp only [Expr.unlined, checkExpr, h.value]
    split
    · exact ⟨rfl, h.quiet⟩
    · split
      · exact ⟨rfl, h.quiet⟩
      · exact ⟨rfl, by simp⟩
  | .increment op line side target => by
    have h := lookUp_unlined env target
    constructor
    · simp only [Expr.unlined, checkExpr, h.value]
    · simp only [Expr.unlined, checkExpr, h.value, List.append_eq_nil_iff, h.quiet]
      split <;> simp
  | .conditional line cond thenPart elsePart => by
    have hc := checkExpr_unlined env cond
    have ha := checkExpr_unlined env thenPart
    have hb := checkExpr_unlined env elsePart
    simp only [Expr.unlined, checkExpr, hc.value, ha.value, hb.value]
    split
    · exact ⟨rfl, by simp only [List.append_eq_nil_iff, hc.quiet, ha.quiet, hb.quiet,
        conditionReports_eq_nil]⟩
    · exact ⟨rfl, by simp⟩
  | .new className => by
    simp only [Expr.unlined, checkExpr, Name.unlined]
    split
    · exact ⟨rfl, by simp⟩
    · split
      · exact ⟨rfl, Iff.rfl⟩
      · exact ⟨rfl, by simp⟩
  | .call method args => by
    have h := checkExprs_unlined env args
    simp only [Expr.unlined, checkExpr, Name.unlined, h.value]
    split
    · exact ⟨rfl, h.quiet⟩
    · exact ⟨rfl, by simp⟩
  | .group inner => by
    have h := checkExpr_unlined env inner
    constructor
    · simp only [Expr.unlined, checkExpr, h.value]
    · simp only [Expr.unlined, checkExpr, h.quiet]

theorem checkExprs_unlined (env : Env) :
    ∀ es, Reported.Agrees (checkExprs env (Expr.unlinedAll es)) (checkExprs env es)
  | [] => ⟨rfl, Iff.rfl⟩
  | e :: es => by
    have he := checkExpr_unlined env e
    have hes := checkExprs_unlined env es
    constructor
    · simp only [Expr.unlinedAll, checkExprs, he.value, hes.value]
    · simp only [Expr.unlinedAll, checkExprs, List.append_eq_nil_iff, he.quiet, hes.quiet]

end

/-- The variables in sight of two environments, in pairs of one name. -/
structure Pairing.Sees (ρ : Pairing) (env env' : Env) : Prop where
  left : env.scopes.flatten = ρ.map Prod.fst
  right : env'.scopes.flatten = ρ.map Prod.snd
  name : ∀ p ∈ ρ, p.1.name = p.2.name

section Expressions

variable {ρ : Pairing} {env env' : Env}

/-- A name stands for the two variables of a pair, or for none. -/
theorem Pairing.Sees.get? (h : ρ.Sees env env') (name : String) :
    env.get? name = (ρ.find? (·.1.name == name)).map Prod.fst ∧
      env'.get? name = (ρ.find? (·.1.name == name)).map Prod.snd := by
  have hsame : ρ.find? (·.2.name == name) = ρ.find? (·.1.name == name) := by
    refine List.find?_congr fun p hp => ?_
    rw [h.name p hp]
  constructor
  · rw [Env.get?, h.left, List.find?_map]
    rfl
  · rw [Env.get?, h.right, List.find?_map, ← hsame]
    rfl

theorem Pairing.Sees.lookUp (h : ρ.Sees env env') {name : Name}
    (hquiet : (lookUp env name).2 = []) :
    ∃ v v', (v, v') ∈ ρ ∧ Checked.lookUp env name = (some v, []) ∧
      Checked.lookUp env' name = (some v', []) := by
  obtain ⟨hleft, hright⟩ := h.get? name.text
  cases hfind : ρ.find? (·.1.name == name.text) with
  | none =>
    rw [hfind] at hleft
    simp [Checked.lookUp, hleft] at hquiet
  | some p =>
    rw [hfind] at hleft hright
    refine ⟨p.1, p.2, List.mem_of_find?_eq_some hfind, ?_, ?_⟩
    · simp [Checked.lookUp, hleft]
    · simp [Checked.lookUp, hright]

theorem checkLiteral_literal (lit : Literal) :
    ∃ type value, (checkLiteral lit).1 = .literal type value := by
  obtain ⟨form, lexeme, line⟩ := lit
  cases form with
  | int | long | double =>
    simp only [checkLiteral]
    split
    · exact ⟨_, _, rfl⟩
    · exact ⟨_, _, rfl⟩
  | _ => exact ⟨_, _, rfl⟩

mutual

/-- Nothing to report here is nothing to report there. -/
theorem checkExpr_alike (hρ : ρ.Exact) (h : ρ.Sees env env') :
    ∀ e, (checkExpr env e).2 = [] →
      (checkExpr env e).1.Alike ρ (checkExpr env' e).1 ∧ (checkExpr env' e).2 = []
  | .literal lit, hquiet => by
    obtain ⟨type, value, heq⟩ := checkLiteral_literal lit
    simp only [checkExpr, heq] at hquiet ⊢
    exact ⟨.literal type value, hquiet⟩
  | .var name, hquiet => by
    obtain ⟨v, v', hv, hleft, hright⟩ := h.lookUp hquiet
    simp only [checkExpr, hleft, hright]
    exact ⟨.var hv, trivial⟩
  | .assign op line target value, hquiet => by
    simp only [checkExpr, List.append_eq_nil_iff] at hquiet ⊢
    obtain ⟨v, v', hv, hleft, hright⟩ := h.lookUp hquiet.1.1
    obtain ⟨he, hequiet⟩ := checkExpr_alike hρ h value hquiet.1.2
    have htype : typeOf (some v) = typeOf (some v') := hρ.type _ hv
    rw [hleft, he.type hρ, htype] at hquiet
    simp only [hleft, hright]
    exact ⟨.assign hv he, ⟨trivial, hequiet⟩, hquiet.2⟩
  | .binary op line left right, hquiet => by
    simp only [checkExpr] at hquiet ⊢
    split at hquiet
    · rename_i result operand heq
      rw [List.append_eq_nil_iff] at hquiet
      obtain ⟨hl, hlquiet⟩ := checkExpr_alike hρ h left hquiet.1
      obtain ⟨hr, hrquiet⟩ := checkExpr_alike hρ h right hquiet.2
      simp only [← hl.type hρ, ← hr.type hρ, heq]
      exact ⟨.binary hl hr, by rw [hlquiet, hrquiet]; rfl⟩
    · simp at hquiet
  | .logical op line left right, hquiet => by
    simp only [checkExpr, List.append_eq_nil_iff] at hquiet ⊢
    obtain ⟨hl, hlquiet⟩ := checkExpr_alike hρ h left hquiet.1.1
    obtain ⟨hr, hrquiet⟩ := checkExpr_alike hρ h right hquiet.2.1
    rw [hl.type hρ, hr.type hρ] at hquiet
    exact ⟨.logical hl hr, ⟨hlquiet, hquiet.1.2⟩, hrquiet, hquiet.2.2⟩
  | .unary op line operand, hquiet => by
    have ih := checkExpr_alike hρ h operand
    simp only [checkExpr] at hquiet ⊢
    split at hquiet
    · rename_i hany
      obtain ⟨he, hequiet⟩ := ih hquiet
      simp only [← he.type hρ, hany, if_true]
      exact ⟨.unary he, hequiet⟩
    · rename_i hany
      split at hquiet
      · rename_i hunary
        obtain ⟨he, hequiet⟩ := ih hquiet
        simp only [← he.type hρ, hany, hunary, if_false, if_true]
        exact ⟨.unary he, hequiet⟩
      · simp at hquiet
  | .increment op line side target, hquiet => by
    simp only [checkExpr, List.append_eq_nil_iff] at hquiet ⊢
    obtain ⟨v, v', hv, hleft, hright⟩ := h.lookUp hquiet.1
    have htype : typeOf (some v) = typeOf (some v') := hρ.type _ hv
    rw [hleft, htype] at hquiet
    simp only [hleft, hright]
    exact ⟨.increment hv, trivial, hquiet.2⟩
  | .conditional line cond thenPart elsePart, hquiet => by
    simp only [checkExpr] at hquiet ⊢
    split at hquiet
    · rename_i type heq
      simp only [List.append_eq_nil_iff] at hquiet
      obtain ⟨hc, hcquiet⟩ := checkExpr_alike hρ h cond hquiet.1.1.1
      obtain ⟨ha, haquiet⟩ := checkExpr_alike hρ h thenPart hquiet.1.2
      obtain ⟨hb, hbquiet⟩ := checkExpr_alike hρ h elsePart hquiet.2
      have hbool := hquiet.1.1.2
      rw [hc.type hρ] at hbool
      simp only [← ha.type hρ, ← hb.type hρ, heq]
      exact ⟨.conditional hc ha hb, by rw [hcquiet, hbool, haquiet, hbquiet]; rfl⟩
    · simp at hquiet
  | .new className, hquiet => by
    have hsame : checkExpr env' (.new className) = checkExpr env (.new className) := rfl
    rw [hsame]
    refine ⟨?_, hquiet⟩
    simp only [checkExpr]
    split
    · exact .new _
    · split <;> exact .new _
  | .call name args, hquiet => by
    simp only [checkExpr] at hquiet ⊢
    split at hquiet
    · rename_i method heq
      obtain ⟨hargs, hargsquiet⟩ := checkExprs_alike hρ h args hquiet
      simp only [← hargs.types hρ, heq]
      exact ⟨.call hargs, hargsquiet⟩
    · simp at hquiet
  | .group inner, hquiet => by
    obtain ⟨he, hequiet⟩ := checkExpr_alike hρ h inner hquiet
    exact ⟨.group he, hequiet⟩

theorem checkExprs_alike (hρ : ρ.Exact) (h : ρ.Sees env env') :
    ∀ es, (checkExprs env es).2 = [] →
      Expr.AllAlike ρ (checkExprs env es).1 (checkExprs env' es).1 ∧ (checkExprs env' es).2 = []
  | [], _ => ⟨.nil, rfl⟩
  | e :: es, hquiet => by
    simp only [checkExprs, List.append_eq_nil_iff] at hquiet ⊢
    obtain ⟨he, hequiet⟩ := checkExpr_alike hρ h e hquiet.1
    obtain ⟨hes, hesquiet⟩ := checkExprs_alike hρ h es hquiet.2
    exact ⟨.cons he hes, hequiet, hesquiet⟩

end

/-- Expressions that differ in lines only are checked to alike ones. -/
theorem checkExpr_unrolled (hρ : ρ.Exact) (h : ρ.Sees env env') {e e' : Jminus.Expr}
    (he : e.unlined = e'.unlined) (hquiet : (checkExpr env e).2 = []) :
    (checkExpr env e).1.Alike ρ (checkExpr env' e').1 ∧ (checkExpr env' e').2 = [] := by
  have hleft := checkExpr_unlined env e
  have hright := checkExpr_unlined env' e'
  rw [he] at hleft
  obtain ⟨halike, hquiet'⟩ := checkExpr_alike hρ h e'.unlined (hleft.quiet.2 hquiet)
  rw [hleft.value, hright.value] at halike
  exact ⟨halike, hright.quiet.1 hquiet'⟩

theorem checkExprs_unrolled (hρ : ρ.Exact) (h : ρ.Sees env env') {es es' : List Jminus.Expr}
    (hes : es.map Expr.unlined = es'.map Expr.unlined) (hquiet : (checkExprs env es).2 = []) :
    Expr.AllAlike ρ (checkExprs env es).1 (checkExprs env' es').1 ∧
      (checkExprs env' es').2 = [] := by
  have hleft := checkExprs_unlined env es
  have hright := checkExprs_unlined env' es'
  rw [Expr.unlinedAll_eq, hes, ← Expr.unlinedAll_eq] at hleft
  obtain ⟨halike, hquiet'⟩ := checkExprs_alike hρ h (Expr.unlinedAll es') (hleft.quiet.2 hquiet)
  rw [hleft.value, hright.value] at halike
  exact ⟨halike, hright.quiet.1 hquiet'⟩

end Expressions

end Checked

end Jminus
