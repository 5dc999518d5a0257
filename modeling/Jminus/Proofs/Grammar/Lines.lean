import Jminus.Proofs.Grammar
import Jminus.Proofs.Outline.Tree
import Mathlib

/-!
Tokens and trees that are moved to one line. The grammar does not look at lines.
-/
namespace Jminus

def Token.onLine (n : Nat) (t : Token) : Token := { t with line := n }

def Name.onLine (n : Nat) (name : Name) : Name := { name with line := n }

mutual

def Expr.onLine (n : Nat) : Expr → Expr
  | .literal lit => .literal { lit with line := n }
  | .var name => .var (name.onLine n)
  | .assign op _ target value => .assign op n (target.onLine n) (value.onLine n)
  | .binary op _ left right => .binary op n (left.onLine n) (right.onLine n)
  | .logical op _ left right => .logical op n (left.onLine n) (right.onLine n)
  | .unary op _ operand => .unary op n (operand.onLine n)
  | .increment op _ side target => .increment op n side (target.onLine n)
  | .conditional _ cond thenPart elsePart =>
    .conditional n (cond.onLine n) (thenPart.onLine n) (elsePart.onLine n)
  | .new className => .new (className.onLine n)
  | .call method args => .call (method.onLine n) (Expr.allOnLine n args)
  | .group inner => .group (inner.onLine n)

def Expr.allOnLine (n : Nat) : List Expr → List Expr
  | [] => []
  | e :: es => e.onLine n :: Expr.allOnLine n es

end

mutual

/-- Moving an expression changes its lines only. -/
theorem Expr.unlined_onLine (n : Nat) : ∀ e : Expr, (e.onLine n).unlined = e.unlined
  | .literal _ | .var _ | .increment .. | .new _ => rfl
  | .assign _ _ _ value => by
    simp only [Expr.onLine, Expr.unlined, value.unlined_onLine n]
    rfl
  | .binary _ _ left right => by
    simp only [Expr.onLine, Expr.unlined, left.unlined_onLine n, right.unlined_onLine n]
  | .logical _ _ left right => by
    simp only [Expr.onLine, Expr.unlined, left.unlined_onLine n, right.unlined_onLine n]
  | .unary _ _ operand => by simp only [Expr.onLine, Expr.unlined, operand.unlined_onLine n]
  | .conditional _ cond thenPart elsePart => by
    simp only [Expr.onLine, Expr.unlined, cond.unlined_onLine n, thenPart.unlined_onLine n,
      elsePart.unlined_onLine n]
  | .call _ args => by
    simp only [Expr.onLine, Expr.unlined, Expr.unlined_allOnLine n args]
    rfl
  | .group inner => by simp only [Expr.onLine, Expr.unlined, inner.unlined_onLine n]

theorem Expr.unlined_allOnLine (n : Nat) :
    ∀ es : List Expr, Expr.unlinedAll (Expr.allOnLine n es) = Expr.unlinedAll es
  | [] => rfl
  | e :: es => by
    simp only [Expr.allOnLine, Expr.unlinedAll, e.unlined_onLine n, Expr.unlined_allOnLine n es]

end

mutual

/-- Lines that were there before make no difference. -/
theorem Expr.onLine_unlined (n : Nat) : ∀ e : Expr, e.unlined.onLine n = e.onLine n
  | .literal _ | .var _ | .increment .. | .new _ => rfl
  | .assign _ _ _ value => by
    simp only [Expr.onLine, Expr.unlined, value.onLine_unlined n]
    rfl
  | .binary _ _ left right => by
    simp only [Expr.onLine, Expr.unlined, left.onLine_unlined n, right.onLine_unlined n]
  | .logical _ _ left right => by
    simp only [Expr.onLine, Expr.unlined, left.onLine_unlined n, right.onLine_unlined n]
  | .unary _ _ operand => by simp only [Expr.onLine, Expr.unlined, operand.onLine_unlined n]
  | .conditional _ cond thenPart elsePart => by
    simp only [Expr.onLine, Expr.unlined, cond.onLine_unlined n, thenPart.onLine_unlined n,
      elsePart.onLine_unlined n]
  | .call _ args => by
    simp only [Expr.onLine, Expr.unlined, Expr.allOnLine_unlinedAll n args]
    rfl
  | .group inner => by simp only [Expr.onLine, Expr.unlined, inner.onLine_unlined n]

theorem Expr.allOnLine_unlinedAll (n : Nat) :
    ∀ es : List Expr, Expr.allOnLine n (Expr.unlinedAll es) = Expr.allOnLine n es
  | [] => rfl
  | e :: es => by
    simp only [Expr.allOnLine, Expr.unlinedAll, e.onLine_unlined n, Expr.allOnLine_unlinedAll n es]

end

theorem Expr.allOnLine_eq (n : Nat) (es : List Expr) :
    Expr.allOnLine n es = es.map (Expr.onLine n) := by
  induction es with
  | nil => rfl
  | cons e es ih => rw [Expr.allOnLine, ih, List.map_cons]

section SameLine

variable (n : Nat)

theorem Name.onLine_eq {name name' : Name} (h : name.text = name'.text) :
    name.onLine n = name'.onLine n := by
  rw [Name.onLine, Name.onLine, h]

theorem Expr.onLine_eq {e e' : Expr} (h : e.unlined = e'.unlined) : e.onLine n = e'.onLine n := by
  rw [← e.onLine_unlined, h, e'.onLine_unlined]

theorem Expr.onLine_comp_unlined : Expr.onLine n ∘ Expr.unlined = Expr.onLine n :=
  funext (Expr.onLine_unlined n)

theorem Expr.onLine_eq_option {e e' : Option Expr}
    (h : e.map Expr.unlined = e'.map Expr.unlined) :
    e.map (Expr.onLine n) = e'.map (Expr.onLine n) := by
  simpa only [Option.map_map, onLine_comp_unlined] using congrArg (Option.map (Expr.onLine n)) h

theorem Expr.onLine_eq_list {es es' : List Expr} (h : es.map Expr.unlined = es'.map Expr.unlined) :
    es.map (Expr.onLine n) = es'.map (Expr.onLine n) := by
  simpa only [List.map_map, onLine_comp_unlined] using congrArg (List.map (Expr.onLine n)) h

theorem Expr.onLine_eq_labels {labels labels' : List (Option Expr)}
    (h : labels.map (Option.map Expr.unlined) = labels'.map (Option.map Expr.unlined)) :
    labels.map (Option.map (Expr.onLine n)) = labels'.map (Option.map (Expr.onLine n)) := by
  simpa only [List.map_map, Option.map_comp_map, onLine_comp_unlined] using
    congrArg (List.map (Option.map (Expr.onLine n))) h

end SameLine

mutual

def Stmt.onLine (n : Nat) : Stmt → Stmt
  | .expr e => .expr (e.onLine n)
  | .var type name init => .var (type.onLine n) (name.onLine n) (init.map (Expr.onLine n))
  | .block body => .block (Stmt.allOnLine n body)
  | .ifElse _ cond thenBranch none => .ifElse n (cond.onLine n) (thenBranch.onLine n) none
  | .ifElse _ cond thenBranch (some elseBranch) =>
    .ifElse n (cond.onLine n) (thenBranch.onLine n) (some (elseBranch.onLine n))
  | .whileLoop _ cond body => .whileLoop n (cond.onLine n) (body.onLine n)
  | .doLoop _ body cond => .doLoop n (body.onLine n) (cond.onLine n)
  | .forLoop _ init cond update body =>
    .forLoop n (Stmt.allOnLine n init) (cond.map (Expr.onLine n)) (update.map (Expr.onLine n))
      (body.onLine n)
  | .switch _ subject groups => .switch n (subject.onLine n) (SwitchGroup.allOnLine n groups)
  | .brk _ => .brk n
  | .cont _ => .cont n
  | .ret _ value => .ret n (value.map (Expr.onLine n))
  | .throw _ value => .throw n (value.onLine n)
  | .tryCatch body catches none =>
    .tryCatch (Stmt.allOnLine n body) (CatchClause.allOnLine n catches) none
  | .tryCatch body catches (some cleanup) =>
    .tryCatch (Stmt.allOnLine n body) (CatchClause.allOnLine n catches)
      (some (Stmt.allOnLine n cleanup))
  | .empty => .empty

def Stmt.allOnLine (n : Nat) : List Stmt → List Stmt
  | [] => []
  | s :: ss => s.onLine n :: Stmt.allOnLine n ss

def SwitchGroup.allOnLine (n : Nat) : List SwitchGroup → List SwitchGroup
  | [] => []
  | .mk labels body :: groups =>
    .mk (labels.map (·.map (Expr.onLine n))) (Stmt.allOnLine n body) ::
      SwitchGroup.allOnLine n groups

def CatchClause.allOnLine (n : Nat) : List CatchClause → List CatchClause
  | [] => []
  | .mk type name body :: clauses =>
    .mk (type.onLine n) (name.onLine n) (Stmt.allOnLine n body) :: CatchClause.allOnLine n clauses

end

theorem Stmt.allOnLine_eq (n : Nat) (ss : List Stmt) :
    Stmt.allOnLine n ss = ss.map (Stmt.onLine n) := by
  induction ss with
  | nil => rfl
  | cons s ss ih => rw [Stmt.allOnLine, ih, List.map_cons]

section Unlined

variable (n : Nat)

theorem Expr.unlined_comp_onLine : Expr.unlined ∘ Expr.onLine n = Expr.unlined :=
  funext (Expr.unlined_onLine n)

theorem Expr.unlined_onLine_option (e : Option Expr) :
    (e.map (Expr.onLine n)).map Expr.unlined = e.map Expr.unlined := by
  rw [Option.map_map, unlined_comp_onLine]

theorem Expr.unlined_onLine_list (es : List Expr) :
    (es.map (Expr.onLine n)).map Expr.unlined = es.map Expr.unlined := by
  rw [List.map_map, unlined_comp_onLine]

theorem Expr.unlined_onLine_labels (labels : List (Option Expr)) :
    (labels.map (Option.map (Expr.onLine n))).map (Option.map Expr.unlined) =
      labels.map (Option.map Expr.unlined) := by
  rw [List.map_map, Option.map_comp_map, unlined_comp_onLine]

end Unlined

mutual

/-- Moving a statement changes its lines only. -/
theorem Stmt.unlined_onLine (n : Nat) : ∀ s : Stmt, (s.onLine n).unlined = s.unlined
  | .expr e => congrArg Stmt.expr (e.unlined_onLine n)
  | .var _ _ init => congrArg (Stmt.var _ _) (Expr.unlined_onLine_option n init)
  | .block body => congrArg Stmt.block (Stmt.unlinedAll_onLine n body)
  | .ifElse _ cond thenBranch none => by
    simp only [Stmt.onLine, Stmt.unlined, cond.unlined_onLine n, thenBranch.unlined_onLine n]
  | .ifElse _ cond thenBranch (some elseBranch) => by
    simp only [Stmt.onLine, Stmt.unlined, cond.unlined_onLine n, thenBranch.unlined_onLine n,
      elseBranch.unlined_onLine n]
  | .whileLoop _ cond body => by
    simp only [Stmt.onLine, Stmt.unlined, cond.unlined_onLine n, body.unlined_onLine n]
  | .doLoop _ body cond => by
    simp only [Stmt.onLine, Stmt.unlined, cond.unlined_onLine n, body.unlined_onLine n]
  | .forLoop _ init cond update body => by
    simp only [Stmt.onLine, Stmt.unlined, Stmt.unlinedAll_onLine n init,
      Expr.unlined_onLine_option n cond, Expr.unlined_onLine_list n update, body.unlined_onLine n]
  | .switch _ subject groups => by
    simp only [Stmt.onLine, Stmt.unlined, subject.unlined_onLine n,
      SwitchGroup.unlinedAll_onLine n groups]
  | .brk _ | .cont _ | .empty => rfl
  | .ret _ value => congrArg (Stmt.ret 0) (Expr.unlined_onLine_option n value)
  | .throw _ value => congrArg (Stmt.throw 0) (value.unlined_onLine n)
  | .tryCatch body catches none => by
    simp only [Stmt.onLine, Stmt.unlined, Stmt.unlinedAll_onLine n body,
      CatchClause.unlinedAll_onLine n catches]
  | .tryCatch body catches (some cleanup) => by
    simp only [Stmt.onLine, Stmt.unlined, Stmt.unlinedAll_onLine n body,
      CatchClause.unlinedAll_onLine n catches, Stmt.unlinedAll_onLine n cleanup]

theorem Stmt.unlinedAll_onLine (n : Nat) :
    ∀ ss : List Stmt, Stmt.unlinedAll (Stmt.allOnLine n ss) = Stmt.unlinedAll ss
  | [] => rfl
  | s :: ss => by
    simp only [Stmt.allOnLine, Stmt.unlinedAll, s.unlined_onLine n, Stmt.unlinedAll_onLine n ss]

theorem SwitchGroup.unlinedAll_onLine (n : Nat) : ∀ groups : List SwitchGroup,
    SwitchGroup.unlinedAll (SwitchGroup.allOnLine n groups) = SwitchGroup.unlinedAll groups
  | [] => rfl
  | .mk labels body :: groups => by
    simp only [SwitchGroup.allOnLine, SwitchGroup.unlinedAll, Expr.unlined_onLine_labels n labels,
      Stmt.unlinedAll_onLine n body, SwitchGroup.unlinedAll_onLine n groups]

theorem CatchClause.unlinedAll_onLine (n : Nat) : ∀ clauses : List CatchClause,
    CatchClause.unlinedAll (CatchClause.allOnLine n clauses) = CatchClause.unlinedAll clauses
  | [] => rfl
  | .mk _ _ body :: clauses => by
    simp only [CatchClause.allOnLine, CatchClause.unlinedAll, Stmt.unlinedAll_onLine n body,
      CatchClause.unlinedAll_onLine n clauses]
    rfl

end

namespace Grammar

open Jminus.Parser (Joiner)

section Expressions

variable (n : Nat)

theorem Qualified.onLine {text text' : String} : ∀ {ts : List Token}, Qualified text ts text' →
    Qualified text (ts.map (Token.onLine n)) text' := by
  intro ts h
  induction h with
  | nil => exact .nil
  | cons hdot hname _ ih => exact .cons hdot hname ih

variable {ts : List Token} {name : Name}

theorem TypeName.onLine (h : TypeName ts name) :
    TypeName (ts.map (Token.onLine n)) (name.onLine n) := by
  cases h with
  | primitive h => exact .primitive h
  | named h hmore => exact .named h (hmore.onLine n)

theorem Target.onLine (h : Target ts name) : Target (ts.map (Token.onLine n)) (name.onLine n) := by
  induction h with
  | var h => exact .var h
  | group hl _ hr ih =>
    rw [List.map_append]
    exact .group hl ih hr

theorem join_onLine (j : Joiner) (line : Nat) (left right : Expr) :
    (j.join line left right).onLine n = j.join n (left.onLine n) (right.onLine n) := by
  cases j <;> rfl

mutual

/-- Moved tokens make the moved tree. No rule of the grammar asks for a line. -/
theorem Primary.onLine : ∀ {ts e}, Primary ts e → Primary (ts.map (Token.onLine n)) (e.onLine n)
  | _, _, .literal h => .literal h
  | _, _, .var h => .var h
  | _, _, .new ht hname hl hr => by
    rw [List.map_append]
    exact .new ht (hname.onLine n) hl hr
  | _, _, .call ht hl hargs hr => by
    rw [List.map_append]
    exact .call ht hl (Arguments.onLine hargs) hr
  | _, _, .group hl he hr => by
    rw [List.map_append]
    exact .group hl (Expression.onLine he) hr

theorem Arguments.onLine : ∀ {ts es}, Arguments ts es →
    Arguments (ts.map (Token.onLine n)) (Expr.allOnLine n es)
  | _, _, .none => .none
  | _, _, .some h => .some (Expressions.onLine h)

theorem Expressions.onLine : ∀ {ts es}, Expressions ts es →
    Expressions (ts.map (Token.onLine n)) (Expr.allOnLine n es)
  | _, _, .one h => .one (Expression.onLine h)
  | _, _, .more he hcomma hes => by
    rw [List.map_append]
    exact .more (Expression.onLine he) hcomma (Expressions.onLine hes)

theorem Postfix.onLine : ∀ {ts e}, Postfix ts e → Postfix (ts.map (Token.onLine n)) (e.onLine n)
  | _, _, .primary h => .primary (Primary.onLine h)
  | _, _, .increment htarget h => by
    rw [List.map_append]
    exact .increment (htarget.onLine n) h

theorem Unary.onLine : ∀ {ts e}, Unary ts e → Unary (ts.map (Token.onLine n)) (e.onLine n)
  | _, _, .operand h => .operand (Postfix.onLine h)
  | _, _, .increment h htarget => .increment h (htarget.onLine n)
  | _, _, .negative ht hu hform => .negative ht hu hform
  | _, _, .operator h he hminus => .operator h (Unary.onLine he) (by
      intro hk u hu
      rw [List.head?_map] at hu
      obtain ⟨v, hv, rfl⟩ := Option.map_eq_some_iff.1 hu
      exact hminus hk v hv)

theorem Chain.onLine : ∀ {m ts e}, Chain m ts e → Chain m (ts.map (Token.onLine n)) (e.onLine n)
  | _, _, _, .operand h => .operand (Unary.onLine h)
  | _, _, _, .up h => .up (Chain.onLine h)
  | _, _, _, .join hl hj hr => by
    rw [List.map_append, join_onLine]
    exact .join (Chain.onLine hl) hj (Chain.onLine hr)

theorem Conditional.onLine : ∀ {ts e}, Conditional ts e →
    Conditional (ts.map (Token.onLine n)) (e.onLine n)
  | _, _, .chain h => .chain (Chain.onLine h)
  | _, _, .choice hc hq ha hcolon hb => by
    simp only [List.map_append, List.map_cons]
    exact .choice (Chain.onLine hc) hq (Expression.onLine ha) hcolon (Conditional.onLine hb)

/-- Likewise for every expression. -/
theorem Expression.onLine : ∀ {ts e}, Expression ts e →
    Expression (ts.map (Token.onLine n)) (e.onLine n)
  | _, _, .conditional h => .conditional (Conditional.onLine h)
  | _, _, .assign htarget hop hvalue => by
    rw [List.map_append]
    exact .assign (htarget.onLine n) hop (Expression.onLine hvalue)

end

end Expressions

section Parts

variable (n : Nat) {ts : List Token}

theorem Parenthesized.onLine {e : Expr} (h : Parenthesized ts e) :
    Parenthesized (ts.map (Token.onLine n)) (e.onLine n) := by
  cases h with
  | mk hl he hr =>
    rw [List.map_append]
    exact .mk hl (he.onLine n) hr

theorem Maybe.onLine {part : Option Expr} (h : Maybe ts part) :
    Maybe (ts.map (Token.onLine n)) (part.map (Expr.onLine n)) := by
  cases h with
  | absent => exact .absent
  | present he => exact .present (he.onLine n)

theorem Initializer.onLine {init : Option Expr} (h : Initializer ts init) :
    Initializer (ts.map (Token.onLine n)) (init.map (Expr.onLine n)) := by
  cases h with
  | absent => exact .absent
  | present ht he => exact .present ht (he.onLine n)

variable {type : Name} {decls init : List Stmt}

/-- Every declarator is moved with its type. -/
theorem Declarators.onLine (h : Declarators type ts decls) :
    Declarators (type.onLine n) (ts.map (Token.onLine n)) (Stmt.allOnLine n decls) := by
  induction h with
  | one ht hinit => exact .one ht (hinit.onLine n)
  | more ht hinit hcomma _ ih =>
    rw [List.map_append]
    exact .more ht (hinit.onLine n) hcomma ih

theorem Declaration.onLine (h : Declaration ts decls) :
    Declaration (ts.map (Token.onLine n)) (Stmt.allOnLine n decls) := by
  cases h with
  | mk htype hdecls =>
    rw [List.map_append]
    exact .mk (htype.onLine n) (hdecls.onLine n)

theorem allOnLine_exprs (es : List Expr) :
    Stmt.allOnLine n (es.map .expr) = (Expr.allOnLine n es).map .expr := by
  induction es with
  | nil => rfl
  | cons e es ih =>
    simp only [List.map_cons, Stmt.allOnLine, Expr.allOnLine, ih]
    rfl

theorem ForInit.onLine (h : ForInit ts init) :
    ForInit (ts.map (Token.onLine n)) (Stmt.allOnLine n init) := by
  cases h with
  | none => exact .none
  | declaration h => exact .declaration (h.onLine n)
  | expressions h =>
    rw [allOnLine_exprs]
    exact .expressions (h.onLine n)

/-- The head of a for loop is moved part by part. -/
theorem ForHeader.onLine {cond : Option Expr} {update : List Expr}
    (h : ForHeader ts init cond update) :
    ForHeader (ts.map (Token.onLine n)) (Stmt.allOnLine n init) (cond.map (Expr.onLine n))
      (update.map (Expr.onLine n)) := by
  cases h with
  | mk hl hinit hs₁ hcond hs₂ hupdate hr =>
    simp only [List.map_append, List.map_cons, ← Expr.allOnLine_eq]
    exact .mk hl (hinit.onLine n) hs₁ (hcond.onLine n) hs₂ (hupdate.onLine n) hr

theorem CaseLabel.onLine {label : Option Expr} (h : CaseLabel ts label) :
    CaseLabel (ts.map (Token.onLine n)) (label.map (Expr.onLine n)) := by
  cases h with
  | default ht hcolon => exact .default ht hcolon
  | case ht he hcolon =>
    rw [List.map_append]
    exact .case ht (he.onLine n) hcolon

theorem CaseLabels.onLine {labels : List (Option Expr)} (h : CaseLabels ts labels) :
    CaseLabels (ts.map (Token.onLine n)) (labels.map (Option.map (Expr.onLine n))) := by
  induction h with
  | one h => exact .one (h.onLine n)
  | more h _ ih =>
    rw [List.map_append]
    exact .more (h.onLine n) ih

theorem CatchHeader.onLine {name : Name} (h : CatchHeader ts type name) :
    CatchHeader (ts.map (Token.onLine n)) (type.onLine n) (name.onLine n) := by
  cases h with
  | mk hl htype ht hr =>
    rw [List.map_append]
    exact .mk hl (htype.onLine n) ht hr

end Parts

end Grammar

end Jminus
