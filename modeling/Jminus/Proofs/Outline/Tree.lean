import Jminus.Proofs.Outline
import Jminus.Tree.Printer
import Mathlib

/-!
The outlines of syntax trees, of which the printed tree is the text, and trees without their lines.
-/
namespace Jminus

open Outline (text spaced behindSpaces behindSpaces_append)

mutual

def Expr.outline : Expr → Outline
  | .literal lit => .word lit.lexeme
  | .var name => .word name.text
  | .assign op _ target value => .node [.word op.image, .word target.text, value.outline]
  | .binary op _ left right => .node [.word op.image, left.outline, right.outline]
  | .logical op _ left right => .node [.word op.image, left.outline, right.outline]
  | .unary op _ operand => .node [.word op.image, operand.outline]
  | .increment op _ .before target => .node [.word op.image, .word target.text]
  | .increment op _ .after target => .node [.word target.text, .word op.image]
  | .conditional _ cond thenPart elsePart =>
    .node [.word "?", cond.outline, thenPart.outline, elsePart.outline]
  | .new className => .node [.word "new", .word className.text]
  | .call method args => .node (.word "call" :: .word method.text :: Expr.outlines args)
  | .group inner => .node [.word "group", inner.outline]

def Expr.outlines : List Expr → List Outline
  | [] => []
  | e :: es => e.outline :: Expr.outlines es

end

def Expr.labelOutline : Option Expr → Outline
  | some e => e.outline
  | none => .word "default"

mutual

def Stmt.outline : Stmt → Outline
  | .expr e => e.outline
  | .var type name init =>
    .node (.word "var" :: .word type.text :: .word name.text :: init.toList.map Expr.outline)
  | .block body => .node (.word "scope" :: Stmt.outlines body)
  | .ifElse _ cond thenBranch none => .node [.word "if", cond.outline, thenBranch.outline]
  | .ifElse _ cond thenBranch (some elseBranch) =>
    .node [.word "if", cond.outline, thenBranch.outline, elseBranch.outline]
  | .whileLoop _ cond body => .node [.word "while", cond.outline, body.outline]
  | .doLoop _ body cond => .node [.word "do", body.outline, cond.outline]
  | .forLoop _ init cond update body =>
    .node [.word "for", .node (.word "init" :: Stmt.outlines init),
      (cond.map Expr.outline).getD (.node []), .node (.word "update" :: Expr.outlines update),
      body.outline]
  | .switch _ subject groups =>
    .node (.word "switch" :: subject.outline :: SwitchGroup.outlines groups)
  | .brk _ => .node [.word "break"]
  | .cont _ => .node [.word "continue"]
  | .ret _ value => .node (.word "return" :: value.toList.map Expr.outline)
  | .throw _ value => .node [.word "throw", value.outline]
  | .tryCatch body catches none =>
    .node (.word "try" :: .node (.word "scope" :: Stmt.outlines body) ::
      CatchClause.outlines catches)
  | .tryCatch body catches (some cleanup) =>
    .node (.word "try" :: .node (.word "scope" :: Stmt.outlines body) ::
      (CatchClause.outlines catches ++
        [.node [.word "finally", .node (.word "scope" :: Stmt.outlines cleanup)]]))
  | .empty => .node []

def Stmt.outlines : List Stmt → List Outline
  | [] => []
  | s :: ss => s.outline :: Stmt.outlines ss

def SwitchGroup.outlines : List SwitchGroup → List Outline
  | [] => []
  | .mk labels body :: groups =>
    .node (.word "group" :: .node (labels.map Expr.labelOutline) :: Stmt.outlines body) ::
      SwitchGroup.outlines groups

def CatchClause.outlines : List CatchClause → List Outline
  | [] => []
  | .mk type name body :: clauses =>
    .node [.word "catch", .word type.text, .word name.text,
      .node (.word "scope" :: Stmt.outlines body)] :: CatchClause.outlines clauses

end

theorem Expr.outlines_eq (es : List Expr) : Expr.outlines es = es.map Expr.outline := by
  induction es with
  | nil => rfl
  | cons e es ih => rw [Expr.outlines, ih, List.map_cons]

theorem Stmt.outlines_eq (ss : List Stmt) : Stmt.outlines ss = ss.map Stmt.outline := by
  induction ss with
  | nil => rfl
  | cons s ss ih => rw [Stmt.outlines, ih, List.map_cons]

mutual

/-- An expression is printed as the text of its outline. -/
theorem Expr.toList_render : ∀ e : Expr, e.render.toList = e.outline.text
  | .literal _ | .var _ => rfl
  | .assign op _ target value => by
    simp [Expr.render, Expr.outline, text, spaced, behindSpaces, value.toList_render]
  | .binary op _ left right => by
    simp [Expr.render, Expr.outline, text, spaced, behindSpaces, left.toList_render,
      right.toList_render]
  | .logical op _ left right => by
    simp [Expr.render, Expr.outline, text, spaced, behindSpaces, left.toList_render,
      right.toList_render]
  | .unary op _ operand => by
    simp [Expr.render, Expr.outline, text, spaced, behindSpaces, operand.toList_render]
  | .increment op _ .before target => by
    simp [Expr.render, Expr.outline, text, spaced, behindSpaces]
  | .increment op _ .after target => by
    simp [Expr.render, Expr.outline, text, spaced, behindSpaces]
  | .conditional _ cond thenPart elsePart => by
    simp [Expr.render, Expr.outline, text, spaced, behindSpaces, cond.toList_render,
      thenPart.toList_render, elsePart.toList_render]
  | .new className => by simp [Expr.render, Expr.outline, text, spaced, behindSpaces]
  | .call method args => by
    simp [Expr.render, Expr.outline, text, spaced, behindSpaces, Expr.toList_renderAll args]
  | .group inner => by
    simp [Expr.render, Expr.outline, text, spaced, behindSpaces, inner.toList_render]

theorem Expr.toList_renderAll :
    ∀ es : List Expr, (Expr.renderAll es).toList = behindSpaces (Expr.outlines es)
  | [] => rfl
  | e :: es => by
    simp [Expr.renderAll, Expr.outlines, behindSpaces, e.toList_render, Expr.toList_renderAll es]

end

theorem Expr.toList_renderLabel (label : Option Expr) :
    (Expr.renderLabel label).toList = (Expr.labelOutline label).text := by
  cases label with
  | none => rfl
  | some e => exact e.toList_render

/-- What is printed with spaces between is outlines with spaces between. -/
theorem toList_intercalate {α : Type} {render : α → String} {outline : α → Outline}
    (h : ∀ a, (render a).toList = (outline a).text) (as : List α) :
    (" ".intercalate (as.map render)).toList = spaced (as.map outline) := by
  have hmore : ∀ (a : α) (as : List α), (" ".intercalate ((a :: as).map render)).toList =
      (outline a).text ++ behindSpaces (as.map outline) := by
    intro a as
    induction as generalizing a with
    | nil => simp [behindSpaces, h]
    | cons b bs ih =>
      have hbs := ih b
      rw [List.map_cons] at hbs
      rw [List.map_cons, List.map_cons, String.intercalate_cons_cons, String.toList_append,
        String.toList_append, hbs, h]
      simp [behindSpaces]
  cases as with
  | nil => rfl
  | cons a as => exact hmore a as

mutual

-- Through the equation of the whole definition: those of its cases take very long to make.
/-- A statement is printed as the text of its outline. -/
theorem Stmt.toList_render : ∀ s : Stmt, s.render.toList = s.outline.text
  | .expr e => e.toList_render
  | .var type name none => by
    rw [Stmt.render.eq_def]
    simp [Stmt.outline, text, spaced, behindSpaces]
  | .var type name (some init) => by
    rw [Stmt.render.eq_def]
    simp [Stmt.outline, text, spaced, behindSpaces, init.toList_render]
  | .block body => by
    rw [Stmt.render.eq_def]
    simp [Stmt.outline, text, spaced, Stmt.toList_renderAll body]
  | .ifElse _ cond thenBranch none => by
    rw [Stmt.render.eq_def]
    simp [Stmt.outline, text, spaced, behindSpaces, cond.toList_render,
      thenBranch.toList_render]
  | .ifElse _ cond thenBranch (some elseBranch) => by
    rw [Stmt.render.eq_def]
    simp [Stmt.outline, text, spaced, behindSpaces, cond.toList_render,
      thenBranch.toList_render, elseBranch.toList_render]
  | .whileLoop _ cond body => by
    rw [Stmt.render.eq_def]
    simp [Stmt.outline, text, spaced, behindSpaces, cond.toList_render,
      body.toList_render]
  | .doLoop _ body cond => by
    rw [Stmt.render.eq_def]
    simp [Stmt.outline, text, spaced, behindSpaces, cond.toList_render,
      body.toList_render]
  | .forLoop _ init none update body => by
    rw [Stmt.render.eq_def]
    simp [Stmt.outline, text, spaced, behindSpaces, Stmt.toList_renderAll init,
      Expr.toList_renderAll update, body.toList_render]
  | .forLoop _ init (some cond) update body => by
    rw [Stmt.render.eq_def]
    simp [Stmt.outline, text, spaced, behindSpaces, Stmt.toList_renderAll init,
      cond.toList_render, Expr.toList_renderAll update, body.toList_render]
  | .switch _ subject groups => by
    rw [Stmt.render.eq_def]
    simp [Stmt.outline, text, spaced, behindSpaces, subject.toList_render,
      SwitchGroup.toList_renderAll groups]
  | .brk _ | .cont _ | .empty => by
    rw [Stmt.render.eq_def]
    simp [Stmt.outline, text, spaced, behindSpaces]
  | .ret _ none => by
    rw [Stmt.render.eq_def]
    simp [Stmt.outline, text, spaced, behindSpaces]
  | .ret _ (some value) => by
    rw [Stmt.render.eq_def]
    simp [Stmt.outline, text, spaced, behindSpaces, value.toList_render]
  | .throw _ value => by
    rw [Stmt.render.eq_def]
    simp [Stmt.outline, text, spaced, behindSpaces, value.toList_render]
  | .tryCatch body catches none => by
    rw [Stmt.render.eq_def]
    simp [Stmt.outline, text, spaced, behindSpaces, Stmt.toList_renderAll body,
      CatchClause.toList_renderAll catches]
  | .tryCatch body catches (some cleanup) => by
    rw [Stmt.render.eq_def]
    simp [Stmt.outline, text, spaced, behindSpaces, behindSpaces_append,
      Stmt.toList_renderAll body, CatchClause.toList_renderAll catches,
      Stmt.toList_renderAll cleanup]

theorem Stmt.toList_renderAll :
    ∀ ss : List Stmt, (Stmt.renderAll ss).toList = behindSpaces (Stmt.outlines ss)
  | [] => rfl
  | s :: ss => by
    simp [Stmt.renderAll, Stmt.outlines, behindSpaces, s.toList_render, Stmt.toList_renderAll ss]

theorem SwitchGroup.toList_renderAll : ∀ groups : List SwitchGroup,
    (SwitchGroup.renderAll groups).toList = behindSpaces (SwitchGroup.outlines groups)
  | [] => rfl
  | .mk labels body :: groups => by
    simp [SwitchGroup.renderAll, SwitchGroup.outlines, text, spaced, behindSpaces,
      toList_intercalate Expr.toList_renderLabel labels, Stmt.toList_renderAll body,
      SwitchGroup.toList_renderAll groups]

theorem CatchClause.toList_renderAll : ∀ clauses : List CatchClause,
    (CatchClause.renderAll clauses).toList = behindSpaces (CatchClause.outlines clauses)
  | [] => rfl
  | .mk type name body :: clauses => by
    simp [CatchClause.renderAll, CatchClause.outlines, text, spaced, behindSpaces,
      Stmt.toList_renderAll body, CatchClause.toList_renderAll clauses]

end

/-- A printed program is the text of its outlines. -/
theorem Stmt.toList_renderProgram (program : List Stmt) :
    (Stmt.renderProgram program).toList = Outline.lines (program.map Stmt.outline) := by
  rw [Stmt.renderProgram, String.toList_join]
  simp [Outline.lines, List.flatMap_def, Function.comp_def, Stmt.toList_render]

def Name.unlined (name : Name) : Name := { name with line := 0 }

mutual

/-- The expression with every line forgotten. -/
def Expr.unlined : Expr → Expr
  | .literal lit => .literal { lit with line := 0 }
  | .var name => .var name.unlined
  | .assign op _ target value => .assign op 0 target.unlined value.unlined
  | .binary op _ left right => .binary op 0 left.unlined right.unlined
  | .logical op _ left right => .logical op 0 left.unlined right.unlined
  | .unary op _ operand => .unary op 0 operand.unlined
  | .increment op _ side target => .increment op 0 side target.unlined
  | .conditional _ cond thenPart elsePart =>
    .conditional 0 cond.unlined thenPart.unlined elsePart.unlined
  | .new className => .new className.unlined
  | .call method args => .call method.unlined (Expr.unlinedAll args)
  | .group inner => .group inner.unlined

def Expr.unlinedAll : List Expr → List Expr
  | [] => []
  | e :: es => e.unlined :: Expr.unlinedAll es

end

mutual

def Stmt.unlined : Stmt → Stmt
  | .expr e => .expr e.unlined
  | .var type name init => .var type.unlined name.unlined (init.map Expr.unlined)
  | .block body => .block (Stmt.unlinedAll body)
  | .ifElse _ cond thenBranch none => .ifElse 0 cond.unlined thenBranch.unlined none
  | .ifElse _ cond thenBranch (some elseBranch) =>
    .ifElse 0 cond.unlined thenBranch.unlined (some elseBranch.unlined)
  | .whileLoop _ cond body => .whileLoop 0 cond.unlined body.unlined
  | .doLoop _ body cond => .doLoop 0 body.unlined cond.unlined
  | .forLoop _ init cond update body =>
    .forLoop 0 (Stmt.unlinedAll init) (cond.map Expr.unlined) (update.map Expr.unlined) body.unlined
  | .switch _ subject groups => .switch 0 subject.unlined (SwitchGroup.unlinedAll groups)
  | .brk _ => .brk 0
  | .cont _ => .cont 0
  | .ret _ value => .ret 0 (value.map Expr.unlined)
  | .throw _ value => .throw 0 value.unlined
  | .tryCatch body catches none =>
    .tryCatch (Stmt.unlinedAll body) (CatchClause.unlinedAll catches) none
  | .tryCatch body catches (some cleanup) =>
    .tryCatch (Stmt.unlinedAll body) (CatchClause.unlinedAll catches)
      (some (Stmt.unlinedAll cleanup))
  | .empty => .empty

def Stmt.unlinedAll : List Stmt → List Stmt
  | [] => []
  | s :: ss => s.unlined :: Stmt.unlinedAll ss

def SwitchGroup.unlinedAll : List SwitchGroup → List SwitchGroup
  | [] => []
  | .mk labels body :: groups =>
    .mk (labels.map (·.map Expr.unlined)) (Stmt.unlinedAll body) :: SwitchGroup.unlinedAll groups

def CatchClause.unlinedAll : List CatchClause → List CatchClause
  | [] => []
  | .mk type name body :: clauses =>
    .mk type.unlined name.unlined (Stmt.unlinedAll body) :: CatchClause.unlinedAll clauses

end

theorem Expr.unlinedAll_eq (es : List Expr) : Expr.unlinedAll es = es.map Expr.unlined := by
  induction es with
  | nil => rfl
  | cons e es ih => rw [Expr.unlinedAll, ih, List.map_cons]

theorem Stmt.unlinedAll_eq (ss : List Stmt) : Stmt.unlinedAll ss = ss.map Stmt.unlined := by
  induction ss with
  | nil => rfl
  | cons s ss ih => rw [Stmt.unlinedAll, ih, List.map_cons]

mutual

theorem Expr.outline_unlined : ∀ e : Expr, e.unlined.outline = e.outline
  | .literal _ | .var _ | .increment _ _ .before _ | .increment _ _ .after _ | .new _ => rfl
  | .assign _ _ _ value => by simp [Expr.unlined, Expr.outline, Name.unlined, value.outline_unlined]
  | .binary _ _ left right => by
    simp [Expr.unlined, Expr.outline, left.outline_unlined, right.outline_unlined]
  | .logical _ _ left right => by
    simp [Expr.unlined, Expr.outline, left.outline_unlined, right.outline_unlined]
  | .unary _ _ operand => by simp [Expr.unlined, Expr.outline, operand.outline_unlined]
  | .conditional _ cond thenPart elsePart => by
    simp [Expr.unlined, Expr.outline, cond.outline_unlined, thenPart.outline_unlined,
      elsePart.outline_unlined]
  | .call _ args => by
    simp [Expr.unlined, Expr.outline, Name.unlined, Expr.outlines_unlinedAll args]
  | .group inner => by simp [Expr.unlined, Expr.outline, inner.outline_unlined]

theorem Expr.outlines_unlinedAll :
    ∀ es : List Expr, Expr.outlines (Expr.unlinedAll es) = Expr.outlines es
  | [] => rfl
  | e :: es => by
    simp [Expr.unlinedAll, Expr.outlines, e.outline_unlined, Expr.outlines_unlinedAll es]

end

theorem Expr.labelOutline_unlined (label : Option Expr) :
    Expr.labelOutline (label.map Expr.unlined) = Expr.labelOutline label := by
  cases label with
  | none => rfl
  | some e => exact e.outline_unlined

mutual

theorem Stmt.outline_unlined : ∀ s : Stmt, s.unlined.outline = s.outline
  | .expr e => e.outline_unlined
  | .var _ _ none | .brk _ | .cont _ | .ret _ none | .empty => rfl
  | .var _ _ (some init) => by
    simp [Stmt.unlined, Stmt.outline, Name.unlined, init.outline_unlined]
  | .block body => by simp [Stmt.unlined, Stmt.outline, Stmt.outlines_unlinedAll body]
  | .ifElse _ cond thenBranch none => by
    simp [Stmt.unlined, Stmt.outline, cond.outline_unlined, thenBranch.outline_unlined]
  | .ifElse _ cond thenBranch (some elseBranch) => by
    simp [Stmt.unlined, Stmt.outline, cond.outline_unlined, thenBranch.outline_unlined,
      elseBranch.outline_unlined]
  | .whileLoop _ cond body => by
    simp [Stmt.unlined, Stmt.outline, cond.outline_unlined, body.outline_unlined]
  | .doLoop _ body cond => by
    simp [Stmt.unlined, Stmt.outline, cond.outline_unlined, body.outline_unlined]
  | .forLoop _ init cond update body => by
    simp [Stmt.unlined, Stmt.outline, Stmt.outlines_unlinedAll init, Function.comp_def,
      Expr.outline_unlined, ← Expr.unlinedAll_eq, Expr.outlines_unlinedAll update,
      body.outline_unlined]
  | .switch _ subject groups => by
    simp [Stmt.unlined, Stmt.outline, subject.outline_unlined,
      SwitchGroup.outlines_unlinedAll groups]
  | .ret _ (some value) => by simp [Stmt.unlined, Stmt.outline, value.outline_unlined]
  | .throw _ value => by simp [Stmt.unlined, Stmt.outline, value.outline_unlined]
  | .tryCatch body catches none => by
    simp [Stmt.unlined, Stmt.outline, Stmt.outlines_unlinedAll body,
      CatchClause.outlines_unlinedAll catches]
  | .tryCatch body catches (some cleanup) => by
    simp [Stmt.unlined, Stmt.outline, Stmt.outlines_unlinedAll body,
      CatchClause.outlines_unlinedAll catches, Stmt.outlines_unlinedAll cleanup]

theorem Stmt.outlines_unlinedAll :
    ∀ ss : List Stmt, Stmt.outlines (Stmt.unlinedAll ss) = Stmt.outlines ss
  | [] => rfl
  | s :: ss => by
    simp [Stmt.unlinedAll, Stmt.outlines, s.outline_unlined, Stmt.outlines_unlinedAll ss]

theorem SwitchGroup.outlines_unlinedAll : ∀ groups : List SwitchGroup,
    SwitchGroup.outlines (SwitchGroup.unlinedAll groups) = SwitchGroup.outlines groups
  | [] => rfl
  | .mk labels body :: groups => by
    simp [SwitchGroup.unlinedAll, SwitchGroup.outlines, Function.comp_def,
      Expr.labelOutline_unlined, Stmt.outlines_unlinedAll body,
      SwitchGroup.outlines_unlinedAll groups]

theorem CatchClause.outlines_unlinedAll : ∀ clauses : List CatchClause,
    CatchClause.outlines (CatchClause.unlinedAll clauses) = CatchClause.outlines clauses
  | [] => rfl
  | .mk type name body :: clauses => by
    simp [CatchClause.unlinedAll, CatchClause.outlines, Name.unlined,
      Stmt.outlines_unlinedAll body, CatchClause.outlines_unlinedAll clauses]

end

end Jminus
