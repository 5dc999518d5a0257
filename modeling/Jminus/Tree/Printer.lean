import Jminus.Tree

/-!
Trees as text: one line for each top level statement, in prefix form with every node in
parentheses of its own.
-/
namespace Jminus

mutual

def Expr.render : Expr → String
  | .literal lit => lit.lexeme
  | .var name => name.text
  | .assign op _ target value => "(" ++ op.image ++ " " ++ target.text ++ " " ++ value.render ++ ")"
  | .binary op _ left right => "(" ++ op.image ++ " " ++ left.render ++ " " ++ right.render ++ ")"
  | .logical op _ left right => "(" ++ op.image ++ " " ++ left.render ++ " " ++ right.render ++ ")"
  | .unary op _ operand => "(" ++ op.image ++ " " ++ operand.render ++ ")"
  | .increment op _ .before target => "(" ++ op.image ++ " " ++ target.text ++ ")"
  | .increment op _ .after target => "(" ++ target.text ++ " " ++ op.image ++ ")"
  | .conditional _ cond thenPart elsePart =>
    "(? " ++ cond.render ++ " " ++ thenPart.render ++ " " ++ elsePart.render ++ ")"
  | .new className => "(new " ++ className.text ++ ")"
  | .call method args => "(call " ++ method.text ++ Expr.renderAll args ++ ")"
  | .group inner => "(group " ++ inner.render ++ ")"

/-- Each expression behind a space. -/
def Expr.renderAll : List Expr → String
  | [] => ""
  | e :: es => " " ++ e.render ++ Expr.renderAll es

end

def Expr.renderLabel : Option Expr → String
  | some e => e.render
  | none => "default"

mutual

def Stmt.render : Stmt → String
  | .expr e => e.render
  | .var type name none => "(var " ++ type.text ++ " " ++ name.text ++ ")"
  | .var type name (some init) =>
    "(var " ++ type.text ++ " " ++ name.text ++ " " ++ init.render ++ ")"
  | .block body => "(scope" ++ Stmt.renderAll body ++ ")"
  | .ifElse _ cond thenBranch none => "(if " ++ cond.render ++ " " ++ thenBranch.render ++ ")"
  | .ifElse _ cond thenBranch (some elseBranch) =>
    "(if " ++ cond.render ++ " " ++ thenBranch.render ++ " " ++ elseBranch.render ++ ")"
  | .whileLoop _ cond body => "(while " ++ cond.render ++ " " ++ body.render ++ ")"
  | .doLoop _ body cond => "(do " ++ body.render ++ " " ++ cond.render ++ ")"
  | .forLoop _ init cond update body =>
    "(for (init" ++ Stmt.renderAll init ++ ") " ++ (cond.map Expr.render).getD "()" ++
      " (update" ++ Expr.renderAll update ++ ") " ++ body.render ++ ")"
  | .switch _ subject groups =>
    "(switch " ++ subject.render ++ SwitchGroup.renderAll groups ++ ")"
  | .brk _ => "(break)"
  | .cont _ => "(continue)"
  | .ret _ none => "(return)"
  | .ret _ (some value) => "(return " ++ value.render ++ ")"
  | .throw _ value => "(throw " ++ value.render ++ ")"
  | .tryCatch body catches none =>
    "(try (scope" ++ Stmt.renderAll body ++ ")" ++ CatchClause.renderAll catches ++ ")"
  | .tryCatch body catches (some cleanup) =>
    "(try (scope" ++ Stmt.renderAll body ++ ")" ++ CatchClause.renderAll catches ++
      " (finally (scope" ++ Stmt.renderAll cleanup ++ ")))"
  | .empty => "()"

def Stmt.renderAll : List Stmt → String
  | [] => ""
  | s :: ss => " " ++ s.render ++ Stmt.renderAll ss

def SwitchGroup.renderAll : List SwitchGroup → String
  | [] => ""
  | .mk labels body :: groups =>
    " (group (" ++ " ".intercalate (labels.map Expr.renderLabel) ++ ")" ++ Stmt.renderAll body ++
      ")" ++ SwitchGroup.renderAll groups

def CatchClause.renderAll : List CatchClause → String
  | [] => ""
  | .mk type name body :: clauses =>
    " (catch " ++ type.text ++ " " ++ name.text ++ " (scope" ++ Stmt.renderAll body ++ "))" ++
      CatchClause.renderAll clauses

end

/-- A whole program, one top level statement a line. -/
def Stmt.renderProgram (program : List Stmt) : String :=
  String.join (program.map fun s => s.render ++ "\n")

end Jminus
