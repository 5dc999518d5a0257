import Jminus.Text.Blank
import Jminus.Text.Lower
import Jminus.Text.Quoted
import Jminus.Text.Utf8

/-!
Declarations of the nodes of a tree, written out as source text.

A family of nodes has a base name and one declaration for each kind of node. From it follow an
interface for all nodes, an interface with one method for each kind, and for each kind a record and
the method that picks the right one.
-/
namespace Jminus

inductive FieldLayout where
  /-- Each as it is. -/
  | plain
  /-- With the types below one another. -/
  | aligned
  deriving DecidableEq, Repr

/-- A kind of node: its name and its fields, each a name and a type. -/
structure NodeDecl where
  name : String
  fields : List String
  deriving DecidableEq, Repr

structure NodeFamily where
  base : String
  /-- Methods that every node has besides the common one. -/
  extra : List String
  nodes : List NodeDecl
  deriving DecidableEq, Repr

namespace NodeDecl

/-- The name without its capital. The first byte counts as a character of its own; without one
there is no name. -/
def small? (name : String) : Option String :=
  match name.toUTF8.toList with
  | [] => none
  | first :: rest =>
    some (Text.lower (Char.ofNat first.toNat).toString ++ Text.Utf8.text rest)

def splitFields (text : String) : List String := (Text.split ',' text).map Text.trim

/-- A declaration from a name, a colon and fields. A second colon ends the fields. -/
def ofText? (text : String) : Option NodeDecl :=
  match Text.split ':' text with
  | name :: fields :: _ => some { name := Text.trim name, fields := splitFields (Text.trim fields) }
  | _ => none

/-- A field and what stands before its first blank. -/
def fieldName (field : String) : List Char := field.toList.takeWhile (· != ' ')

/-- A field with its type `width` characters from its start. -/
def alignField (width : Nat) (field : String) : String :=
  let name := fieldName field
  let type := (field.toList.drop name.length).dropWhile (· == ' ')
  String.ofList (name ++ List.replicate (width - name.length) ' ' ++ type)

def layOut (layout : FieldLayout) (fields : List String) : List String :=
  match layout with
  | .plain => fields
  | .aligned =>
    let width := fields.foldl (fun w f => max w ((fieldName f).length + 1)) 0
    fields.map (alignField width)

/-- The record of a kind of node and its method. `embedded` is a record inside it, if not empty. -/
def render? (layout : FieldLayout) (base embedded : String) (d : NodeDecl) : Option String := do
  let record := (← small? d.name) ++ base
  let visitor := Text.lower base ++ "Visitor"
  return "type " ++ record ++ " struct \x7b\n" ++
    (if embedded = "" then "" else "\t" ++ embedded ++ "\n") ++
    String.join ((layOut layout d.fields).map fun f => "\t" ++ f ++ "\n") ++
    "\x7d\n\n" ++
    "func (s *" ++ record ++ ") accept(visitor " ++ visitor ++ ") R \x7b\n" ++
    "\treturn visitor.visit" ++ d.name ++ base ++ "(s)\n" ++
    "\x7d\n\n"

end NodeDecl

namespace NodeFamily

def ofTexts? (base : String) (extra types : List String) : Option NodeFamily := do
  return { base, extra, nodes := ← types.mapM NodeDecl.ofText? }

/-- Nodes with methods of their own all have one record inside them. -/
def embedded (f : NodeFamily) : String := if f.extra.isEmpty then "" else "typed"

/-- The method that a visitor has for a kind of node. -/
def visit? (f : NodeFamily) (d : NodeDecl) : Option String := do
  let record := (← NodeDecl.small? d.name) ++ f.base
  return "\tvisit" ++ d.name ++ f.base ++ "(" ++ Text.lower f.base ++ " *" ++ record ++ ") R\n"

/-- The declarations of a family; there are none if a node has no name. -/
def render? (layout : FieldLayout) (f : NodeFamily) : Option String := do
  let small := Text.lower f.base
  let visits ← f.nodes.mapM f.visit?
  let records ← f.nodes.mapM (·.render? layout f.base f.embedded)
  return "package internal\n\n" ++
    "type " ++ small ++ " interface \x7b\n" ++
    "\taccept(" ++ small ++ "Visitor) R\n" ++
    String.join (f.extra.map fun m => "\t" ++ m ++ "\n") ++
    "\x7d\n\n" ++
    "type " ++ small ++ "Visitor interface \x7b\n" ++
    String.join visits ++
    "\x7d\n\n" ++
    String.join records

def stmt : NodeFamily :=
  { base := "Stmt"
    extra := []
    nodes :=
      [{ name := "Expr", fields := ["last *token", "expression expr"] },
       { name := "Var"
         fields := ["typeName *token", "name *token", "initializer expr", "local *localVar"] },
       { name := "Block", fields := ["brace *token", "stmts []stmt"] },
       { name := "If"
         fields := ["keyword *token", "condition expr", "thenBranch stmt", "elseBranch stmt"] },
       { name := "While"
         fields := ["keyword *token", "condition expr", "body stmt", "flow *flow"] },
       { name := "Do"
         fields := ["keyword *token", "body stmt", "condition expr", "flow *flow"] },
       { name := "For"
         fields := ["keyword *token", "init []stmt", "condition expr", "update []stmt",
           "body stmt", "flow *flow"] },
       { name := "Switch"
         fields := ["keyword *token", "condition expr", "groups []*switchGroup", "flow *flow"] },
       { name := "Break", fields := ["keyword *token", "target *flow"] },
       { name := "Continue", fields := ["keyword *token", "target *flow"] },
       { name := "Return", fields := ["keyword *token", "value expr"] },
       { name := "Throw", fields := ["keyword *token", "value expr"] },
       { name := "Try"
         fields := ["keyword *token", "tryBlock *blockStmt", "catches []*catchClause",
           "finallyBlock *blockStmt", "finallySlot int"] },
       { name := "Empty", fields := ["semi *token"] }] }

def expr : NodeFamily :=
  { base := "Expr"
    extra := ["exprType() *Type"]
    nodes :=
      [{ name := "Literal", fields := ["token *token", "value interface\x7b\x7d"] },
       { name := "Variable", fields := ["name *token", "local *localVar"] },
       { name := "Assign"
         fields := ["operator *token", "target *variableExpr", "value expr"] },
       { name := "Binary"
         fields := ["left expr", "operator *token", "right expr", "operandType *Type"] },
       { name := "Logical", fields := ["left expr", "operator *token", "right expr"] },
       { name := "Unary", fields := ["operator *token", "right expr"] },
       { name := "Increment"
         fields := ["operator *token", "target *variableExpr", "prefix bool"] },
       { name := "Conditional"
         fields := ["question *token", "condition expr", "thenPart expr", "elsePart expr"] },
       { name := "New", fields := ["keyword *token", "className *token"] },
       { name := "Call", fields := ["name *token", "arguments []expr", "method *methodRef"] },
       { name := "Grouping", fields := ["expression expr"] }] }

/-- A family as a file of its own, which ends with one newline. -/
def file (f : NodeFamily) : String :=
  let text := (f.render? .aligned).getD ""
  String.ofList (text.toList.dropLast)

inductive Refusal where
  | count
  | unknownKind (text : String)
  deriving DecidableEq, Repr

def Refusal.message : Refusal → String
  | .count => "Usage: ast Stmt|Expr"
  | .unknownKind text => "unknown node kind " ++ Text.Quoted.quote text

/-- The file that arguments ask for. -/
def ofArgs (args : List String) : Except Refusal String :=
  match args with
  | [kind] =>
    if kind = "Stmt" then .ok stmt.file
    else if kind = "Expr" then .ok expr.file
    else .error (.unknownKind kind)
  | _ => .error .count

end NodeFamily

end Jminus
