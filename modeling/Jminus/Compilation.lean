import Jminus.Checked.Analysis
import Jminus.Code.Stmt
import Jminus.Log
import Jminus.Machine
import Jminus.Token.Lexer
import Jminus.Tree.Parser
import Jminus.Tree.Printer

/-!
From source text to a run: the phases in order, each one only if those before it found no error.

`compile` answers with everything that is known about a text, whether or not it led to code, and
`Compilation.run` executes the code. Both also say what they would write to a log.
-/
namespace Jminus

structure Executable where
  listing : Listing
  slots : Nat

/-- Why there is no code, or why a run did not come to its end. -/
inductive Failure where
  /-- The source text has errors, which were reported. -/
  | rejected
  | stepLimit (steps : Nat)
  | uncaught (cls : Class) (pc : Nat)
  | broken (f : Fault)
  deriving DecidableEq, Repr

/-- The text of a failure in a file. A missing value has none. -/
def Failure.message? (file : String) : Failure → Option String
  | .rejected => some "compilation failed"
  | .stepLimit steps => some ("after " ++ toString steps ++ " instructions: step limit exceeded")
  | .uncaught cls _ => some ("uncaught exception " ++ cls.dotted)
  | .broken f => f.message?.map fun text => file ++ ": " ++ text

structure Compilation where
  file : String
  tokens : List Token
  stmts : List Stmt := []
  diagnostics : List Diagnostic
  log : List Log.Entry
  result : Except Failure Executable

def entry (file message : String) (fields : List (String × String) := []) : Log.Entry :=
  { message, fields := ("file", file) :: fields }

def Diagnostic.entry (file : String) (d : Diagnostic) : Log.Entry :=
  Jminus.entry file d.message [("phase", d.phase.name), ("line", toString d.line)]

/-- What a log says about a phase: its diagnostics, then a count. -/
def phaseLog (file : String) (ds : List Diagnostic) (message count : String) (n : Nat) :
    List Log.Entry :=
  ds.map (·.entry file) ++ [entry file message [(count, toString n)]]

def planEntry (file : String) (line : Nat) (p : Plan) : Log.Entry :=
  entry file "switch dispatch" (p.fields ++ [("line", toString line)])

namespace Compilation

def valid (c : Compilation) : Bool := Diagnostic.allValid c.diagnostics

def tree (c : Compilation) : String := Stmt.renderProgram c.stmts

/-- The code as text; none if there is no code. -/
def listing (c : Compilation) : String :=
  match c.result with
  | .ok exe => exe.listing.render
  | .error _ => ""

def slots (c : Compilation) : Nat :=
  match c.result with
  | .ok exe => exe.slots
  | .error _ => 0

def failure? (c : Compilation) : Option Failure :=
  match c.result with
  | .ok _ => none
  | .error f => some f

def reports (c : Compilation) (color : Bool) : List String :=
  Diagnostic.lines c.file color c.diagnostics

def report (c : Compilation) (color : Bool) : String := String.join (c.reports color)

/-- Ends a compilation with a fault of the compiler itself. -/
def aborted (c : Compilation) (f : Fault) : Compilation :=
  let error : Log.Entry :=
    { level := .error
      message := "internal compiler error"
      fields := [("file", c.file), ("error", f.reason?.getD "")] }
  { c with log := c.log ++ [error], result := .error (.broken f) }

/-- Adds a phase: what it reported and what it logged. -/
def after (c : Compilation) (ds : List Diagnostic) (log : List Log.Entry) : Compilation :=
  { c with diagnostics := c.diagnostics ++ ds, log := c.log ++ log }

/-- Makes code of a program that was found in order. -/
def generate (c : Compilation) (program : Checked.Program) : Compilation :=
  match Checked.generate program.stmts with
  | .error f => c.aborted f
  | .ok (code, listing) =>
    let done := entry c.file "generated" [("instructions", toString listing.code.size)]
    let plans := code.plans.map fun (line, p) => planEntry c.file line p
    { c with
      log := c.log ++ plans ++ [done]
      result := .ok { listing, slots := program.slots } }

/-- Analyzes statements that were read without an error, and goes on if there is none now. -/
def analyze (c : Compilation) : Compilation :=
  match Checked.check c.stmts with
  | .error f => c.aborted f
  | .ok program =>
    let c := c.after program.diagnostics
      (phaseLog c.file program.diagnostics "analyzed" "locals" program.slots)
    if c.valid then c.generate program else c

/-- Reads the statements of a text that was scanned without an error. -/
def parse (c : Compilation) : Compilation :=
  let (stmts, ds) := Parser.program c.tokens
  let c := { c with stmts }.after ds (phaseLog c.file ds "parsed" "statements" stmts.length)
  if c.valid then c.analyze else c

end Compilation

def compile (file source : String) : Compilation :=
  let scan := Lexer.scan source
  let c : Compilation :=
    { file
      tokens := scan.tokens
      diagnostics := scan.diagnostics
      log := phaseLog file scan.diagnostics "scan finished" "tokens" scan.tokens.length
      result := .error .rejected }
  if scan.failed then c else c.parse

structure Run where
  failure? : Option Failure
  /-- What the program printed, piece by piece. -/
  printed : List String
  log : List Log.Entry

def Run.output (r : Run) : String := String.join r.printed

/-- Why the run of a machine failed, if it did. -/
def Stop.failure? (s : Stop) (m : Machine) : Option Failure :=
  match s with
  | .finished => none
  | .stepLimit => some (.stepLimit m.steps)
  | .uncaught cls pc => some (.uncaught cls pc)
  | .fault f => some (.broken f)

def runLog (file : String) (s : Stop) (m : Machine) : List Log.Entry :=
  let caught := m.caught.toList.map fun (cls, label) =>
    entry file "caught" [("exception", cls.dotted), ("handler", label.render)]
  let done := if s = .finished then [entry file "executed" [("steps", toString m.steps)]] else []
  caught ++ done

/-- Runs code for up to `fuel` instructions, and answers only if that was enough. -/
def Executable.run (exe : Executable) (file : String) (limit fuel : Nat) : Option Run :=
  (Machine.run exe.listing limit fuel (.start exe.slots)).map fun (s, m) =>
    { failure? := s.failure? m, printed := m.printed, log := runLog file s m }

def Compilation.run (c : Compilation) (limit fuel : Nat) : Option Run :=
  match c.result with
  | .error _ => some { failure? := some .rejected, printed := [], log := [] }
  | .ok exe => exe.run c.file limit fuel

inductive Stream where
  | out | err
  deriving DecidableEq, Repr

/-- What came of compiling and running a source text, with everything printed on the way. -/
structure SourceRun where
  failure? : Option Failure
  printed : List (Stream × String)

def SourceRun.ok (r : SourceRun) : Bool := r.failure?.isNone

/-- The line that is printed for a failure; one without a text has none. -/
def Failure.line? (file : String) (color : Bool) (f : Failure) : Option String :=
  (f.message? file).map fun text => Diagnostic.tag color .error ++ ": " ++ text ++ "\n"

def Stream.all (s : Stream) (pieces : List String) : List (Stream × String) := pieces.map (s, ·)

/-- Compiles and runs a source text. Errors in the text are printed as diagnostics and not once
more as a failure. -/
def runSource (file source : String) (color : Bool) (limit fuel : Nat) : Option SourceRun :=
  let c := compile file source
  let reported := Stream.err.all (c.reports color)
  let failed (f? : Option Failure) := Stream.err.all (f?.bind (·.line? file color)).toList
  if !c.valid then some { failure? := some .rejected, printed := reported }
  else
    match c.failure? with
    | some f => some { failure? := some f, printed := reported ++ failed (some f) }
    | none =>
      (c.run limit fuel).map fun r =>
        { failure? := r.failure?
          printed := reported ++ Stream.out.all r.printed ++ failed r.failure? }

end Jminus
