import Jminus.CommandLine.Flags
import Jminus.CommandLine.Folder
import Jminus.Compilation

/-!
Compiling files one after the other.

What a file prints is kept together, diagnostics and program output in their order, and goes to
the standard output. The first file that fails decides the exit code.
-/
namespace Jminus.CommandLine

/-- Where output goes and what of the log is kept. -/
structure Setting where
  flags : Flags
  level : Log.Level
  color : Bool

structure FileReport where
  out : String := ""
  log : List Log.Entry := []
  failure? : Option String := none

def Failure.inFile (file : String) (f : Failure) : String :=
  file ++ ": " ++ (f.message? file).getD ""

namespace Setting

def tokensText (s : Setting) (c : Compilation) : String :=
  if s.flags.tokens then String.join (c.tokens.map fun t => t.render ++ "\n") else ""

def treeText (s : Setting) (c : Compilation) : String := if s.flags.ast then c.tree else ""

def listingText (s : Setting) (c : Compilation) : String :=
  if s.flags.listing then c.listing else ""

/-- Compiles a source text and runs it if that is wanted. -/
def compileFile (s : Setting) (file source : String) (fuel : Nat) : Option FileReport :=
  let c := compile file source
  let shown := s.tokensText c ++ s.treeText c ++ c.report s.color
  match c.failure? with
  | some f => some { out := shown, log := c.log, failure? := some (Failure.inFile file f) }
  | none =>
    let shown := shown ++ s.listingText c
    if s.flags.run then
      (c.run s.flags.options.limit fuel).map fun r =>
        { out := shown ++ r.output
          log := c.log ++ r.log
          failure? := r.failure?.map (Failure.inFile file) }
    else some { out := shown, log := c.log }

def report (s : Setting) (file : String) (source : Except ReadFailure String) (fuel : Nat) :
    Option FileReport :=
  match source with
  | .ok source => s.compileFile file source fuel
  | .error f => some { failure? := some (f.message file) }

end Setting

/-- Everything that a program leaves behind. -/
structure Result where
  exit : UInt32
  out : String
  err : String
  deriving DecidableEq, Repr

/-- What files printed and logged, and a line for the first one that failed. -/
def summary (s : Setting) (reports : List FileReport) : Result :=
  let logged := Log.render s.level (reports.flatMap (·.log))
  let out := String.join (reports.map (·.out))
  match reports.findSome? (·.failure?) with
  | none => { exit := 0, out, err := logged }
  | some message =>
    { exit := 1, out, err := logged ++ Log.render s.level [{ level := .error, message }] }

def batch (s : Setting) (files : List (String × Except ReadFailure String)) (fuel : Nat) :
    Option Result := do
  let reports ← files.mapM fun (name, source) => s.report name source fuel
  return summary s reports

end Jminus.CommandLine
