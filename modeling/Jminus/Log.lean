import Jminus.Text.Lower
import Jminus.Text.Quoted

/-!
What the program notes about its own work: entries with a level, a message and fields.
-/
namespace Jminus.Log

/-- From the gravest to the slightest. -/
inductive Level where
  | panic | fatal | error | warning | info | debug | trace
  deriving DecidableEq, Repr

namespace Level

def name : Level → String
  | .panic => "panic"
  | .fatal => "fatal"
  | .error => "error"
  | .warning => "warning"
  | .info => "info"
  | .debug => "debug"
  | .trace => "trace"

def rank : Level → Nat
  | .panic => 0
  | .fatal => 1
  | .error => 2
  | .warning => 3
  | .info => 4
  | .debug => 5
  | .trace => 6

def all : List Level := [.panic, .fatal, .error, .warning, .info, .debug, .trace]

/-- The level of a name, in any case; a warning has a short name too. -/
def ofName? (text : String) : Option Level :=
  let name := Text.lower text
  if name = "warn" then some .warning else all.find? (·.name == name)

/-- Whether a log of this level keeps entries of that one. -/
def keeps (threshold level : Level) : Bool := level.rank ≤ threshold.rank

end Level

structure Entry where
  level : Level := .debug
  message : String
  fields : List (String × String) := []
  deriving DecidableEq, Repr

def isPlain (c : Char) : Bool := c.isAlphanum || "-._/@^+".toList.contains c

/-- A value, in quotes if it holds anything that is not plain. -/
def renderValue (text : String) : String :=
  if text.toList.all isPlain then text else Text.Quoted.quote text

def sortedFields (fields : List (String × String)) : List (String × String) :=
  fields.mergeSort fun a b => a.1 ≤ b.1

def Entry.render (e : Entry) : String :=
  "level=" ++ e.level.name ++ " msg=" ++ renderValue e.message ++
    String.join ((sortedFields e.fields).map fun f => " " ++ f.1 ++ "=" ++ renderValue f.2) ++ "\n"

/-- The lines of the entries that a log of a level keeps. -/
def render (threshold : Level) (entries : List Entry) : String :=
  String.join ((entries.filter (threshold.keeps ·.level)).map Entry.render)

end Jminus.Log
