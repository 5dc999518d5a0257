import Jminus.Log

/-!
Settings of a compilation, and which of them make sense.
-/
namespace Jminus

structure Options where
  /-- How many instructions a run may take; zero means any number. -/
  maxSteps : Int := 10000000
  noColor : Bool := false
  /-- The name of a level; the empty text leaves the level of the log as it is. -/
  logLevel : String := "info"
  deriving DecidableEq, Repr

namespace Options

inductive Refusal where
  | negativeSteps (n : Int)
  | unknownLevel (text : String)
  deriving DecidableEq, Repr

def Refusal.message : Refusal → String
  | .negativeSteps n => "max steps must not be negative, got " ++ toString n
  | .unknownLevel text =>
    let quoted := Text.Quoted.quote text
    "invalid log level " ++ quoted ++ ": not a valid logrus Level: " ++ quoted

/-- Checks the options. The answer is the level of the log, which was `current` so far. -/
def validate (o : Options) (current : Log.Level) : Except Refusal Log.Level :=
  if o.maxSteps < 0 then .error (.negativeSteps o.maxSteps)
  else if o.logLevel = "" then .ok current
  else
    match Log.Level.ofName? o.logLevel with
    | some level => .ok level
    | none => .error (.unknownLevel o.logLevel)

/-- The step limit of a machine; zero is none. -/
def limit (o : Options) : Nat := o.maxSteps.toNat

end Options

end Jminus
