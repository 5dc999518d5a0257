import Jminus.Options
import Jminus.Text.Directive
import Jminus.Text.Numeral
import Jminus.Text.Utf8

/-!
Flags on the command line.

A flag is written `--name` or `--name=value`; one that is not a switch takes the next argument if
it has no value of its own. Flags and file names may be mixed, and `--` ends the flags.
-/
namespace Jminus.CommandLine

inductive Flag where
  | tokens | ast | listing | run | maxSteps | logLevel | noColor | repl
  deriving DecidableEq, Repr

namespace Flag

def all : List Flag := [.tokens, .ast, .listing, .run, .maxSteps, .logLevel, .noColor, .repl]

def name : Flag → String
  | .tokens => "tokens"
  | .ast => "ast"
  | .listing => "listing"
  | .run => "run"
  | .maxSteps => "max-steps"
  | .logLevel => "log-level"
  | .noColor => "no-color"
  | .repl => "repl"

def ofName? (text : String) : Option Flag := all.find? (·.name == text)

def isSwitch : Flag → Bool
  | .maxSteps | .logLevel => false
  | _ => true

end Flag

structure Flags where
  tokens : Bool := false
  ast : Bool := false
  listing : Bool := false
  run : Bool := true
  maxSteps : Int := 10000000
  logLevel : String := "warning"
  noColor : Bool := false
  repl : Bool := false
  deriving DecidableEq, Repr

inductive Refusal where
  | help
  | badSyntax (arg : String)
  | unknownFlag (name : String)
  | needsValue (arg : String)
  /-- There are no flags of one letter but the one that asks for help. -/
  | unknownLetter (first : UInt8) (letters : String)
  | badValue (flag : Flag) (value : String) (reason : Text.Numeral.Refusal)
  deriving DecidableEq, Repr

namespace Refusal

def reasonText (flag : Flag) (value : String) (reason : Text.Numeral.Refusal) : String :=
  "strconv." ++ (if flag.isSwitch then "ParseBool" else "ParseInt") ++ ": parsing " ++
    Text.Quoted.quote value ++ ": " ++
    match reason with
    | .malformed => "invalid syntax"
    | .outOfRange => "value out of range"

def message : Refusal → String
  | .help => "pflag: help requested"
  | .badSyntax arg => "bad flag syntax: " ++ arg
  | .unknownFlag name => "unknown flag: --" ++ name
  | .needsValue arg => "flag needs an argument: " ++ arg
  | .unknownLetter first letters =>
    "unknown shorthand flag: " ++ Text.Quoted.quoteChar (Char.ofNat first.toNat) ++ " in -" ++
      letters
  | .badValue flag value reason =>
    "invalid argument " ++ Text.Quoted.quote value ++ " for " ++
      Text.Quoted.quote ("--" ++ flag.name) ++ " flag: " ++ reasonText flag value reason

/-- The line before the usage text, if there is one. A bad value has been through a format. -/
def notice : Refusal → String
  | .help => ""
  | .badValue flag value reason =>
    Text.Directive.unfilled (Refusal.badValue flag value reason).message ++ "\n"
  | r => r.message ++ "\n"

end Refusal

def usage : String :=
  "Usage: jmm [options] file...\n" ++
  "    Available options:\n" ++
  "      --ast                print the syntax tree of each file\n" ++
  "      --listing            print the generated code of each file\n" ++
  "      --log-level string   log level (\"debug\", \"info\", \"warn\", \"error\") " ++
  "(default \"warning\")\n" ++
  "      --max-steps int      stop a run after this many instructions (0 for no limit) " ++
  "(default 10000000)\n" ++
  "      --no-color           do not color diagnostics\n" ++
  "      --repl               read statements interactively\n" ++
  "      --run                run each file after compiling it (default true)\n" ++
  "      --tokens             print the tokens of each file\n"

/-- A truth value in one of its spellings. -/
def readBool (text : String) : Except Text.Numeral.Refusal Bool :=
  if ["1", "t", "T", "TRUE", "true", "True"].contains text then .ok true
  else if ["0", "f", "F", "FALSE", "false", "False"].contains text then .ok false
  else .error .malformed

namespace Flags

def setSwitch (flags : Flags) (flag : Flag) (on : Bool) : Flags :=
  match flag with
  | .tokens => { flags with tokens := on }
  | .ast => { flags with ast := on }
  | .listing => { flags with listing := on }
  | .run => { flags with run := on }
  | .noColor => { flags with noColor := on }
  | .repl => { flags with repl := on }
  | .maxSteps | .logLevel => flags

def set (flags : Flags) (flag : Flag) (value : String) : Except Refusal Flags :=
  match flag with
  | .logLevel => .ok { flags with logLevel := value }
  | .maxSteps =>
    match Text.Numeral.read value with
    | .ok n => .ok { flags with maxSteps := n }
    | .error reason => .error (.badValue flag value reason)
  | flag =>
    match readBool value with
    | .ok on => .ok (flags.setSwitch flag on)
    | .error reason => .error (.badValue flag value reason)

/-- One argument, as it is told apart by its first characters. -/
inductive Argument where
  | file (name : String)
  | endOfFlags
  | flag (flag : Flag) (value : Option String)
  /-- Passed over. -/
  | ignored
  deriving DecidableEq, Repr

def letters (text : String) : Except Refusal Argument :=
  if text.startsWith "test." then .ok .ignored
  else
    match text.toUTF8.toList with
    | first :: _ => if first = 104 then .error .help else .error (.unknownLetter first text)
    | [] => .ok .ignored

def named (arg : String) (name : List Char) : Except Refusal Argument :=
  if name.head? = some '-' || name.head? = some '=' then .error (.badSyntax arg)
  else
    let word := String.ofList (name.takeWhile (· != '='))
    let value :=
      match name.dropWhile (· != '=') with
      | [] => none
      | _ :: cs => some (String.ofList cs)
    match Flag.ofName? word with
    | some flag => .ok (.flag flag value)
    | none => if word = "help" then .error .help else .error (.unknownFlag word)

def classify (arg : String) : Except Refusal Argument :=
  match arg.toList with
  | ['-', '-'] => .ok .endOfFlags
  | '-' :: '-' :: name => named arg name
  | '-' :: c :: cs => letters (String.ofList (c :: cs))
  | _ => .ok (.file arg)

/-- Reads arguments from left to right. The answer is the flags and the names of the files. -/
def read (flags : Flags) : List String → Except Refusal (Flags × List String)
  | [] => .ok (flags, [])
  | arg :: rest => do
    match ← classify arg with
    | .file name =>
      let (flags, files) ← read flags rest
      return (flags, name :: files)
    | .endOfFlags => return (flags, rest)
    | .ignored => read flags rest
    | .flag flag (some value) => read (← flags.set flag value) rest
    | .flag flag none =>
      if flag.isSwitch then read (← flags.set flag "true") rest
      else
        match rest with
        | value :: rest => read (← flags.set flag value) rest
        | [] => throw (.needsValue arg)

def options (flags : Flags) : Options :=
  { maxSteps := flags.maxSteps, noColor := flags.noColor, logLevel := flags.logLevel }

end Flags

end Jminus.CommandLine
