/-!
What the compiler tells its user about a source text.

A problem is a cause and the details added on the way up; a diagnostic places a problem on a line,
in a phase and at a severity. Wording lives here only: the phases name causes and never text.
-/
namespace Jminus

/-- The part of compilation that noticed a problem. -/
inductive Phase where
  | lexical | syntactic | semantic
  deriving DecidableEq, Repr

namespace Phase

def name : Phase → String
  | .lexical => "lexical"
  | .syntactic => "syntax"
  | .semantic => "semantic"

def all : List Phase := [.lexical, .syntactic, .semantic]

def ofName? (text : String) : Option Phase := all.find? (·.name == text)

end Phase

inductive Severity where
  | error | warning
  deriving DecidableEq, Repr

def Severity.name : Severity → String
  | .error => "error"
  | .warning => "warning"

/-- Every reason for a diagnostic. `stated` is a reason worded by whoever reports it. -/
inductive Cause where
  -- characters
  | illegalChar | unclosedString | unclosedStringAtEnd | unclosedChar | badEscape
  | malformedNumber | unclosedComment
  -- tokens
  | unexpectedToken | expectedExpression | expectedName | expectedType | expectedSemicolon
  | unclosedParen | expectedParen | expectedBrace | unclosedBrace | expectedColon
  | expectedWhile | expectedHandler | invalidTarget | unsupported
  -- names and types
  | typeMismatch | undefinedVariable | redeclaredVariable | unknownType | breakOutside
  | continueOutside | caseNotLiteral | duplicateCase | duplicateDefault | notThrowable
  | notClass | intRange | operandType | unknownMethod | arity
  | stated (text : String)
  deriving DecidableEq, Repr

def Cause.text : Cause → String
  | .illegalChar => "Unidentified input token"
  | .unclosedString => "Unexpected end of line found in string"
  | .unclosedStringAtEnd => "Unexpected end of file found in string"
  | .unclosedChar => "Closing ' was expected"
  | .badEscape => "Badly formed escape"
  | .malformedNumber => "Malformed numeric literal"
  | .unclosedComment => "Unterminated block comment"
  | .unexpectedToken => "Unexpected token"
  | .expectedExpression => "Expected expression"
  | .expectedName => "Expected variable name"
  | .expectedType => "Expected type name"
  | .expectedSemicolon => "Expected ';'"
  | .unclosedParen => "Expected ')'"
  | .expectedParen => "Expected '('"
  | .expectedBrace => "Expected '\x7b'"
  | .unclosedBrace => "Expected '\x7d'"
  | .expectedColon => "Expected ':' after case label"
  | .expectedWhile => "Expected 'while' after do body"
  | .expectedHandler => "Expected 'catch' or 'finally' after try block"
  | .invalidTarget => "Invalid assignment target"
  | .unsupported => "Unsupported construct"
  | .typeMismatch => "Type mismatch"
  | .undefinedVariable => "Undefined variable"
  | .redeclaredVariable => "Variable already declared in this scope"
  | .unknownType => "Unknown type"
  | .breakOutside => "break outside breakable context"
  | .continueOutside => "continue outside continuable context"
  | .caseNotLiteral => "Switch labels must be int literals"
  | .duplicateCase => "Duplicate case label"
  | .duplicateDefault => "Duplicate default label"
  | .notThrowable => "Catch parameter must be a Throwable"
  | .notClass => "Only classes can be instantiated"
  | .intRange => "Integer literal out of range"
  | .operandType => "Invalid operand type"
  | .unknownMethod => "Unknown method"
  | .arity => "Wrong number of arguments"
  | .stated text => text

/-- A cause with its details, outermost last. -/
structure Problem where
  cause : Cause
  details : List String := []
  deriving DecidableEq, Repr

namespace Problem

def within (p : Problem) (detail : String) : Problem :=
  { p with details := p.details ++ [detail] }

def message (p : Problem) : String :=
  p.details.foldl (fun text detail => text ++ ": " ++ detail) p.cause.text

/-- The message before the last detail was added; a bare cause has none. -/
def inner? (p : Problem) : Option String :=
  if p.details.isEmpty then none
  else some { p with details := p.details.dropLast }.message

end Problem

/-- A problem of one cause and one detail. -/
def Cause.on (cause : Cause) (detail : String) : Problem := { cause, details := [detail] }

structure Diagnostic where
  phase : Phase
  severity : Severity
  problem : Problem
  line : Int
  deriving DecidableEq, Repr

namespace Diagnostic

def message (d : Diagnostic) : String := d.problem.message

def isError (d : Diagnostic) : Bool := d.severity = .error

/-- The word for the severity, red or yellow on a terminal that shows colours. -/
def tag (color : Bool) : Severity → String
  | .error => if color then "\x1b[31merror\x1b[0m" else "error"
  | .warning => if color then "\x1b[33mwarning\x1b[0m" else "warning"

def render (file : String) (color : Bool) (d : Diagnostic) : String :=
  file ++ ":" ++ toString d.line ++ ": " ++ tag color d.severity ++ ": " ++ d.message

/-- No error has been reported; warnings do not count. -/
def allValid (ds : List Diagnostic) : Bool := ds.all (!·.isError)

def errorCount (ds : List Diagnostic) : Nat := ds.countP (·.isError)

def anyErrorIn (phase : Phase) (ds : List Diagnostic) : Bool :=
  ds.any fun d => d.isError && d.phase = phase

def lines (file : String) (color : Bool) (ds : List Diagnostic) : List String :=
  ds.map fun d => d.render file color ++ "\n"

end Diagnostic

end Jminus
