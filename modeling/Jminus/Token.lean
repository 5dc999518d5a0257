/-!
Tokens of the language.

Every kind has a number, its place in `Kind.all` counted from minus one, and an image: the one
source text of the kind, or a word in angle brackets where the text varies.
-/
namespace Jminus

inductive Kind where
  | eof
  -- separators
  | comma | colon | dot | leftBrack | leftCurly | leftParen | rightBrack | rightCurly
  | rightParen | semi
  -- operators
  | assign | equal | lnot | notEqual | bitNot | question
  | plus | plusAssign | inc | minus | minusAssign | dec
  | star | starAssign | div | divAssign | rem | remAssign
  | gt | ge | arshift | arshiftAssign | lrshift | lrshiftAssign
  | lt | le | alshift | alshiftAssign
  | and | andAssign | land | or | orAssign | lor | xor | xorAssign
  -- texts that vary
  | identifier | intLiteral | longLiteral | doubleLiteral | charLiteral | stringLiteral
  -- reserved words
  | kwAbstract | kwBoolean | kwBreak | kwCase | kwCatch | kwChar | kwClass | kwContinue
  | kwDefault | kwDo | kwDouble | kwElse | kwExtends | kwFalse | kwFinally | kwFor | kwIf
  | kwImplements | kwImport | kwInstanceof | kwInt | kwInterface | kwLong | kwNew | kwNull
  | kwPackage | kwPrivate | kwProtected | kwPublic | kwReturn | kwStatic | kwSuper | kwSwitch
  | kwThis | kwThrow | kwThrows | kwTrue | kwTry | kwVoid | kwWhile
  deriving DecidableEq, Repr, Inhabited

namespace Kind

def separators : List Kind :=
  [.comma, .colon, .dot, .leftBrack, .leftCurly, .leftParen, .rightBrack, .rightCurly,
   .rightParen, .semi]

def operators : List Kind :=
  [.assign, .equal, .lnot, .notEqual, .bitNot, .question,
   .plus, .plusAssign, .inc, .minus, .minusAssign, .dec,
   .star, .starAssign, .div, .divAssign, .rem, .remAssign,
   .gt, .ge, .arshift, .arshiftAssign, .lrshift, .lrshiftAssign,
   .lt, .le, .alshift, .alshiftAssign,
   .and, .andAssign, .land, .or, .orAssign, .lor, .xor, .xorAssign]

def literals : List Kind :=
  [.intLiteral, .longLiteral, .doubleLiteral, .charLiteral, .stringLiteral]

def keywords : List Kind :=
  [.kwAbstract, .kwBoolean, .kwBreak, .kwCase, .kwCatch, .kwChar, .kwClass, .kwContinue,
   .kwDefault, .kwDo, .kwDouble, .kwElse, .kwExtends, .kwFalse, .kwFinally, .kwFor, .kwIf,
   .kwImplements, .kwImport, .kwInstanceof, .kwInt, .kwInterface, .kwLong, .kwNew, .kwNull,
   .kwPackage, .kwPrivate, .kwProtected, .kwPublic, .kwReturn, .kwStatic, .kwSuper, .kwSwitch,
   .kwThis, .kwThrow, .kwThrows, .kwTrue, .kwTry, .kwVoid, .kwWhile]

def all : List Kind :=
  [.eof] ++ separators ++ operators ++ [.identifier] ++ literals ++ keywords

def code (k : Kind) : Int := (all.idxOf k : Nat) - 1

def ofCode? (n : Int) : Option Kind :=
  if n < -1 then none else all[(n + 1).toNat]?

def isLiteral (k : Kind) : Bool := literals.contains k

def isKeyword (k : Kind) : Bool := keywords.contains k

def image : Kind → String
  | .eof => "<EOF>"
  | .comma => "," | .colon => ":" | .dot => "."
  | .leftBrack => "[" | .leftCurly => "\x7b" | .leftParen => "("
  | .rightBrack => "]" | .rightCurly => "\x7d" | .rightParen => ")" | .semi => ";"
  | .assign => "=" | .equal => "==" | .lnot => "!" | .notEqual => "!=" | .bitNot => "~"
  | .question => "?"
  | .plus => "+" | .plusAssign => "+=" | .inc => "++"
  | .minus => "-" | .minusAssign => "-=" | .dec => "--"
  | .star => "*" | .starAssign => "*=" | .div => "/" | .divAssign => "/="
  | .rem => "%" | .remAssign => "%="
  | .gt => ">" | .ge => ">=" | .arshift => ">>" | .arshiftAssign => ">>="
  | .lrshift => ">>>" | .lrshiftAssign => ">>>="
  | .lt => "<" | .le => "<=" | .alshift => "<<" | .alshiftAssign => "<<="
  | .and => "&" | .andAssign => "&=" | .land => "&&"
  | .or => "|" | .orAssign => "|=" | .lor => "||"
  | .xor => "^" | .xorAssign => "^="
  | .identifier => "<IDENTIFIER>"
  | .intLiteral => "<INT_LITERAL>" | .longLiteral => "<LONG_LITERAL>"
  | .doubleLiteral => "<DOUBLE_LITERAL>" | .charLiteral => "<CHAR_LITERAL>"
  | .stringLiteral => "<STRING_LITERAL>"
  | .kwAbstract => "abstract" | .kwBoolean => "boolean" | .kwBreak => "break"
  | .kwCase => "case" | .kwCatch => "catch" | .kwChar => "char" | .kwClass => "class"
  | .kwContinue => "continue" | .kwDefault => "default" | .kwDo => "do"
  | .kwDouble => "double" | .kwElse => "else" | .kwExtends => "extends"
  | .kwFalse => "false" | .kwFinally => "finally" | .kwFor => "for" | .kwIf => "if"
  | .kwImplements => "implements" | .kwImport => "import" | .kwInstanceof => "instanceof"
  | .kwInt => "int" | .kwInterface => "interface" | .kwLong => "long" | .kwNew => "new"
  | .kwNull => "null" | .kwPackage => "package" | .kwPrivate => "private"
  | .kwProtected => "protected" | .kwPublic => "public" | .kwReturn => "return"
  | .kwStatic => "static" | .kwSuper => "super" | .kwSwitch => "switch" | .kwThis => "this"
  | .kwThrow => "throw" | .kwThrows => "throws" | .kwTrue => "true" | .kwTry => "try"
  | .kwVoid => "void" | .kwWhile => "while"

/-- The image of a kind given by number; numbers outside the table share one image. -/
def imageOfCode (n : Int) : String := ((ofCode? n).map image).getD "<UNKNOWN>"

def ofImage? (text : String) : Option Kind := all.find? (·.image == text)

def keyword? (text : String) : Option Kind := keywords.find? (·.image == text)

/-- Separators and operators, longer images first, so that the first one that fits is the
longest. -/
def symbols : List Kind :=
  [.lrshiftAssign,
   .arshiftAssign, .lrshift, .alshiftAssign,
   .equal, .notEqual, .plusAssign, .inc, .minusAssign, .dec, .starAssign, .divAssign,
   .remAssign, .ge, .arshift, .le, .alshift, .andAssign, .land, .orAssign, .lor, .xorAssign,
   .comma, .colon, .dot, .leftBrack, .leftCurly, .leftParen, .rightBrack, .rightCurly,
   .rightParen, .semi, .assign, .lnot, .bitNot, .question, .plus, .minus, .star, .div, .rem,
   .gt, .lt, .and, .or, .xor]

def symbolAt (cs : List Char) : Option Kind :=
  symbols.find? fun k => k.image.toList.isPrefixOf cs

end Kind

/-- What a character or string literal stands for once its escapes are read. -/
inductive Decoded where
  | nothing
  | char (c : Char)
  | text (s : String)
  deriving DecidableEq, Repr, Inhabited

structure Token where
  kind : Kind
  lexeme : String
  line : Nat
  decoded : Decoded := .nothing
  deriving DecidableEq, Repr, Inhabited

/-- The line, the image where the text varies, and the source text, with tabs between. -/
def Token.render (t : Token) : String :=
  if t.kind.isLiteral || t.kind = .identifier then
    toString t.line ++ "\t" ++ t.kind.image ++ "\t" ++ t.lexeme
  else
    toString t.line ++ "\t" ++ t.lexeme

end Jminus
