/-!
Text taken for a format that has nothing to fill in.

A percent sign starts a directive: flags, a width, a precision and a verb. Each directive comes
out as a note that its value is missing; a doubled sign is a plain one.
-/
namespace Jminus.Text.Directive

/-- What is left behind a part of a directive, and what was noted about the part. -/
structure Part where
  rest : List Char
  note : String := ""
  /-- The part named a value by its number. -/
  indexed : Bool := false
  /-- No number is a good one, since there are no values. -/
  misplaced : Bool := false

def isFlag (c : Char) : Bool := "#0+- ".toList.contains c

/-- Digits that make a number, unless they go on behind more than a million. -/
def isShort (digits : List Char) : Bool :=
  digits.dropLast.foldl (fun n d => 10 * n + (d.toNat - '0'.toNat)) 0 ≤ 1000000

def isIndex (digits : List Char) : Bool :=
  digits ≠ [] && digits.all Char.isDigit && isShort digits

/-- The number of a value in brackets. Without the closing bracket, or with nothing but that at the
end of the text, only the opening one counts. -/
def index (cs : List Char) : Part :=
  match cs with
  | ['[', ']'] => { rest := [']'], misplaced := true }
  | '[' :: inner =>
    match inner.dropWhile (· != ']') with
    | _ :: rest =>
      { rest, indexed := isIndex (inner.takeWhile (· != ']')), misplaced := true }
    | [] => { rest := inner, misplaced := true }
  | cs => { rest := cs }

/-- A width or a precision: digits, or a star for a value that is not there. Behind digits that are
too many nothing is left. -/
def size (missing : String) (cs : List Char) : Part :=
  match cs with
  | '*' :: rest => { rest, note := missing }
  | cs =>
    if isShort (cs.takeWhile Char.isDigit) then { rest := cs.dropWhile Char.isDigit }
    else { rest := [] }

/-- The text of the directive behind a percent sign, and what is left behind it. A second number
right behind another one is no number but a verb. -/
def directive (cs : List Char) : String × List Char :=
  let first := index (cs.dropWhile isFlag)
  let width := size "%!(BADWIDTH)" first.rest
  let (second, precision) : Part × Part :=
    match width.rest with
    | '.' :: rest =>
      let second := index rest
      (second, size "%!(BADPREC)" second.rest)
    | rest => ({ rest, indexed := first.indexed && width.note.isEmpty }, { rest })
  let third : Part :=
    if second.indexed && precision.note.isEmpty then { rest := precision.rest }
    else index precision.rest
  let notes := width.note ++ precision.note
  let misplaced := first.misplaced || second.misplaced || third.misplaced
  match third.rest with
  | [] => (notes ++ "%!(NOVERB)", [])
  | verb :: rest =>
    if verb = '%' then (notes ++ "%", rest)
    else
      (notes ++ "%!" ++ verb.toString ++ (if misplaced then "(BADINDEX)" else "(MISSING)"), rest)

/-- Text with the note of each directive in its place. The fuel is a bound on the directives. -/
def fill : Nat → List Char → String
  | _, [] => ""
  | 0, cs => String.ofList cs
  | fuel + 1, '%' :: cs =>
    let (text, rest) := directive cs
    text ++ fill fuel rest
  | fuel + 1, c :: cs => c.toString ++ fill fuel cs

def unfilled (s : String) : String := fill s.length s.toList

end Jminus.Text.Directive
