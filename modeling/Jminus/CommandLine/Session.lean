import Jminus.CommandLine.Batch
import Jminus.Text.Blank
import Jminus.Text.Lines
import Jminus.Text.Utf8

/-!
Statements entered line by line.

Lines are gathered until they look like a whole entry, which is then compiled and run on its own:
declarations do not survive from one entry to the next. Lines are bytes, as they came in, and so
are the entries kept in a history.

Lines and history belong to a line editor, which is a library of its own. `History` says what is
relied on: how many entries the editor keeps, which repetitions it drops, and how it reads and
writes the file of entries.
-/
namespace Jminus.CommandLine

/-- Past entries, the oldest first. -/
abbrev History := List (List UInt8)

namespace History

/-- How many entries are kept. -/
def limit : Nat := 1000

def push (h : History) (entry : List UInt8) : History :=
  let h := h ++ [entry]
  if limit < h.length then h.tail else h

/-- Adds an entry unless it repeats the last one. -/
def add (h : History) (entry : List UInt8) : History :=
  if h.getLast? = some entry then h else h.push entry

def isText (bytes : List UInt8) : Bool := (Text.Utf8.text bytes).toUTF8.toList = bytes

/-- Entries of a file, one in each line, up to the first line that is none. -/
def read (bytes : List UInt8) : History :=
  let lines := (Text.Lines.pieces bytes).takeWhile fun p => !p.cut && isText p.bytes
  lines.foldl (fun h p => h.push p.bytes) []

/-- The bytes of the file: each entry on a line. -/
def render (h : History) : List UInt8 := h.flatMap (· ++ [Text.Lines.newline])

end History

/-- Text that is ready to be compiled: as many braces are closed as were opened, and it ends like a
statement. Braces in strings and comments count too. -/
def complete (src : String) : Bool :=
  let cs := src.toList
  cs.count '\x7b' ≤ cs.count '\x7d' && (cs.getLast? = some ';' || cs.getLast? = some '\x7d')

structure Session where
  setting : Setting
  /-- The lines of the entry so far. -/
  pending : List UInt8 := []
  history : History := []
  ended : Bool := false

structure Printed where
  out : String := ""
  err : String := ""
  deriving DecidableEq, Repr

def Printed.append (a b : Printed) : Printed := { out := a.out ++ b.out, err := a.err ++ b.err }

namespace Session

def prompt (s : Session) : String := if s.pending = [] then "jmm> " else "...> "

def execute (s : Session) (code : String) (fuel : Nat) : Option Printed :=
  let level := s.setting.level
  let c := compile "<stdin>" code
  let err := Log.render level c.log ++ c.report s.setting.color
  let line (f : Failure) : String := ((f.message? "<stdin>").map (· ++ "\n")).getD ""
  match c.failure? with
  | some .rejected => some { err }
  | some f => some { err := err ++ line f }
  | none =>
    (c.run s.setting.flags.options.limit fuel).map fun r =>
      { out := s.setting.listingText c ++ r.output
        err := err ++ Log.render level r.log ++ ((r.failure?.map line).getD "") }

/-- Shows listings from now on, or no longer. -/
def toggleListing (s : Session) : Session × Printed :=
  let on := !s.setting.flags.listing
  let flags := { s.setting.flags with listing := on }
  ({ s with setting := { s.setting with flags } },
   { out := "listing " ++ (if on then "true" else "false") ++ "\n" })

/-- An entry as it is kept in the history, on one line. -/
def oneLine (entry : List UInt8) : List UInt8 :=
  entry.map fun b => if b = Text.Lines.newline then 32 else b

def enter (s : Session) (entry : List UInt8) (fuel : Nat) : Option (Session × Printed) :=
  let code := Text.Utf8.text entry
  let word := Text.trim code
  if word = "" then some (s, {})
  else if word = ":quit" || word = ":q" then some ({ s with ended := true }, {})
  else if word = ":listing" then some s.toggleListing
  else do
    let printed ← s.execute code fuel
    return ({ s with history := s.history.add (oneLine entry) }, printed)

/-- One more line. An empty entry and one with a colon in front end with their line. -/
def feed (s : Session) (line : List UInt8) (fuel : Nat) : Option (Session × Printed) :=
  let entry := if s.pending = [] then line else s.pending ++ Text.Lines.newline :: line
  let src := Text.trim (Text.Utf8.text entry)
  if src = "" || src.startsWith ":" || complete src then
    enter { s with pending := [] } entry fuel
  else some ({ s with pending := entry }, {})

/-- The end of the input, which also drops an entry that was begun. -/
def close (s : Session) : Session × Printed :=
  ({ s with pending := [], ended := true }, { out := "\n" })

/-- A session on lines that are all there, with the prompt before each of them. -/
def converse (s : Session) (lines : List (List UInt8)) (fuel : Nat) : Option (Session × Printed) :=
  let asked : Printed := { out := s.prompt }
  match lines with
  | [] =>
    let (s, printed) := s.close
    some (s, asked.append printed)
  | line :: lines => do
    let (s, printed) ← s.feed line fuel
    let so := asked.append printed
    if s.ended then return (s, so)
    let (s, rest) ← s.converse lines fuel
    return (s, so.append rest)

end Session

end Jminus.CommandLine
