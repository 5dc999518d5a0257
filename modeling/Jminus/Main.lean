import Jminus.CommandLine
import Jminus.NodeDecl

/-!
The program itself: reading files and lines, printing answers. Called by the name `ast` it writes
declarations of nodes instead of compiling.
-/
namespace Jminus.Main

open CommandLine

/-- Gives a computation all the fuel it takes. -/
partial def settle {α : Type} (f : Nat → Option α) (fuel : Nat := Nat.pow 2 40) : IO α :=
  match f fuel with
  | some a => return a
  | none => settle f (fuel * 2)

def printOut (text : String) : IO Unit := do
  let out ← IO.getStdout
  out.putStr text
  out.flush

def printErr (text : String) : IO Unit := do
  let err ← IO.getStderr
  err.putStr text
  err.flush

def finish (r : Result) : IO UInt32 := do
  printOut r.out
  printErr r.err
  return r.exit

def readSource (name : String) : IO (Except ReadFailure String) := do
  try
    let bytes ← IO.FS.readBinFile name
    return .ok (Text.Utf8.text bytes.toList)
  catch e =>
    match e with
    | .noFileOrDirectory .. => return .error .missing
    | .inappropriateType _ code _ =>
      return .error (if isCode 20 code then .notDirectory else .directory)
    | .invalidArgument _ code text =>
      return .error (if isCode 36 code then .nameTooLong else .other text)
    | e => return .error (.other (toString e))
where
  /-- Codes of the system come with their sign or without. -/
  isCode (n code : UInt32) : Bool := code == n || code == 0 - n

/-- Lines from the standard input until it ends or the session is over. -/
partial def converse (s : Session) : IO Session := do
  printOut s.prompt
  let line ← (← IO.getStdin).getLine
  if line.isEmpty then
    let (s, printed) := s.close
    printOut printed.out
    return s
  feedAll s (Text.Lines.pieces line.toUTF8.toList)
where
  feedAll (s : Session) : List Text.Lines.Piece → IO Session
    | [] => converse s
    | piece :: pieces => do
      let (s, printed) ← settle (s.feed piece.bytes)
      printErr printed.err
      printOut printed.out
      if s.ended then return s
      if !pieces.isEmpty then printOut s.prompt
      feedAll s pieces

def historyPath : IO String := return ((← IO.getEnv "HOME").getD "") ++ "/.jmm_history"

def readHistory : IO History := do
  try
    return History.read (← IO.FS.readBinFile (← historyPath)).toList
  catch _ => return []

def writeHistory (h : History) : IO Unit := do
  try
    IO.FS.writeBinFile (← historyPath) (ByteArray.mk h.render.toArray)
  catch _ => return

def compileAll (args : List String) : IO UInt32 := do
  let terminal ← (← IO.getStdout).isTty
  match Command.ofArgs args terminal with
  | .refuse r => finish (refused r)
  | .reject r => finish (rejected r)
  | .explain => finish explained
  | .build s names =>
    let files ← names.mapM fun name => return (name, ← readSource name)
    finish (← settle (batch s files))
  | .converse s =>
    let s ← converse { setting := s, history := ← readHistory }
    writeHistory s.history
    return 0

def writeNodes (args : List String) : IO UInt32 := do
  match NodeFamily.ofArgs args with
  | .ok text =>
    printOut text
    return 0
  | .error r =>
    printErr (r.message ++ "\n")
    return 1

end Jminus.Main

def main (args : List String) : IO UInt32 := do
  if (← IO.appPath).fileName = some "ast" then Jminus.Main.writeNodes args
  else Jminus.Main.compileAll args
