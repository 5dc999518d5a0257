import Jminus.CommandLine.Session

/-!
What arguments ask for, and the answers that need neither a file nor a session.
-/
namespace Jminus.CommandLine

inductive Command where
  | refuse (r : Refusal)
  | reject (r : Options.Refusal)
  /-- There is nothing to compile. -/
  | explain
  | converse (s : Setting)
  | build (s : Setting) (files : List String)

/-- The command of a list of arguments. `terminal` says whether colours could be shown. -/
def Command.ofArgs (args : List String) (terminal : Bool) : Command :=
  match Flags.read {} args with
  | .error r => .refuse r
  | .ok (flags, files) =>
    match flags.options.validate .info with
    | .error r => .reject r
    | .ok level =>
      let setting : Setting := { flags, level, color := terminal && !flags.noColor }
      if flags.repl then .converse setting
      else if files.isEmpty then .explain
      else .build setting files

def refused (r : Refusal) : Result :=
  { exit := 2, out := r.message ++ "\n", err := r.notice ++ usage }

def rejected (r : Options.Refusal) : Result :=
  let entry : Log.Entry := { level := .fatal, message := "Failed to parse flags: " ++ r.message }
  { exit := 1, out := "", err := entry.render }

def explained : Result := { exit := 2, out := "", err := usage }

/-- A whole run of the program: its arguments, the files it can read, its input and the history
that an earlier session left. The answer is the result and the history afterwards. -/
def program (args : List String) (folder : Folder) (input : List UInt8)
    (history : Option (List UInt8)) (fuel : Nat) : Option (Result × Option History) :=
  match Command.ofArgs args false with
  | .refuse r => some (refused r, none)
  | .reject r => some (rejected r, none)
  | .explain => some (explained, none)
  | .build s files => (batch s (files.map fun f => (f, folder.read f)) fuel).map fun r => (r, none)
  | .converse s =>
    let session : Session := { setting := s, history := (history.map History.read).getD [] }
    let lines := (Text.Lines.pieces input).map (·.bytes)
    (session.converse lines fuel).map fun (s, printed) =>
      ({ exit := 0, out := printed.out, err := printed.err }, some s.history)

end Jminus.CommandLine
