import Jminus.Fault
import Jminus.Value.Format

/-!
Symbolic code: instructions in order, labels placed between them, and the table of exception
handlers.

A listing is built by appending. Each operation checks what it can; a label may be used before it
is placed, so `resolve` checks at the end that every label in use has a place.
-/
namespace Jminus

inductive Operand where
  | absent
  | const (v : Value)
  /-- A method that was looked for and not found. -/
  | unresolved
  deriving Repr, Inhabited

inductive Instruction where
  | plain (op : Opcode) (arg : Operand)
  | branch (b : Branch) (target : Label)
  /-- One target for each key from `lo` to `hi`. -/
  | table (dflt : Label) (lo hi : Int32) (targets : List Label)
  /-- Keys in increasing order, each with its target. -/
  | lookup (dflt : Label) (pairs : List (Int32 × Label))
  deriving Repr, Inhabited

namespace Instruction

/-- An instruction made from an opcode and an argument alone. Branches and switches lack their
targets then. -/
def simple (op : Opcode) (arg : Operand) : Instruction :=
  match op with
  | .branch b => .branch b .absent
  | .tableSwitch => .table .absent 0 0 []
  | .lookupSwitch => .lookup .absent []
  | op => .plain op arg

def opcode : Instruction → Opcode
  | .plain op _ => op
  | .branch b _ => .branch b
  | .table .. => .tableSwitch
  | .lookup .. => .lookupSwitch

/-- Every label that the instruction may jump to. -/
def labels : Instruction → List Label
  | .plain .. => []
  | .branch _ target => [target]
  | .table dflt _ _ targets => dflt :: targets
  | .lookup dflt pairs => dflt :: pairs.map (·.2)

def spaced (texts : List String) : String := " ".intercalate texts

def render : Instruction → String
  | .plain op .absent => op.name
  | .plain op .unresolved => op.name ++ " <nil>"
  | .plain op (.const .null) => op.name
  | .plain .ldc (.const (.string s)) => Opcode.ldc.name ++ " " ++ Text.Quoted.quote s
  | .plain op (.const v) => op.name ++ " " ++ v.render
  | .branch b target => (Opcode.branch b).name ++ " " ++ target.render
  | .table dflt lo hi targets =>
    "TABLESWITCH " ++ toString lo.toInt ++ ".." ++ toString hi.toInt ++ " [" ++
      spaced (targets.map Label.render) ++ "] default " ++ dflt.render
  | .lookup dflt pairs =>
    "LOOKUPSWITCH " ++ toString pairs.length ++ " \x7b" ++
      spaced (pairs.map fun p => toString p.1.toInt ++ ":" ++ p.2.render) ++
      "\x7d default " ++ dflt.render

end Instruction

/-- Code from `start` up to `stop` is protected by `handler`. -/
structure Handler where
  start : Label
  stop : Label
  handler : Label
  /-- The class that is caught, by its name in code; the empty text catches everything. -/
  exceptionType : String
  deriving DecidableEq, Repr

structure Listing where
  code : Array Instruction := #[]
  handlers : List Handler := []
  /-- How many labels have been handed out. -/
  created : Nat := 0
  /-- Where labels stand, the latest first. -/
  places : List (Label × Nat) := []
  deriving Inhabited

namespace Listing

def empty : Listing := {}

def createLabel (l : Listing) : Label × Listing :=
  (⟨(l.created + 1 : Nat)⟩, { l with created := l.created + 1 })

def place? (l : Listing) (label : Label) : Option Nat := l.places.lookup label

def place (l : Listing) (label : Label) : Except Fault Listing :=
  if label = .absent then .error .placingAbsent
  else if (l.place? label).isSome then .error (.placedTwice label)
  else .ok { l with places := (label, l.code.size) :: l.places }

def push (l : Listing) (ins : Instruction) : Listing := { l with code := l.code.push ins }

def addBranch (l : Listing) (op : Opcode) (target : Label) : Except Fault Listing :=
  match op with
  | .branch b => .ok (l.push (.branch b target))
  | op => .error (.notBranch op)

def addPlain (l : Listing) (op : Opcode) (arg : Operand := .absent) : Listing :=
  l.push (.simple op arg)

/-- A jump table has one target for each key. -/
def addDense (l : Listing) (dflt : Label) (lo hi : Int32) (targets : List Label) :
    Except Fault Listing :=
  if hi.toInt - lo.toInt + 1 = targets.length then .ok (l.push (.table dflt lo hi targets))
  else .error (.denseSize lo hi targets.length)

def increasing : List (Int32 × Label) → Bool
  | p :: q :: rest => p.1 ≤ q.1 && increasing (q :: rest)
  | _ => true

/-- A lookup has its keys in order and says how many there are. -/
def addSparse (l : Listing) (dflt : Label) (count : Int) (pairs : List (Int32 × Label)) :
    Except Fault Listing :=
  if count ≠ pairs.length then .error (.sparseSize pairs.length count)
  else if increasing pairs then .ok (l.push (.lookup dflt pairs))
  else .error .sparseUnsorted

def addHandler (l : Listing) (h : Handler) : Listing := { l with handlers := l.handlers ++ [h] }

/-- The place of a label that has to have one. -/
def pcOf (l : Listing) (label : Label) : Except Fault Nat :=
  match l.place? label with
  | some pc => .ok pc
  | none => .error (.unplaced label)

/-- The first label in use that has no place, as a fault. -/
def missing? (l : Listing) : Option Fault :=
  let isMissing (label : Label) : Bool := (l.place? label).isNone
  let inCode := l.code.toList.zipIdx.findSome? fun (ins, pc) =>
    (ins.labels.find? isMissing).map (.unplacedInCode pc ins.opcode)
  inCode.or <| l.handlers.findSome? fun h =>
    ([h.start, h.stop, h.handler].find? isMissing).map .unplacedInTable

def resolve (l : Listing) : Except Fault Unit :=
  match l.missing? with
  | some f => .error f
  | none => .ok ()

/-- The labels at a place, in the order of their numbers. -/
def labelsAt (l : Listing) (pc : Nat) : List Label :=
  ((l.places.filter (·.2 = pc)).map (·.1)).mergeSort fun a b => a.number ≤ b.number

def padded (n : Nat) : String :=
  let digits := toString n
  String.ofList (List.replicate (4 - digits.length) ' ') ++ digits

def renderAt (l : Listing) (pc : Nat) : String :=
  String.join ((l.labelsAt pc).map fun label => label.render ++ ":\n") ++
    match l.code[pc]? with
    | some ins => "    " ++ padded pc ++ "  " ++ ins.render ++ "\n"
    | none => ""

def Handler.render (h : Handler) : String :=
  "    " ++ h.start.render ++ " " ++ h.stop.render ++ " -> " ++ h.handler.render ++ " " ++
    (if h.exceptionType = "" then "any" else h.exceptionType) ++ "\n"

/-- The whole listing as text, a line for each label, instruction and handler. -/
def render (l : Listing) : String :=
  String.join ((List.range (l.code.size + 1)).map l.renderAt) ++
    if l.handlers.isEmpty then ""
    else "exception table:\n" ++ String.join (l.handlers.map Handler.render)

end Listing

end Jminus
