import Jminus.Listing
import Jminus.Machine.Arithmetic

/-!
The machine that runs a listing: a stack of operands, an array of locals, and the place of the
next instruction. Every value takes one place of the stack and one local.

`Machine.tick` is one instruction and `Machine.run` a bounded number of them; `run` answers `none`
if the bound was too small to see the end. An instruction that fails keeps what it did before it
failed.
-/
namespace Jminus

structure Thrown where
  id : Identity
  cls : Class
  deriving DecidableEq, Repr

def Thrown.value (t : Thrown) : Value := .object t.id t.cls

structure Machine where
  pc : Nat := 0
  /-- The top comes first. -/
  stack : List Value := []
  locals : Array Value
  /-- What was printed so far, piece by piece, the latest first. An empty piece is one too. -/
  output : List String := []
  /-- Instructions started so far. -/
  steps : Nat := 0
  /-- Objects made so far; each has its number. -/
  made : Nat := 0
  /-- What was caught and by which handler. -/
  caught : Array (Class × Label) := #[]
  deriving Inhabited

inductive Stop where
  | finished
  | stepLimit
  | uncaught (cls : Class) (pc : Nat)
  | fault (f : Fault)
  deriving DecidableEq, Repr

namespace Machine

def start (locals : Nat) : Machine := { locals := Array.replicate locals .null }

def printed (m : Machine) : List String := m.output.reverse

abbrev Action := EStateM Fault Machine

def lift {α : Type} (r : Except Fault α) : Action α :=
  match r with
  | .ok a => pure a
  | .error f => throw f

def push (v : Value) : Action Unit := modify fun m => { m with stack := v :: m.stack }

def pop : Action Value := fun m =>
  match m.stack with
  | [] => .error (.stackUnderflow (m.pc - 1)) m
  | v :: rest => .ok v { m with stack := rest }

def popInt : Action Int32 := do
  match ← pop with
  | .int n => return n
  | _ => throw .wrongKind

def popLong : Action Int64 := do
  match ← pop with
  | .long n => return n
  | _ => throw .wrongKind

def popDouble : Action Float := do
  match ← pop with
  | .double x => return x
  | _ => throw .wrongKind

/-- Values for parameters, in their order; the last one is on top. -/
def popFor : List Ty → Action (List (Value × Ty))
  | [] => return []
  | t :: ts => do
    let rest ← popFor ts
    let v ← pop
    return (v, t) :: rest

def print (text : String) : Action Unit := modify fun m => { m with output := text :: m.output }

def jump (code : Listing) (label : Label) : Action Unit := do
  let pc ← lift (code.pcOf label)
  modify fun m => { m with pc }

def create (cls : Class) : Action Thrown := fun m =>
  .ok { id := .made m.made, cls } { m with made := m.made + 1 }

/-- The number of the local that an instruction names. -/
def slotOf (arg : Operand) : Action Int :=
  match arg with
  | .const (.slot n) => return n
  | _ => throw .wrongKind

def load (slot : Int) : Action Unit := do
  if slot < 0 then throw .outOfBounds
  match (← get).locals[slot.toNat]? with
  | some v => push v
  | none => throw .outOfBounds

def store (slot : Int) (v : Value) : Action Unit := do
  if 0 ≤ slot ∧ slot.toNat < (← get).locals.size then
    modify fun m => { m with locals := m.locals.setIfInBounds slot.toNat v }
  else throw .outOfBounds

inductive Builtin where
  | println | print | concat
  deriving DecidableEq, Repr

def Builtin.ofMethod? (m : Method) : Option Builtin :=
  if m.owner ≠ Method.library then none
  else if m.name = "println" then some .println
  else if m.name = "print" then some .print
  else if m.name = "concat" then some .concat
  else none

/-- Runs a method. What prints has the value null. -/
def Builtin.call (b : Builtin) (args : List (Value × Ty)) : Action Value :=
  match b, args with
  | .println, [] => do
    Machine.print "\n"
    return .null
  | .println, (v, t) :: _ => do
    Machine.print ((← lift (v.format t)) ++ "\n")
    return .null
  | .print, (v, t) :: _ => do
    Machine.print (← lift (v.format t))
    return .null
  | .concat, (v, t) :: rest => do
    let left ← lift (v.format t)
    match rest with
    | (w, u) :: _ => return .string (left ++ (← lift (w.format u)))
    | [] => throw .outOfBounds
  | _, [] => throw .outOfBounds

def invoke (m : Method) : Action Unit := do
  match Builtin.ofMethod? m with
  | none => throw (.unknownMethod m.render)
  | some builtin =>
    let (params, result) ← lift m.types
    let args ← popFor params
    let v ← builtin.call args
    if result ≠ .void then push v

/-- The pair of a lookup that a key meets: the first one not below it, if that is the key. -/
def lookupTarget (dflt : Label) (pairs : List (Int32 × Label)) (key : Int32) : Label :=
  match pairs.find? (key ≤ ·.1) with
  | some (v, target) => if v = key then target else dflt
  | none => dflt

/-- An operation on two ints, longs or doubles. The second operand is on top. A zero divisor is
not an error of the machine but an exception of the program. -/
def compute (op : Opcode) (kind : Num) : Action (Option Thrown) := do
  match kind with
  | .int =>
    let b ← popInt
    let a ← popInt
    if (op = .arith .int .div || op = .arith .int .rem) && b = 0 then
      return some (← create .arithmeticException)
    push (.int (← lift (Arithmetic.ofInts op a b)))
  | .long =>
    let b ← popLong
    let a ← popLong
    if (op = .arith .long .div || op = .arith .long .rem) && b = 0 then
      return some (← create .arithmeticException)
    push (.long (← lift (Arithmetic.ofLongs op a b)))
  | .double =>
    let b ← popDouble
    let a ← popDouble
    push (.double (← lift (Arithmetic.ofDoubles op a b)))
  return none

def takeBranch (code : Listing) (b : Branch) (target : Label) : Action Unit := do
  match b with
  | .ifZero rel =>
    let a ← popInt
    if rel.holds a 0 then jump code target
  | .ifInt rel =>
    let b ← popInt
    let a ← popInt
    if rel.holds a b then jump code target
  | .ifRef same =>
    let b ← pop
    let a ← pop
    if a.same b = same then jump code target
  | .goto => jump code target

/-- A plain instruction. It may answer with an object that it throws. -/
def plain (code : Listing) (op : Opcode) (arg : Operand) : Action (Option Thrown) := do
  match op with
  | .nop => return none
  | .aconstNull =>
    push .null
    return none
  | .ldc =>
    match arg with
    | .absent | .unresolved => push .null
    | .const v => push v
    return none
  | .load _ =>
    load (← slotOf arg)
    return none
  | .store _ =>
    let slot ← slotOf arg
    store slot (← pop)
    return none
  | .pop =>
    let _ ← pop
    return none
  | .dup =>
    let v ← pop
    push v
    push v
    return none
  | .arith kind _ => compute op kind
  | .bit .int _ | .shift .int _ => compute op .int
  | .bit .long _ => compute op .long
  | .shift .long _ =>
    let b ← popInt
    let a ← popLong
    push (.long (← lift (Arithmetic.ofShift op a b)))
    return none
  | .neg .int =>
    push (.int (-(← popInt)))
    return none
  | .neg .long =>
    push (.long (-(← popLong)))
    return none
  | .neg .double =>
    push (.double (-(← popDouble)))
    return none
  | .lcmp =>
    let b ← popLong
    let a ← popLong
    push (.int (Arithmetic.longOrder a b))
    return none
  | .dcmpl =>
    let b ← popDouble
    let a ← popDouble
    push (.int (Arithmetic.doubleOrder (-1) a b))
    return none
  | .dcmpg =>
    let b ← popDouble
    let a ← popDouble
    push (.int (Arithmetic.doubleOrder 1 a b))
    return none
  | .new =>
    match arg with
    | .const (.string path) =>
      match Class.ofPath? path.toList with
      | some cls =>
        push (← create cls).value
        return none
      | none => throw (.unknownClass path)
    | _ => throw .wrongKind
  | .athrow =>
    match ← pop with
    | .null => return some (← create .nullPointerException)
    | .object id cls => return some { id, cls }
    | v => throw (.throwing v.kind)
  | .invokeStatic =>
    match arg with
    | .const (.method _ m) =>
      invoke m
      return none
    | .unresolved => throw .unresolved
    | _ => throw .wrongKind
  | .ret =>
    modify fun m => { m with pc := code.code.size }
    return none
  | .branch _ | .tableSwitch | .lookupSwitch | .undefined => throw (.cannotExecute op)

def perform (code : Listing) : Instruction → Action (Option Thrown)
  | .plain op arg => plain code op arg
  | .branch b target => do
    takeBranch code b target
    return none
  | .table dflt lo hi targets => do
    let key ← popInt
    if key < lo || hi < key then jump code dflt
    else
      match targets[(key.toInt - lo.toInt).toNat]? with
      | some target => jump code target
      | none => throw .outOfBounds
    return none
  | .lookup dflt pairs => do
    let key ← popInt
    jump code (lookupTarget dflt pairs key)
    return none

/-- Whether a handler takes objects of a class. A name that belongs to no class takes none. -/
def accepts (h : Handler) (cls : Class) : Bool :=
  h.exceptionType = "" ||
    match Class.ofPath? h.exceptionType.toList with
    | some caught => cls.isSubclassOf caught
    | none => false

def covers (code : Listing) (h : Handler) (pc : Nat) : Except Fault Bool := do
  if pc < (← code.pcOf h.start) then return false
  return pc < (← code.pcOf h.stop)

/-- The first handler for an object thrown at a place. -/
def handlerFor? (code : Listing) (cls : Class) (pc : Nat) :
    List Handler → Except Fault (Option Handler)
  | [] => return none
  | h :: hs => do
    if (← covers code h pc) && accepts h cls then return some h
    handlerFor? code cls pc hs

/-- Goes on at a handler, with the object alone on the stack. -/
def catchAt (code : Listing) (h : Handler) (thrown : Thrown) : Action Unit := do
  modify fun m => { m with stack := [thrown.value] }
  jump code h.handler
  modify fun m => { m with caught := m.caught.push (thrown.cls, h.handler) }

inductive Progress where
  | running (m : Machine)
  | stopped (s : Stop) (m : Machine)

/-- What becomes of an object thrown at a place. -/
def unwind (code : Listing) (thrown : Thrown) (pc : Nat) (m : Machine) : Progress :=
  match handlerFor? code thrown.cls pc code.handlers with
  | .error f => .stopped (.fault f) m
  | .ok none => .stopped (.uncaught thrown.cls pc) m
  | .ok (some h) =>
    match (catchAt code h thrown).run m with
    | .ok () m => .running m
    | .error f m => .stopped (.fault f) m

/-- One instruction. The limit is on the instructions of the whole run; zero is none. -/
def tick (code : Listing) (limit : Nat) (m : Machine) : Progress :=
  match code.code[m.pc]? with
  | none => .stopped .finished m
  | some ins =>
    if 0 < limit ∧ limit ≤ m.steps then .stopped .stepLimit m
    else
      match (perform code ins).run { m with pc := m.pc + 1, steps := m.steps + 1 } with
      | .ok none m' => .running m'
      | .ok (some thrown) m' => unwind code thrown m.pc m'
      | .error f m' => .stopped (.fault f) m'

/-- Up to `fuel` ticks. With a limit above zero `limit + 1` are enough. -/
def run (code : Listing) (limit : Nat) : Nat → Machine → Option (Stop × Machine)
  | 0, _ => none
  | fuel + 1, m =>
    match tick code limit m with
    | .running m => run code limit fuel m
    | .stopped s m => some (s, m)

/-- More fuel keeps a finished answer. -/
theorem run_mono {code : Listing} {limit fuel fuel' : Nat} {m : Machine} {r : Stop × Machine}
    (h : run code limit fuel m = some r) (hle : fuel ≤ fuel') :
    run code limit fuel' m = some r := by
  induction fuel generalizing fuel' m with
  | zero => cases h
  | succ fuel ih =>
    obtain ⟨k, rfl⟩ : ∃ k, fuel' = k + 1 := ⟨fuel' - 1, by omega⟩
    cases ht : tick code limit m with
    | running m' =>
      simp only [run, ht] at h ⊢
      exact ih h (by omega)
    | stopped s m' =>
      simp only [run, ht] at h ⊢
      exact h

end Machine

end Jminus
