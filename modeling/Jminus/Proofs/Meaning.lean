import Jminus.Checked
import Jminus.Decimal.Binary
import Jminus.Value.Format
import Mathlib

/-!
What a checked program means: evaluation on the tree itself.

Values are those of the language and know their own kind: a boolean is not a number here, and a
character is a character. There is no stack, no code and no slot for a delayed exception; a jump is
a completion that travels outward to the frame it names. A jump goes straight to its frame: it does
not run the finally clauses on its way.

Expressions always end. A loop is given a number of rounds, and evaluation answers `spent` if they
are not enough; it answers `stuck` where an operation meets values that it is not made for.
-/
namespace Jminus.Checked.Meaning

inductive Datum where
  /-- What a call without a result answers. -/
  | void
  | null
  | int (n : Int32)
  | long (n : Int64)
  | double (x : Float)
  | boolean (b : Bool)
  | char (c : Char)
  | string (s : String)
  /-- Every object has a number of its own. -/
  | object (id : Nat) (cls : Class)

def Datum.text? : Datum → Option String
  | .void => none
  | .null => some "null"
  | .int n => some (toString n.toInt)
  | .long n => some (toString n.toInt)
  | .double x => some (Value.spoken.render x)
  | .boolean b => some (if b then "true" else "false")
  | .char c => some c.toString
  | .string s => some s
  | .object _ cls => some cls.dotted

/-- Whether two references are the same: texts by their characters, objects by their numbers. -/
def Datum.same? : Datum → Datum → Option Bool
  | .null, .null => some true
  | .string a, .string b => some (a == b)
  | .object a _, .object b _ => some (a == b)
  | .null, .string _ | .string _, .null | .null, .object .. | .object .., .null => some false
  | .string _, .object .. | .object .., .string _ => some false
  | _, _ => none

/-- A relation among values that are ordered. -/
def between {α : Type} [BEq α] [LT α] [LE α] [DecidableLT α] [DecidableLE α] (rel : Relation)
    (a b : α) : Bool :=
  match rel with
  | .eq => a == b
  | .ne => a != b
  | .lt => a < b
  | .ge => b ≤ a
  | .gt => b < a
  | .le => a ≤ b

/-- A relation among values that are only the same or not. -/
def sameness (rel : Relation) (same : Bool) : Option Bool :=
  match rel with
  | .eq => some same
  | .ne => some !same
  | _ => none

def relate? (rel : Relation) : Datum → Datum → Option Bool
  | .int a, .int b => some (between rel a b)
  | .long a, .long b => some (between rel a b)
  | .double a, .double b => some (between rel a b)
  | .char a, .char b => some (between rel a b)
  | .boolean a, .boolean b => sameness rel (a == b)
  | a, b => (a.same? b).bind (sameness rel)

/-- An object on its way outward. -/
structure Raised where
  id : Nat
  cls : Class
  deriving DecidableEq, Repr

def Raised.datum (x : Raised) : Datum := .object x.id x.cls

/-- What evaluation changes. -/
structure World where
  /-- The variables, by their slots. -/
  vars : Nat → Datum
  /-- What was printed, piece by piece. -/
  printed : List String
  /-- How many objects there are. -/
  made : Nat

def World.start : World := { vars := fun _ => .null, printed := [], made := 0 }

def World.set (w : World) (slot : Nat) (d : Datum) : World :=
  { w with vars := fun s => if s = slot then d else w.vars s }

/-- A value or an exception, and the world behind it; `none` where evaluation is stuck. -/
abbrev Eval := ExceptT Raised (StateT World Option)

namespace Eval

def stuck {α : Type} : Eval α := fun _ => none

def ofOption {α : Type} : Option α → Eval α
  | some a => pure a
  | none => stuck

def read (slot : Nat) : Eval Datum := fun w => some (.ok (w.vars slot), w)

def write (slot : Nat) (d : Datum) : Eval Unit := fun w => some (.ok (), w.set slot d)

def print (text : String) : Eval Unit := fun w =>
  some (.ok (), { w with printed := w.printed ++ [text] })

def create (cls : Class) : Eval Raised := fun w =>
  some (.ok ⟨w.made, cls⟩, { w with made := w.made + 1 })

def raise {α : Type} (cls : Class) : Eval α := do throw (← create cls)

end Eval

open Eval

def truth : Datum → Eval Bool
  | .boolean b => return b
  | _ => stuck

def number : Datum → Eval Int32
  | .int n => return n
  | _ => stuck

/-- Sums, products and quotients. Whole numbers wrap, and a zero divisor is an exception. -/
def arith (op : ArithOp) : Datum → Datum → Eval Datum
  | .int a, .int b =>
    match op with
    | .add => return .int (a + b)
    | .sub => return .int (a - b)
    | .mul => return .int (a * b)
    | .div => if b = 0 then raise .arithmeticException else return .int (a / b)
    | .rem => if b = 0 then raise .arithmeticException else return .int (a % b)
  | .long a, .long b =>
    match op with
    | .add => return .long (a + b)
    | .sub => return .long (a - b)
    | .mul => return .long (a * b)
    | .div => if b = 0 then raise .arithmeticException else return .long (a / b)
    | .rem => if b = 0 then raise .arithmeticException else return .long (a % b)
  | .double a, .double b =>
    match op with
    | .add => return .double (a + b)
    | .sub => return .double (a - b)
    | .mul => return .double (a * b)
    | .div => return .double (a / b)
    | .rem => return .double (Decimal.remainder a b)
  | _, _ => stuck

def bit (op : BitOp) : Datum → Datum → Eval Datum
  | .int a, .int b =>
    match op with
    | .and => return .int (a &&& b)
    | .or => return .int (a ||| b)
    | .xor => return .int (a ^^^ b)
  | .long a, .long b =>
    match op with
    | .and => return .long (a &&& b)
    | .or => return .long (a ||| b)
    | .xor => return .long (a ^^^ b)
  | .boolean a, .boolean b =>
    match op with
    | .and => return .boolean (a && b)
    | .or => return .boolean (a || b)
    | .xor => return .boolean (a ^^ b)
  | _, _ => stuck

/-- Shifts take the low five or six bits of their count. -/
def shift (op : ShiftOp) : Datum → Datum → Eval Datum
  | .int a, .int n =>
    let count := n &&& 31
    match op with
    | .shl => return .int (a <<< count)
    | .shr => return .int (a >>> count)
    | .ushr => return .int (a.toUInt32 >>> count.toUInt32).toInt32
  | .long a, .int n =>
    let count := (n &&& 63).toInt64
    match op with
    | .shl => return .long (a <<< count)
    | .shr => return .long (a >>> count)
    | .ushr => return .long (a.toUInt64 >>> count.toUInt64).toInt64
  | _, _ => stuck

def compute : Operator → Datum → Datum → Eval Datum
  | .arith op, a, b => arith op a b
  | .bit op, a, b => bit op a b
  | .shift op, a, b => shift op a b

/-- A sum with a text in it joins texts. Which sums are of this kind is known from the types. -/
def joins (o : Operator) (left right : Ty) : Bool :=
  o = .arith .add && (left = .ref .string || right = .ref .string)

def combine (o : Operator) (left right : Ty) (a b : Datum) : Eval Datum :=
  if joins o left right then do
    let s ← ofOption a.text?
    let t ← ofOption b.text?
    return .string (s ++ t)
  else compute o a b

def negative : Datum → Eval Datum
  | .int n => return .int (-n)
  | .long n => return .long (-n)
  | .double x => return .double (-x)
  | _ => stuck

def complement : Datum → Eval Datum
  | .int n => return .int (~~~ n)
  | .long n => return .long (~~~ n)
  | _ => stuck

/-- The value one step up or down. -/
def changed : IncrementOp → Datum → Eval Datum
  | .inc, .int n => return .int (n + 1)
  | .dec, .int n => return .int (n - 1)
  | .inc, .long n => return .long (n + 1)
  | .dec, .long n => return .long (n - 1)
  | .inc, .double x => return .double (x + 1)
  | .dec, .double x => return .double (x - 1)
  | _, _ => stuck

def literal : Ty → Option Constant → Eval Datum
  | .int, some (.int n) => return .int n
  | .char, some (.int n) => return .char (Char.ofNat n.toInt.toNat)
  | .long, some (.long n) => return .long n
  | .double, some (.double x) => return .double x
  | .ref .string, some (.string s) => return .string s
  | .boolean, some (.bool b) => return .boolean b
  | .null, none => return .null
  | _, _ => stuck

def new : Ty → Eval Datum
  | .ref cls => return (← create cls).datum
  | _ => stuck

/-- The two methods that source text can call. -/
def call (name : String) (args : List Datum) : Eval Datum :=
  if name = "println" then
    match args with
    | [] => do
      print "\n"
      return .void
    | [d] => do
      print ((← ofOption d.text?) ++ "\n")
      return .void
    | _ => stuck
  else if name = "print" then
    match args with
    | [d] => do
      print (← ofOption d.text?)
      return .void
    | _ => stuck
  else stuck

def slotOf (v : Option Local) : Eval Nat := ofOption (v.map (·.slot))

mutual

def eval : Expr → Eval Datum
  | .literal type value => literal type value
  | .var v => do read (← slotOf v)
  | .assign .plain target value => do
    let d ← eval value
    write (← slotOf target) d
    return d
  | .assign (.compound o) target value => do
    let old ← read (← slotOf target)
    let d ← eval value
    let d ← combine o (typeOf target) value.type old d
    write (← slotOf target) d
    return d
  | .binary (.compute o) _ _ left right => do
    let a ← eval left
    let b ← eval right
    combine o left.type right.type a b
  | .binary (.compare rel) _ _ left right => do
    let a ← eval left
    let b ← eval right
    return .boolean (← ofOption (relate? rel a b))
  | .logical .and left right => do
    if ← truth (← eval left) then return .boolean (← truth (← eval right))
    else return .boolean false
  | .logical .or left right => do
    if ← truth (← eval left) then return .boolean true
    else return .boolean (← truth (← eval right))
  | .unary .neg _ operand => do negative (← eval operand)
  | .unary .not _ operand => do return .boolean !(← truth (← eval operand))
  | .unary .complement _ operand => do complement (← eval operand)
  | .increment op side target => do
    let old ← read (← slotOf target)
    let d ← changed op old
    write (← slotOf target) d
    return match side with
      | .before => d
      | .after => old
  | .conditional _ cond thenPart elsePart => do
    if ← truth (← eval cond) then eval thenPart else eval elsePart
  | .new type => new type
  | .call method args => do
    let m ← ofOption method
    call m.name (← evals args)
  | .group inner => eval inner

def evals : List Expr → Eval (List Datum)
  | [] => return []
  | e :: es => do
    let d ← eval e
    return d :: (← evals es)

end

inductive Completion where
  | normal
  /-- Leaves the frame with the given number. -/
  | brk (frame : Nat)
  /-- Goes on with the frame with the given number. -/
  | cont (frame : Nat)
  | ret
  | raised (x : Raised)

inductive Result where
  | done (c : Completion) (w : World)
  /-- A loop needs more rounds than it was given. -/
  | spent
  | stuck

/-- Goes on behind a normal end. -/
def Result.andThen (r : Result) (k : World → Result) : Result :=
  match r with
  | .done .normal w => k w
  | r => r

/-- What leaves the frame ends here. -/
def Result.upTo (frame : Nat) : Result → Result
  | .done (.brk id) w => if id = frame then .done .normal w else .done (.brk id) w
  | r => r

/-- Goes on with an exception. -/
def Result.orCatch (r : Result) (k : Raised → World → Result) : Result :=
  match r with
  | .done (.raised x) w => k x w
  | r => r

/-- A finally clause behind the part that it belongs to. It runs after a normal end and before an
exception goes on; what it does itself wins over the exception. -/
def Result.withCleanup (r : Result) (cleanup : World → Result) : Result :=
  match r with
  | .done .normal w => cleanup w
  | .done (.raised x) w => (cleanup w).andThen (.done (.raised x))
  | r => r

/-- Goes on with the value of an expression. -/
def withValue {α : Type} (x : Eval α) (k : α → World → Result) (w : World) : Result :=
  match x w with
  | some (.ok a, w) => k a w
  | some (.error x, w) => .done (.raised x) w
  | none => .stuck

/-- One round of a loop. -/
inductive Round where
  | again (w : World)
  | ended (r : Result)

/-- Goes round until a round does not ask for another. -/
def rounds (round : World → Round) : Nat → World → Result
  | 0, _ => .spent
  | n + 1, w =>
    match round w with
    | .again w => rounds round n w
    | .ended r => r

/-- What a loop does behind its body. -/
def Result.inLoop (r : Result) (frame : Nat) (next onContinue : World → Round) : Round :=
  match r with
  | .done .normal w => next w
  | .done (.cont id) w => if id = frame then onContinue w else .ended (.done (.cont id) w)
  | r => .ended (r.upTo frame)

/-- Another round if a condition holds. -/
def test (cond : Expr) (yes : World → Round) (w : World) : Round :=
  match (eval cond >>= truth) w with
  | some (.ok true, w) => yes w
  | some (.ok false, w) => .ended (.done .normal w)
  | some (.error x, w) => .ended (.done (.raised x) w)
  | none => .ended .stuck

/-- A loop without a condition always goes on. -/
def testOr (cond : Option Expr) (yes : World → Round) : World → Round :=
  match cond with
  | some c => test c yes
  | none => yes

/-- The value of a variable that was declared without one. -/
def zero : Ty → Datum
  | .int => .int 0
  | .long => .long 0
  | .double => .double 0
  | .boolean => .boolean false
  | .char => .char (Char.ofNat 0)
  | _ => .null

def effects : List Expr → Eval Unit
  | [] => return
  | e :: es => do
    let _ ← eval e
    effects es

/-- The part of a for loop between two rounds. -/
def advance (update : List Expr) (w : World) : Round :=
  match effects update w with
  | some (.ok (), w) => .again w
  | some (.error x, w) => .ended (.done (.raised x) w)
  | none => .ended .stuck

def holds (key : Int32) : SwitchGroup → Bool
  | .mk values _ _ => values.contains key

def isDefault : SwitchGroup → Bool
  | .mk _ isDefault _ => isDefault

/-- How many groups a switch passes over: those before the group of the key, or before the default
group if the key has none, or all. -/
def passed (key : Int32) (groups : List SwitchGroup) : Nat :=
  ((groups.findIdx? (holds key)).or (groups.findIdx? isDefault)).getD groups.length

/-- Whether a catch clause for a type takes objects of a class. -/
def takes (type : Ty) (cls : Class) : Bool :=
  match type with
  | .ref caught => cls.isSubclassOf caught
  | _ => false

mutual

/-- Evaluates a statement, each loop in it for less than `n` rounds at a time. -/
def exec (n : Nat) : Stmt → World → Result
  | .expr e => withValue (eval e) fun _ => .done .normal
  | .var v none => fun w => .done .normal (w.set v.slot (zero v.type))
  | .var v (some init) => withValue (eval init) fun d w => .done .normal (w.set v.slot d)
  | .block body => execs n body
  | .ifElse cond thenBranch none =>
    withValue (eval cond >>= truth) fun b w => if b then exec n thenBranch w else .done .normal w
  | .ifElse cond thenBranch (some elseBranch) =>
    withValue (eval cond >>= truth) fun b w =>
      if b then exec n thenBranch w else exec n elseBranch w
  | .whileLoop frame cond body =>
    rounds (test cond fun w => (exec n body w).inLoop frame.id .again .again) n
  | .doLoop frame body cond =>
    rounds (fun w => (exec n body w).inLoop frame.id (test cond .again) .again) n
  | .forLoop frame init cond update body =>
    fun w => (execs n init w).andThen <| rounds (testOr cond fun w =>
      (exec n body w).inLoop frame.id (advance update) (advance update)) n
  | .switch _ frame subject groups =>
    withValue (eval subject >>= number) fun key w =>
      (execGroups n groups (passed key groups) w).upTo frame.id
  | .brk _ (some id) => .done (.brk id)
  | .brk _ none => fun _ => .stuck
  | .cont _ (some id) => .done (.cont id)
  | .cont _ none => fun _ => .stuck
  | .ret => .done .ret
  | .throw value =>
    withValue (eval value) fun d w =>
      match d with
      | .null => .done (.raised ⟨w.made, .nullPointerException⟩) { w with made := w.made + 1 }
      | .object id cls => .done (.raised ⟨id, cls⟩) w
      | _ => .stuck
  | .tryCatch body catches cleanup => fun w =>
    ((execs n body w).orCatch (execCatches n catches)).withCleanup (execCleanup n cleanup)
  | .empty => .done .normal

def execs (n : Nat) : List Stmt → World → Result
  | [] => .done .normal
  | s :: ss => fun w => (exec n s w).andThen (execs n ss)

/-- The bodies of groups one after the other, behind the first `skip` of them. -/
def execGroups (n : Nat) : List SwitchGroup → Nat → World → Result
  | [], _ => .done .normal
  | _ :: groups, skip + 1 => execGroups n groups skip
  | .mk _ _ body :: groups, 0 => fun w => (execs n body w).andThen (execGroups n groups 0)

/-- The first catch clause that takes an exception; if there is none it goes on. -/
def execCatches (n : Nat) : List CatchClause → Raised → World → Result
  | [], x => .done (.raised x)
  | .mk param body :: clauses, x => fun w =>
    if takes param.type x.cls then execs n body (w.set param.slot x.datum)
    else execCatches n clauses x w

def execCleanup (n : Nat) : Cleanup → World → Result
  | .absent => .done .normal
  | .mk _ body => execs n body

end

/-- How a program ends, as its user sees it. -/
inductive Outcome where
  | finished
  | uncaught (cls : Class)
  deriving DecidableEq, Repr

def Completion.outcome? : Completion → Option Outcome
  | .normal | .ret => some .finished
  | .raised x => some (.uncaught x.cls)
  | .brk _ | .cont _ => none

/-- A program ends with an outcome after printing the given pieces. -/
def Evaluates (program : List Stmt) (printed : List String) (outcome : Outcome) : Prop :=
  ∃ n c w, execs n program .start = .done c w ∧ w.printed = printed ∧ c.outcome? = some outcome

end Jminus.Checked.Meaning
