import Jminus.Listing.Dispatch

/-!
Code on its way into a listing: a sequence of items, each one call on the listing it ends in.

Code is made by functions that answer with items and count the labels they use up. Making the same
part twice gives two copies with labels of their own.
-/
namespace Jminus

inductive Item where
  | label (l : Label)
  | plain (op : Opcode) (arg : Operand)
  | jump (b : Branch) (target : Label)
  /-- The choice of a switch on the given line. -/
  | dispatch (line : Nat) (pairs : List (Int32 × Label)) (dflt : Label)
  | handler (h : Handler)

abbrev Code := List Item

/-- Making code: the state is the number of labels used so far. -/
abbrev Gen := StateT Nat (Except Fault)

namespace Code

def fresh : Gen Label := do
  let n ← get
  set (n + 1)
  return ⟨(n + 1 : Nat)⟩

def op (o : Opcode) : Item := .plain o .absent

def ldc (v : Value) : Item := .plain .ldc (.const v)

def load (cell : Cell) (slot : Nat) : Item := .plain (.load cell) (.const (.slot slot))

def store (cell : Cell) (slot : Nat) : Item := .plain (.store cell) (.const (.slot slot))

/-- A call. Code never compares methods, so all of them have one identity. -/
def call (m : Method) : Item := .plain .invokeStatic (.const (.method (.constant 0) m))

def goto (target : Label) : Item := .jump .goto target

end Code

namespace Item

def plan (pairs : List (Int32 × Label)) : Plan := Plan.choose (pairs.map (·.1))

def emit (l : Listing) : Item → Except Fault Listing
  | .label name => l.place name
  | .plain op arg => .ok (l.addPlain op arg)
  | .jump b target => .ok (l.push (.branch b target))
  | .dispatch _ pairs dflt => (plan pairs).emit pairs dflt l
  | .handler h => .ok (l.addHandler h)

/-- The line and the plan of a switch. -/
def planned? : Item → Option (Nat × Plan)
  | .dispatch line pairs _ => some (line, plan pairs)
  | _ => none

end Item

/-- The listing of a sequence of items. -/
def Code.assemble (code : Code) : Except Fault Listing := code.foldlM Item.emit .empty

def Code.plans (code : Code) : List (Nat × Plan) := code.filterMap Item.planned?

end Jminus
