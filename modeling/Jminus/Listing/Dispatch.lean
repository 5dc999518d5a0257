import Jminus.Listing

/-!
Which instruction a switch becomes.

A jump table takes space for every value between the least and the greatest case, a lookup takes
time for every case. Time counts three times as much as space, and the cheaper one is taken.
-/
namespace Jminus

inductive Strategy where
  | sparse | dense
  deriving DecidableEq, Repr

def Strategy.name : Strategy → String
  | .sparse => "sparse"
  | .dense => "dense"

structure Plan where
  strategy : Strategy := .sparse
  lo : Int32 := 0
  hi : Int32 := 0
  cases : Nat := 0
  tableSpace : Int64 := 0
  tableTime : Int64 := 0
  lookupSpace : Int64 := 0
  lookupTime : Int64 := 0
  deriving DecidableEq, Repr

namespace Plan

def tableCost (p : Plan) : Int64 := p.tableSpace + 3 * p.tableTime

def lookupCost (p : Plan) : Int64 := p.lookupSpace + 3 * p.lookupTime

def least (v : Int32) (vs : List Int32) : Int32 := vs.foldl (fun a b => if b < a then b else a) v

def greatest (v : Int32) (vs : List Int32) : Int32 :=
  vs.foldl (fun a b => if a < b then b else a) v

/-- The plan for the given case values. Without any there is nothing to weigh. -/
def choose (values : List Int32) : Plan :=
  match values with
  | [] => {}
  | v :: vs =>
    let lo := least v vs
    let hi := greatest v vs
    let cases := values.length
    let plan : Plan :=
      { lo, hi, cases
        tableSpace := 5 + (hi.toInt64 - lo.toInt64)
        tableTime := 3
        lookupSpace := 3 + 2 * Int64.ofNat cases
        lookupTime := Int64.ofNat cases }
    if plan.tableCost ≤ plan.lookupCost then { plan with strategy := .dense } else plan

def fields (p : Plan) : List (String × String) :=
  [("strategy", p.strategy.name), ("cases", toString p.cases), ("low", toString p.lo.toInt),
   ("high", toString p.hi.toInt), ("tableCost", toString p.tableCost.toInt),
   ("lookupCost", toString p.lookupCost.toInt)]

/-- The targets of a jump table: the default label, except at the values of `pairs`. -/
def targets (lo hi : Int32) (dflt : Label) (pairs : List (Int32 × Label)) : List Label :=
  pairs.foldl (fun ts p => ts.set (p.1.toInt - lo.toInt).toNat p.2)
    (List.replicate (hi.toInt - lo.toInt + 1).toNat dflt)

def sorted (pairs : List (Int32 × Label)) : List (Int32 × Label) :=
  pairs.mergeSort fun a b => a.1 ≤ b.1

/-- Appends the instruction that sends each value of `pairs` to its label and all others to
`dflt`. -/
def emit (p : Plan) (pairs : List (Int32 × Label)) (dflt : Label) (l : Listing) :
    Except Fault Listing :=
  match p.strategy with
  | .sparse => l.addSparse dflt pairs.length (sorted pairs)
  | .dense => l.addDense dflt p.lo p.hi (targets p.lo p.hi dflt (sorted pairs))

end Plan

end Jminus
