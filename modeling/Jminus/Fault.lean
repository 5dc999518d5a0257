import Jminus.Listing.Label
import Jminus.Opcode
import Jminus.Text.Quoted

/-!
What can go wrong inside the program itself, as opposed to inside its input.

A broken rule has a message. A missing value has none: what was asked for is not there, because a
value is of another kind, an index points outside, a name was never resolved or a divisor is zero.
-/
namespace Jminus

inductive Fault where
  -- loops and switches
  | flowUnderflow
  | flowUnbalanced
  | flowLeftOpen (n : Nat)
  -- labels
  | placingAbsent
  | placedTwice (l : Label)
  | unplacedInCode (pc : Nat) (op : Opcode) (l : Label)
  | unplacedInTable (l : Label)
  | unplaced (l : Label)
  -- instructions
  | notBranch (op : Opcode)
  | denseSize (lo hi : Int32) (targets : Nat)
  | sparseSize (pairs : Nat) (count : Int)
  | sparseUnsorted
  | breakWithoutTarget (line : Nat)
  | continueWithoutTarget (line : Nat)
  | noInstruction (op : Operator) (t : Ty)
  -- descriptors and texts
  | malformedDescriptor (text : String)
  | truncatedDescriptor
  | unknownClassInDescriptor (text : String)
  | cannotFormat (kind : String) (t : Ty)
  -- execution
  | stackUnderflow (pc : Nat)
  | unknownClass (name : String)
  | throwing (kind : String)
  | unknownMethod (name : String)
  | cannotExecute (op : Opcode)
  | notIntOperation (op : Opcode)
  | notLongOperation (op : Opcode)
  | notLongShift (op : Opcode)
  | notDoubleOperation (op : Opcode)
  | notIntComparison (op : Opcode)
  -- missing values
  | wrongKind
  | outOfBounds
  | unresolved
  | zeroDivisor
  deriving DecidableEq, Repr

namespace Fault

/-- The text of a broken rule; a missing value has none. -/
def reason? : Fault → Option String
  | .flowUnderflow => some "flow stack underflow"
  | .flowUnbalanced => some "unbalanced flow stack"
  | .flowLeftOpen n => some (toString n ++ " flow frames left open")
  | .placingAbsent => some "placing an absent label"
  | .placedTwice l => some ("label " ++ l.render ++ " placed twice")
  | .unplacedInCode pc op l =>
    some ("instruction " ++ toString pc ++ " (" ++ op.name ++ ") refers to unplaced label " ++
      l.render)
  | .unplacedInTable l => some ("exception handler refers to unplaced label " ++ l.render)
  | .unplaced l => some ("unplaced label " ++ l.render)
  | .notBranch op => some (op.name ++ " is not a branch")
  | .denseSize lo hi targets =>
    some ("dense dispatch over " ++ toString lo.toInt ++ ".." ++ toString hi.toInt ++ " with " ++
      toString targets ++ " targets")
  | .sparseSize pairs count =>
    some ("sparse dispatch with " ++ toString pairs ++ " pairs, expected " ++ toString count)
  | .sparseUnsorted => some "sparse dispatch pairs are not sorted"
  | .breakWithoutTarget line => some ("break on line " ++ toString line ++ " has no target label")
  | .continueWithoutTarget line =>
    some ("continue on line " ++ toString line ++ " has no target label")
  | .noInstruction op t => some ("no instruction for " ++ op.image ++ " on " ++ t.name)
  | .malformedDescriptor text => some ("malformed descriptor " ++ Text.Quoted.quote text)
  | .truncatedDescriptor => some "truncated descriptor"
  | .unknownClassInDescriptor text =>
    some ("unknown class in descriptor " ++ Text.Quoted.quote text)
  | .cannotFormat kind t => some ("cannot format " ++ kind ++ " as " ++ t.name)
  | .stackUnderflow pc => some ("operand stack underflow at " ++ toString pc)
  | .unknownClass name => some ("unknown class " ++ name)
  | .throwing kind => some ("throwing " ++ kind)
  | .unknownMethod name => some ("unknown method " ++ name)
  | .cannotExecute op => some ("cannot execute " ++ op.name)
  | .notIntOperation op => some ("not an int operation: " ++ op.name)
  | .notLongOperation op => some ("not a long operation: " ++ op.name)
  | .notLongShift op => some ("not a long shift: " ++ op.name)
  | .notDoubleOperation op => some ("not a double operation: " ++ op.name)
  | .notIntComparison op => some ("not an int comparison: " ++ op.name)
  | .wrongKind | .outOfBounds | .unresolved | .zeroDivisor => none

def message? (f : Fault) : Option String := f.reason?.map ("internal error: " ++ ·)

end Fault

end Jminus
