import Jminus.Decimal.Binary
import Jminus.Fault

/-!
Arithmetic of the machine.

Ints and longs wrap. Division goes toward zero, the remainder has the sign of the dividend, and of
the count of a shift only the low five or six bits matter. Which operation an opcode stands for is
decided by `ofInts`, `ofLongs`, `ofShift` and `ofDoubles`; each refuses the opcodes of the others.
-/
namespace Jminus

def Relation.holds (rel : Relation) (a b : Int32) : Bool :=
  match rel with
  | .eq => a = b
  | .ne => a ≠ b
  | .lt => a < b
  | .ge => b ≤ a
  | .gt => b < a
  | .le => a ≤ b

namespace Arithmetic

def int (op : ArithOp) (a b : Int32) : Except Fault Int32 :=
  match op with
  | .add => .ok (a + b)
  | .sub => .ok (a - b)
  | .mul => .ok (a * b)
  | .div => if b = 0 then .error .zeroDivisor else .ok (a / b)
  | .rem => if b = 0 then .error .zeroDivisor else .ok (a % b)

def long (op : ArithOp) (a b : Int64) : Except Fault Int64 :=
  match op with
  | .add => .ok (a + b)
  | .sub => .ok (a - b)
  | .mul => .ok (a * b)
  | .div => if b = 0 then .error .zeroDivisor else .ok (a / b)
  | .rem => if b = 0 then .error .zeroDivisor else .ok (a % b)

def double (op : ArithOp) (a b : Float) : Float :=
  match op with
  | .add => a + b
  | .sub => a - b
  | .mul => a * b
  | .div => a / b
  | .rem => Decimal.remainder a b

def intBit (op : BitOp) (a b : Int32) : Int32 :=
  match op with
  | .and => a &&& b
  | .or => a ||| b
  | .xor => a ^^^ b

def longBit (op : BitOp) (a b : Int64) : Int64 :=
  match op with
  | .and => a &&& b
  | .or => a ||| b
  | .xor => a ^^^ b

def intShift (op : ShiftOp) (a b : Int32) : Int32 :=
  let count := b &&& 31
  match op with
  | .shl => a <<< count
  | .shr => a >>> count
  | .ushr => (a.toUInt32 >>> count.toUInt32).toInt32

def longShift (op : ShiftOp) (a : Int64) (b : Int32) : Int64 :=
  let count := (b &&& 63).toInt64
  match op with
  | .shl => a <<< count
  | .shr => a >>> count
  | .ushr => (a.toUInt64 >>> count.toUInt64).toInt64

/-- The order of two longs as an int: below zero, zero or above. -/
def longOrder (a b : Int64) : Int32 :=
  if a < b then -1 else if b < a then 1 else 0

/-- The order of two doubles; `unordered` if one of them is not a number. -/
def doubleOrder (unordered : Int32) (a b : Float) : Int32 :=
  if a.isNaN || b.isNaN then unordered
  else if a < b then -1
  else if b < a then 1
  else 0

def ofInts (op : Opcode) (a b : Int32) : Except Fault Int32 :=
  match op with
  | .arith .int op => int op a b
  | .bit .int op => .ok (intBit op a b)
  | .shift .int op => .ok (intShift op a b)
  | op => .error (.notIntOperation op)

def ofLongs (op : Opcode) (a b : Int64) : Except Fault Int64 :=
  match op with
  | .arith .long op => long op a b
  | .bit .long op => .ok (longBit op a b)
  | op => .error (.notLongOperation op)

/-- The operation of an opcode on a long and a count. -/
def ofShift (op : Opcode) (a : Int64) (b : Int32) : Except Fault Int64 :=
  match op with
  | .shift .long op => .ok (longShift op a b)
  | op => .error (.notLongShift op)

def ofDoubles (op : Opcode) (a b : Float) : Except Fault Float :=
  match op with
  | .arith .double op => .ok (double op a b)
  | op => .error (.notDoubleOperation op)

/-- The comparison of an opcode. One with zero compares whatever it is given. -/
def ofComparison (op : Opcode) (a b : Int32) : Except Fault Bool :=
  match op with
  | .branch (.ifZero rel) | .branch (.ifInt rel) => .ok (rel.holds a b)
  | op => .error (.notIntComparison op)

end Arithmetic

end Jminus
