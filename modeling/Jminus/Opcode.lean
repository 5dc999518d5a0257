import Jminus.Ty

/-!
The operations of the target machine.

Arithmetic comes in families, one member for each kind of number; a member's name is the letter of
its kind before the name of the family. The place in `Opcode.table` is the number of an opcode;
all numbers outside the table share the opcode `undefined`.
-/
namespace Jminus

inductive Num where
  | int | long | double
  deriving DecidableEq, Repr

inductive Width where
  | int | long
  deriving DecidableEq, Repr

/-- What a local holds: a number, or a reference. -/
inductive Cell where
  | int | long | double | ref
  deriving DecidableEq, Repr

def Num.letter : Num → String
  | .int => "I"
  | .long => "L"
  | .double => "D"

def Width.letter : Width → String
  | .int => "I"
  | .long => "L"

def Cell.letter : Cell → String
  | .int => "I"
  | .long => "L"
  | .double => "D"
  | .ref => "A"

inductive Branch where
  /-- If an int relates to zero in this way. -/
  | ifZero (rel : Relation)
  /-- If two ints relate in this way. -/
  | ifInt (rel : Relation)
  /-- If two references are the same, or if they are not. -/
  | ifRef (same : Bool)
  | goto
  deriving DecidableEq, Repr

inductive Opcode where
  | nop | aconstNull | ldc
  | load (cell : Cell)
  | store (cell : Cell)
  | pop | dup
  | arith (kind : Num) (op : ArithOp)
  | neg (kind : Num)
  | shift (width : Width) (op : ShiftOp)
  | bit (width : Width) (op : BitOp)
  | lcmp
  /-- Compares doubles; an unordered pair counts as less. -/
  | dcmpl
  /-- Compares doubles; an unordered pair counts as greater. -/
  | dcmpg
  | branch (b : Branch)
  | tableSwitch | lookupSwitch
  | new | athrow | invokeStatic | ret
  | undefined
  deriving DecidableEq, Repr

/-- The branch taken exactly when this one is not; there is none for `goto`. -/
def Branch.negated? : Branch → Option Branch
  | .ifZero rel => some (.ifZero rel.negate)
  | .ifInt rel => some (.ifInt rel.negate)
  | .ifRef same => some (.ifRef !same)
  | .goto => none

namespace Opcode

def table : List Opcode :=
  [.nop, .aconstNull, .ldc,
   .load .int, .load .long, .load .double, .load .ref,
   .store .int, .store .long, .store .double, .store .ref,
   .pop, .dup,
   .arith .int .add, .arith .long .add, .arith .double .add,
   .arith .int .sub, .arith .long .sub, .arith .double .sub,
   .arith .int .mul, .arith .long .mul, .arith .double .mul,
   .arith .int .div, .arith .long .div, .arith .double .div,
   .arith .int .rem, .arith .long .rem, .arith .double .rem,
   .neg .int, .neg .long, .neg .double,
   .shift .int .shl, .shift .long .shl, .shift .int .shr, .shift .long .shr,
   .shift .int .ushr, .shift .long .ushr,
   .bit .int .and, .bit .long .and, .bit .int .or, .bit .long .or,
   .bit .int .xor, .bit .long .xor,
   .lcmp, .dcmpl, .dcmpg,
   .branch (.ifZero .eq), .branch (.ifZero .ne), .branch (.ifZero .lt),
   .branch (.ifZero .ge), .branch (.ifZero .gt), .branch (.ifZero .le),
   .branch (.ifInt .eq), .branch (.ifInt .ne), .branch (.ifInt .lt),
   .branch (.ifInt .ge), .branch (.ifInt .gt), .branch (.ifInt .le),
   .branch (.ifRef true), .branch (.ifRef false), .branch .goto,
   .tableSwitch, .lookupSwitch,
   .new, .athrow, .invokeStatic, .ret]

def arithName : ArithOp → String
  | .add => "ADD" | .sub => "SUB" | .mul => "MUL" | .div => "DIV" | .rem => "REM"

def shiftName : ShiftOp → String
  | .shl => "SHL" | .shr => "SHR" | .ushr => "USHR"

def bitName : BitOp → String
  | .and => "AND" | .or => "OR" | .xor => "XOR"

def relationName : Relation → String
  | .eq => "EQ" | .ne => "NE" | .lt => "LT" | .ge => "GE" | .gt => "GT" | .le => "LE"

def name : Opcode → String
  | .nop => "NOP"
  | .aconstNull => "ACONST_NULL"
  | .ldc => "LDC"
  | .load cell => cell.letter ++ "LOAD"
  | .store cell => cell.letter ++ "STORE"
  | .pop => "POP"
  | .dup => "DUP"
  | .arith kind op => kind.letter ++ arithName op
  | .neg kind => kind.letter ++ "NEG"
  | .shift width op => width.letter ++ shiftName op
  | .bit width op => width.letter ++ bitName op
  | .lcmp => "LCMP"
  | .dcmpl => "DCMPL"
  | .dcmpg => "DCMPG"
  | .branch (.ifZero rel) => "IF" ++ relationName rel
  | .branch (.ifInt rel) => "IF_ICMP" ++ relationName rel
  | .branch (.ifRef true) => "IF_ACMPEQ"
  | .branch (.ifRef false) => "IF_ACMPNE"
  | .branch .goto => "GOTO"
  | .tableSwitch => "TABLESWITCH"
  | .lookupSwitch => "LOOKUPSWITCH"
  | .new => "NEW"
  | .athrow => "ATHROW"
  | .invokeStatic => "INVOKESTATIC"
  | .ret => "RETURN"
  | .undefined => "???"

def ofName? (text : String) : Option Opcode := table.find? (·.name == text)

def ofCode (n : Int) : Opcode :=
  if n < 0 then .undefined else table[n.toNat]?.getD .undefined

/-- The conditional branch taken exactly when this one is not. -/
def negated? : Opcode → Option Opcode
  | .branch b => b.negated?.map .branch
  | _ => none

def isBranch : Opcode → Bool
  | .branch _ => true
  | _ => false

end Opcode

/-- What a local of a type holds. -/
def Ty.cell : Ty → Cell
  | .int | .boolean | .char => .int
  | .long => .long
  | .double => .double
  | _ => .ref

/-- The kind of number in which operands of a type are computed; references have none of their
own. -/
def Ty.num : Ty → Num
  | .long => .long
  | .double => .double
  | _ => .int

end Jminus
