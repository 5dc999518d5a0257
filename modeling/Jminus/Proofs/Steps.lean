import Jminus.Proofs.Assembly
import Jminus.Proofs.Descriptor
import Mathlib

/-!
Steps of the machine.

A configuration is what the next instructions depend on; the rest of a machine only counts and
records. Each instruction has one lemma that says from which configuration it leads to which one.
-/
namespace Jminus.Machine

structure Memory where
  locals : Array Value
  /-- The latest piece comes first. -/
  output : List String
  made : Nat

structure Config where
  pc : Nat
  stack : List Value
  mem : Memory

def memory (m : Machine) : Memory := ⟨m.locals, m.output, m.made⟩

def config (m : Machine) : Config := ⟨m.pc, m.stack, m.memory⟩

def Config.machine (c : Config) (steps : Nat) (caught : Array (Class × Label)) : Machine :=
  { pc := c.pc, stack := c.stack, locals := c.mem.locals, output := c.mem.output, steps
    made := c.mem.made, caught }

variable {code : Listing} {k k' n pc : Nat} {c c' c'' : Config} {stack : List Value} {mem : Memory}

/-- The given number of instructions, with no limit on them. -/
inductive Steps (code : Listing) : Nat → Machine → Machine → Prop
  | refl (m : Machine) : Steps code 0 m m
  | step {k : Nat} {m m' m'' : Machine} (h : tick code 0 m = .running m')
      (hrest : Steps code k m' m'') : Steps code (k + 1) m m''

variable {m m' : Machine} {lo hi : Nat} {x : Thrown} {ins : Instruction}

theorem Steps.trans {m'' : Machine} (h : Steps code k m m') (h' : Steps code k' m' m'') :
    Steps code (k + k') m m'' := by
  induction h with
  | refl => simpa using h'
  | step htick _ ih =>
    rw [Nat.add_right_comm]
    exact .step htick (ih h')

theorem Steps.take (h : Steps code k m m') (hle : n ≤ k) : ∃ m'', Steps code n m m'' := by
  induction h generalizing n with
  | refl m =>
    obtain rfl : n = 0 := by omega
    exact ⟨m, .refl m⟩
  | step htick _ ih =>
    cases n with
    | zero => exact ⟨_, .refl _⟩
    | succ n =>
      obtain ⟨m'', hm⟩ := ih (by omega : n ≤ _)
      exact ⟨m'', .step htick hm⟩

/-- A machine that stops has not gone further before. -/
theorem run_of_steps (h : Steps code k m m') (fuel : Nat) :
    run code 0 (k + fuel) m = run code 0 fuel m' := by
  induction h with
  | refl => simp
  | step htick _ ih =>
    rw [Nat.add_right_comm, run, htick]
    exact ih

/-- From one configuration to another, in at least `least` instructions. -/
def Goes (code : Listing) (least : Nat) (c c' : Config) : Prop :=
  ∀ m : Machine, m.config = c →
    ∃ k m', least ≤ k ∧ Steps code k m m' ∧ m'.config = c'

/-- At least `n` instructions follow. -/
def Runs (code : Listing) (n : Nat) (c : Config) : Prop :=
  ∀ m : Machine, m.config = c → ∃ m', Steps code n m m'

/-- An instruction between `lo` and `hi` throws an object. -/
def Throws (code : Listing) (lo hi : Nat) (c : Config) (x : Thrown) (mem : Memory) : Prop :=
  ∀ m : Machine, m.config = c → ∃ k m' m'', Steps code k m m' ∧ lo ≤ m'.pc ∧ m'.pc < hi ∧
    tick code 0 m' = unwind code x m'.pc m'' ∧ m''.memory = mem

theorem Goes.refl (code : Listing) (c : Config) : Goes code 0 c c :=
  fun m hm => ⟨0, m, Nat.le_refl 0, .refl m, hm⟩

theorem Goes.trans (h : Goes code k c c') (h' : Goes code k' c' c'') :
    Goes code (k + k') c c'' := by
  intro m hm
  obtain ⟨i, m', hi, hsteps, hm'⟩ := h m hm
  obtain ⟨j, m'', hj, hsteps', hm''⟩ := h' m' hm'
  exact ⟨i + j, m'', by omega, hsteps.trans hsteps', hm''⟩

theorem Goes.weaken (h : Goes code k c c') (hle : n ≤ k) : Goes code n c c' := by
  intro m hm
  obtain ⟨i, m', hi, hsteps, hm'⟩ := h m hm
  exact ⟨i, m', hle.trans hi, hsteps, hm'⟩

/-- What goes on runs at least as long. -/
theorem Goes.runs (h : Goes code k c c') (hruns : Runs code n c') : Runs code (k + n) c := by
  intro m hm
  obtain ⟨i, m', hi, hsteps, hm'⟩ := h m hm
  obtain ⟨m'', hsteps'⟩ := hruns m' hm'
  exact (hsteps.trans hsteps').take (by omega)

theorem Runs.zero (code : Listing) (c : Config) : Runs code 0 c := fun m _ => ⟨m, .refl m⟩

theorem Runs.less (h : Runs code k c) (hle : n ≤ k) : Runs code n c := by
  intro m hm
  obtain ⟨m', hsteps⟩ := h m hm
  exact hsteps.take hle

theorem Goes.throws (h : Goes code k c c') (hthrows : Throws code lo hi c' x mem) :
    Throws code lo hi c x mem := by
  intro m hm
  obtain ⟨i, m', hi, hsteps, hm'⟩ := h m hm
  obtain ⟨j, m₁, m₂, hsteps', hrest⟩ := hthrows m' hm'
  exact ⟨i + j, m₁, m₂, hsteps.trans hsteps', hrest⟩

theorem Throws.widen {lo' hi' : Nat} (h : Throws code lo hi c x mem) (hlo : lo' ≤ lo)
    (hhi : hi ≤ hi') : Throws code lo' hi' c x mem := by
  intro m hm
  obtain ⟨j, m₁, m₂, hsteps, hge, hlt, hrest⟩ := h m hm
  exact ⟨j, m₁, m₂, hsteps, hlo.trans hge, lt_of_lt_of_le hlt hhi, hrest⟩

/-- What an instruction answers and leaves behind. -/
def Does (code : Listing) (ins : Instruction) (c : Config) (thrown : Option Thrown) (c' : Config) :
    Prop :=
  ∀ steps caught, (perform code ins).run (c.machine steps caught) =
    .ok thrown (c'.machine steps caught)

/-- The next tick, and no more than it, takes `c` to `c'`, unless the limit on steps is reached. For
an object that is thrown on the way a handler is looked up from there. -/
def Ticks (code : Listing) (c : Config) (thrown : Option Thrown) (c' : Config) : Prop :=
  ∀ limit m, m.config = c → tick code limit m =
    if 0 < limit ∧ limit ≤ m.steps then .stopped .stepLimit m
    else
      match thrown with
      | none => .running (c'.machine (m.steps + 1) m.caught)
      | some x => unwind code x c.pc (c'.machine (m.steps + 1) m.caught)

/-- An instruction that is done is one tick. -/
theorem ticks_of_does {thrown : Option Thrown} (hins : code.code[pc]? = some ins)
    (hdoes : Does code ins ⟨pc + 1, stack, mem⟩ thrown c') :
    Ticks code ⟨pc, stack, mem⟩ thrown c' := by
  intro limit m hm
  obtain ⟨rfl, rfl, rfl⟩ : pc = m.pc ∧ stack = m.stack ∧ mem = m.memory := by
    cases hm
    exact ⟨rfl, rfl, rfl⟩
  have h : (perform code ins).run { m with pc := m.pc + 1, steps := m.steps + 1 } =
      .ok thrown (c'.machine (m.steps + 1) m.caught) := hdoes (m.steps + 1) m.caught
  simp only [tick, hins, h]
  cases thrown <;> rfl

theorem Ticks.goes (h : Ticks code c none c') : Goes code 1 c c' := by
  intro m hm
  have htick := h 0 m hm
  rw [if_neg fun hlimit => Nat.lt_irrefl 0 hlimit.1] at htick
  exact ⟨1, _, Nat.le_refl 1, .step htick (.refl _), rfl⟩

theorem Ticks.throws (h : Ticks code c (some x) c') :
    Throws code c.pc (c.pc + 1) c x c'.mem := by
  intro m hm
  have htick := h 0 m hm
  have hpc : m.pc = c.pc := congrArg Config.pc hm
  rw [if_neg fun hlimit => Nat.lt_irrefl 0 hlimit.1, ← hpc] at htick
  exact ⟨0, m, _, .refl m, by omega, by omega, htick, rfl⟩

theorem goes_of_does (hins : code.code[pc]? = some ins)
    (hdoes : Does code ins ⟨pc + 1, stack, mem⟩ none c') : Goes code 1 ⟨pc, stack, mem⟩ c' :=
  (ticks_of_does hins hdoes).goes

def Memory.set (mem : Memory) (slot : Nat) (v : Value) : Memory :=
  { mem with locals := mem.locals.setIfInBounds slot v }

section Actions

variable {steps : Nat} {caught : Array (Class × Label)} {v : Value} {slot : Nat}

@[simp] theorem run_push :
    (push v).run (Config.machine ⟨pc, stack, mem⟩ steps caught) =
      .ok () (Config.machine ⟨pc, v :: stack, mem⟩ steps caught) := rfl

@[simp] theorem run_pop :
    pop.run (Config.machine ⟨pc, v :: stack, mem⟩ steps caught) =
      .ok v (Config.machine ⟨pc, stack, mem⟩ steps caught) := rfl

@[simp] theorem run_popInt {a : Int32} :
    popInt.run (Config.machine ⟨pc, .int a :: stack, mem⟩ steps caught) =
      .ok a (Config.machine ⟨pc, stack, mem⟩ steps caught) := rfl

@[simp] theorem run_popLong {a : Int64} :
    popLong.run (Config.machine ⟨pc, .long a :: stack, mem⟩ steps caught) =
      .ok a (Config.machine ⟨pc, stack, mem⟩ steps caught) := rfl

@[simp] theorem run_popDouble {a : Float} :
    popDouble.run (Config.machine ⟨pc, .double a :: stack, mem⟩ steps caught) =
      .ok a (Config.machine ⟨pc, stack, mem⟩ steps caught) := rfl

@[simp] theorem run_print {text : String} :
    (print text).run (Config.machine ⟨pc, stack, mem⟩ steps caught) =
      .ok () (Config.machine ⟨pc, stack, { mem with output := text :: mem.output }⟩ steps caught) :=
  rfl

@[simp] theorem run_create {cls : Class} :
    (create cls).run (Config.machine ⟨pc, stack, mem⟩ steps caught) =
      .ok ⟨.made mem.made, cls⟩
        (Config.machine ⟨pc, stack, { mem with made := mem.made + 1 }⟩ steps caught) :=
  rfl

@[simp] theorem run_slotOf :
    (slotOf (.const (.slot slot))).run (c.machine steps caught) =
      .ok (slot : Int) (c.machine steps caught) := rfl

@[simp] theorem run_lift {α : Type} {x : α} {m : Machine} : (lift (.ok x)).run m = .ok x m := rfl

theorem run_load (hv : mem.locals[slot]? = some v) :
    (load slot).run (Config.machine ⟨pc, stack, mem⟩ steps caught) =
      .ok () (Config.machine ⟨pc, v :: stack, mem⟩ steps caught) := by
  have hget : (Config.machine ⟨pc, stack, mem⟩ steps caught).locals[slot]? = some v := hv
  have hnat : ¬ (slot : Int) < 0 := by omega
  simp [load, hnat, hget]

theorem run_store (hslot : slot < mem.locals.size) :
    (store slot v).run (Config.machine ⟨pc, stack, mem⟩ steps caught) =
      .ok () (Config.machine ⟨pc, stack, mem.set slot v⟩ steps caught) := by
  have hsize : slot < (Config.machine ⟨pc, stack, mem⟩ steps caught).locals.size := hslot
  simp [store, hsize]
  rfl

theorem run_jump {l : Label} {p : Nat} (hp : code.place? l = some p) :
    (jump code l).run (Config.machine ⟨pc, stack, mem⟩ steps caught) =
      .ok () (Config.machine ⟨p, stack, mem⟩ steps caught) := by
  simp only [jump, Listing.pcOf, hp]
  rfl

end Actions

/-- A call of a method that the machine provides. -/
theorem invoke_builtin {m : Method} {builtin : Builtin} {params : List Ty} {result : Ty}
    (hbuiltin : Builtin.ofMethod? m = some builtin) (htypes : m.types = .ok (params, result)) :
    invoke m = (do
      let args ← popFor params
      let v ← builtin.call args
      if result ≠ .void then push v) := by
  rw [invoke, hbuiltin, htypes]
  rfl

section Instructions

variable {v a b : Value} {l : Label} {p : Nat} {rel : Relation}

attribute [local simp] perform plain Instruction.simple takeBranch compute popFor Builtin.call

theorem goes_ldc (h : (Code.ldc v).At code pc) :
    Goes code 1 ⟨pc, stack, mem⟩ ⟨pc + 1, v :: stack, mem⟩ :=
  goes_of_does h fun _ _ => rfl

theorem goes_null (h : (Code.op .aconstNull).At code pc) :
    Goes code 1 ⟨pc, stack, mem⟩ ⟨pc + 1, .null :: stack, mem⟩ :=
  goes_of_does h fun _ _ => rfl

theorem goes_dup (h : (Code.op .dup).At code pc) :
    Goes code 1 ⟨pc, v :: stack, mem⟩ ⟨pc + 1, v :: v :: stack, mem⟩ :=
  goes_of_does h fun _ _ => rfl

theorem goes_pop (h : (Code.op .pop).At code pc) :
    Goes code 1 ⟨pc, v :: stack, mem⟩ ⟨pc + 1, stack, mem⟩ :=
  goes_of_does h fun _ _ => rfl

variable {cell : Cell} {slot : Nat} {m : Int32} {x y : Float} {o : ArithOp} {s : String} {t : Ty}

theorem goes_load (h : (Code.load cell slot).At code pc) (hv : mem.locals[slot]? = some v) :
    Goes code 1 ⟨pc, stack, mem⟩ ⟨pc + 1, v :: stack, mem⟩ :=
  goes_of_does h fun _ _ => by simp [run_load hv]

theorem goes_store (h : (Code.store cell slot).At code pc) (hslot : slot < mem.locals.size) :
    Goes code 1 ⟨pc, v :: stack, mem⟩ ⟨pc + 1, stack, mem.set slot v⟩ :=
  goes_of_does h fun _ _ => by simp [run_store hslot]

theorem goes_goto (h : (Code.goto l).At code pc) (hp : code.place? l = some p) :
    Goes code 1 ⟨pc, stack, mem⟩ ⟨p, stack, mem⟩ :=
  goes_of_does h fun _ _ => by simp [run_jump hp]

/-- A branch goes there if its condition holds. -/
theorem goes_ifZero {n : Int32} (h : (Item.jump (.ifZero rel) l).At code pc)
    (hp : code.place? l = some p) :
    Goes code 1 ⟨pc, .int n :: stack, mem⟩
      ⟨if rel.holds n 0 then p else pc + 1, stack, mem⟩ := by
  refine goes_of_does h fun steps caught => ?_
  by_cases hrel : rel.holds n 0 = true
  · simp [hrel, run_jump hp]
  · simp [hrel]

theorem goes_ifInt {n : Int32} (h : (Item.jump (.ifInt rel) l).At code pc)
    (hp : code.place? l = some p) :
    Goes code 1 ⟨pc, .int n :: .int m :: stack, mem⟩
      ⟨if rel.holds m n then p else pc + 1, stack, mem⟩ := by
  refine goes_of_does h fun steps caught => ?_
  by_cases hrel : rel.holds m n = true
  · simp [hrel, run_jump hp]
  · simp [hrel]

theorem goes_ifRef {same : Bool} (h : (Item.jump (.ifRef same) l).At code pc)
    (hp : code.place? l = some p) :
    Goes code 1 ⟨pc, b :: a :: stack, mem⟩
      ⟨if a.same b = same then p else pc + 1, stack, mem⟩ := by
  refine goes_of_does h fun steps caught => ?_
  by_cases hsame : a.same b = same
  · simp [hsame, run_jump hp]
  · simp [hsame]

theorem goes_neg_int {n : Int32} (h : (Code.op (.neg .int)).At code pc) :
    Goes code 1 ⟨pc, .int n :: stack, mem⟩ ⟨pc + 1, .int (-n) :: stack, mem⟩ :=
  goes_of_does h fun _ _ => rfl

theorem goes_neg_long {n : Int64} (h : (Code.op (.neg .long)).At code pc) :
    Goes code 1 ⟨pc, .long n :: stack, mem⟩ ⟨pc + 1, .long (-n) :: stack, mem⟩ :=
  goes_of_does h fun _ _ => rfl

theorem goes_neg_double (h : (Code.op (.neg .double)).At code pc) :
    Goes code 1 ⟨pc, .double x :: stack, mem⟩ ⟨pc + 1, .double (-x) :: stack, mem⟩ :=
  goes_of_does h fun _ _ => rfl

theorem goes_lcmp {m n : Int64} (h : (Code.op .lcmp).At code pc) :
    Goes code 1 ⟨pc, .long n :: .long m :: stack, mem⟩
      ⟨pc + 1, .int (Arithmetic.longOrder m n) :: stack, mem⟩ :=
  goes_of_does h fun _ _ => rfl

theorem goes_dcmpl (h : (Code.op .dcmpl).At code pc) :
    Goes code 1 ⟨pc, .double y :: .double x :: stack, mem⟩
      ⟨pc + 1, .int (Arithmetic.doubleOrder (-1) x y) :: stack, mem⟩ :=
  goes_of_does h fun _ _ => rfl

theorem goes_dcmpg (h : (Code.op .dcmpg).At code pc) :
    Goes code 1 ⟨pc, .double y :: .double x :: stack, mem⟩
      ⟨pc + 1, .int (Arithmetic.doubleOrder 1 x y) :: stack, mem⟩ :=
  goes_of_does h fun _ _ => rfl

theorem goes_new {cls : Class} (h : (Item.plain .new (.const (.string cls.path))).At code pc) :
    Goes code 1 ⟨pc, stack, mem⟩
      ⟨pc + 1, .object (.made mem.made) cls :: stack, { mem with made := mem.made + 1 }⟩ :=
  goes_of_does h fun _ _ => by simp [Method.ofPath?_path, Thrown.value]

theorem goes_ret (h : (Code.op .ret).At code pc) :
    Goes code 1 ⟨pc, stack, mem⟩ ⟨code.code.size, stack, mem⟩ :=
  goes_of_does h fun _ _ => rfl

/-- Without an object to throw, another one is thrown. -/
theorem throws_null (h : (Code.op .athrow).At code pc) :
    Throws code pc (pc + 1) ⟨pc, .null :: stack, mem⟩ ⟨.made mem.made, .nullPointerException⟩
      { mem with made := mem.made + 1 } := by
  have hticks : Ticks code ⟨pc, .null :: stack, mem⟩ (some ⟨.made mem.made, .nullPointerException⟩)
      ⟨pc + 1, stack, { mem with made := mem.made + 1 }⟩ := ticks_of_does h fun _ _ => rfl
  exact hticks.throws

theorem throws_object {x : Thrown} (h : (Code.op .athrow).At code pc) :
    Throws code pc (pc + 1) ⟨pc, x.value :: stack, mem⟩ x mem := by
  have hticks : Ticks code ⟨pc, x.value :: stack, mem⟩ (some x) ⟨pc + 1, stack, mem⟩ :=
    ticks_of_does h fun _ _ => rfl
  exact hticks.throws

theorem ticks_arith_int {n r : Int32} (h : (Code.op (.arith .int o)).At code pc)
    (hr : Arithmetic.int o m n = .ok r) :
    Ticks code ⟨pc, .int n :: .int m :: stack, mem⟩ none ⟨pc + 1, .int r :: stack, mem⟩ := by
  refine ticks_of_does h fun _ _ => ?_
  have hzero : ((o = .div ∨ o = .rem) ∧ n = 0) = False := by
    refine eq_false ?_
    rintro ⟨rfl | rfl, rfl⟩ <;> cases hr
  simp [Arithmetic.ofInts, hr, hzero]

/-- A divisor that is zero throws before the division. -/
theorem ticks_zero_int (h : (Code.op (.arith .int o)).At code pc) (ho : o = .div ∨ o = .rem) :
    Ticks code ⟨pc, .int 0 :: .int m :: stack, mem⟩ (some ⟨.made mem.made, .arithmeticException⟩)
      ⟨pc + 1, stack, { mem with made := mem.made + 1 }⟩ :=
  ticks_of_does h fun _ _ => by simp [ho]

theorem ticks_arith_long {m n r : Int64} (h : (Code.op (.arith .long o)).At code pc)
    (hr : Arithmetic.long o m n = .ok r) :
    Ticks code ⟨pc, .long n :: .long m :: stack, mem⟩ none ⟨pc + 1, .long r :: stack, mem⟩ := by
  refine ticks_of_does h fun _ _ => ?_
  have hzero : ((o = .div ∨ o = .rem) ∧ n = 0) = False := by
    refine eq_false ?_
    rintro ⟨rfl | rfl, rfl⟩ <;> cases hr
  simp [Arithmetic.ofLongs, hr, hzero]

theorem ticks_zero_long {m : Int64} (h : (Code.op (.arith .long o)).At code pc)
    (ho : o = .div ∨ o = .rem) :
    Ticks code ⟨pc, .long 0 :: .long m :: stack, mem⟩ (some ⟨.made mem.made, .arithmeticException⟩)
      ⟨pc + 1, stack, { mem with made := mem.made + 1 }⟩ :=
  ticks_of_does h fun _ _ => by simp [ho]

theorem goes_arith_double (h : (Code.op (.arith .double o)).At code pc) :
    Goes code 1 ⟨pc, .double y :: .double x :: stack, mem⟩
      ⟨pc + 1, .double (Arithmetic.double o x y) :: stack, mem⟩ :=
  goes_of_does h fun _ _ => rfl

theorem goes_bit_int {o : BitOp} {n : Int32} (h : (Code.op (.bit .int o)).At code pc) :
    Goes code 1 ⟨pc, .int n :: .int m :: stack, mem⟩
      ⟨pc + 1, .int (Arithmetic.intBit o m n) :: stack, mem⟩ :=
  goes_of_does h fun _ _ => by simp [Arithmetic.ofInts]

theorem goes_bit_long {o : BitOp} {m n : Int64} (h : (Code.op (.bit .long o)).At code pc) :
    Goes code 1 ⟨pc, .long n :: .long m :: stack, mem⟩
      ⟨pc + 1, .long (Arithmetic.longBit o m n) :: stack, mem⟩ :=
  goes_of_does h fun _ _ => by simp [Arithmetic.ofLongs]

/-- A shift takes the count from the top of the stack. -/
theorem ticks_shift_int {o : ShiftOp} {n : Int32} (h : (Code.op (.shift .int o)).At code pc) :
    Ticks code ⟨pc, .int n :: .int m :: stack, mem⟩ none
      ⟨pc + 1, .int (Arithmetic.intShift o m n) :: stack, mem⟩ :=
  ticks_of_does h fun _ _ => by simp [Arithmetic.ofInts]

theorem ticks_shift_long {o : ShiftOp} {m : Int64} {n : Int32}
    (h : (Code.op (.shift .long o)).At code pc) :
    Ticks code ⟨pc, .int n :: .long m :: stack, mem⟩ none
      ⟨pc + 1, .long (Arithmetic.longShift o m n) :: stack, mem⟩ :=
  ticks_of_does h fun _ _ => rfl

/-- Operands are joined as they are printed. -/
theorem goes_concat {left right : Ty} {t : String}
    (h : (Code.call (Method.concat left right)).At code pc) (hs : a.format left.described = .ok s)
    (ht : b.format right.described = .ok t) :
    Goes code 1 ⟨pc, b :: a :: stack, mem⟩ ⟨pc + 1, .string (s ++ t) :: stack, mem⟩ := by
  have htypes : (Method.concat left right).types =
      .ok ([left.described, right.described], .ref .string) :=
    (Method.concat left right).types_eq.trans (Method.parseDescriptor_describe _ _)
  have hbuiltin : Builtin.ofMethod? (Method.concat left right) = some .concat := rfl
  refine goes_of_does h fun _ _ => ?_
  simp [invoke_builtin hbuiltin htypes, hs, ht]

def Memory.print (mem : Memory) (text : String) : Memory :=
  { mem with output := text :: mem.output }

/-- Printing methods say what they were made from. -/
theorem printing_types (name : String) (args : List Ty) :
    (Method.printing name args).types = .ok (args.map Ty.described, .void) :=
  (Method.printing name args).types_eq.trans (Method.parseDescriptor_describe _ _)

theorem goes_println_empty (h : (Code.call (Method.printing "println" [])).At code pc) :
    Goes code 1 ⟨pc, stack, mem⟩ ⟨pc + 1, stack, mem.print "\n"⟩ := by
  have hbuiltin : Builtin.ofMethod? (Method.printing "println" []) = some .println := rfl
  refine goes_of_does h fun _ _ => ?_
  simp [invoke_builtin hbuiltin (printing_types _ _), Memory.print]

/-- What is printed ends with a line break. -/
theorem goes_println (h : (Code.call (Method.printing "println" [t])).At code pc)
    (hs : a.format t.described = .ok s) :
    Goes code 1 ⟨pc, a :: stack, mem⟩ ⟨pc + 1, stack, mem.print (s ++ "\n")⟩ := by
  have hbuiltin : Builtin.ofMethod? (Method.printing "println" [t]) = some .println := rfl
  refine goes_of_does h fun _ _ => ?_
  simp [invoke_builtin hbuiltin (printing_types _ _), Memory.print, hs]

theorem goes_print (h : (Code.call (Method.printing "print" [t])).At code pc)
    (hs : a.format t.described = .ok s) :
    Goes code 1 ⟨pc, a :: stack, mem⟩ ⟨pc + 1, stack, mem.print s⟩ := by
  have hbuiltin : Builtin.ofMethod? (Method.printing "print" [t]) = some .print := rfl
  refine goes_of_does h fun _ _ => ?_
  simp [invoke_builtin hbuiltin (printing_types _ _), Memory.print, hs]

/-- A switch goes to the label that is chosen for its key. -/
theorem goes_dispatch {line : Nat} {pairs : List (Int32 × Label)} {dflt : Label} {key : Int32}
    (h : (Item.dispatch line pairs dflt).At code pc) (hnodup : (pairs.map (·.1)).Nodup)
    (hp : code.place? (chosen pairs dflt key) = some p) :
    Goes code 1 ⟨pc, .int key :: stack, mem⟩ ⟨p, stack, mem⟩ := by
  refine goes_of_does h fun steps caught => ?_
  have hperform := perform_planned code (Item.plan pairs).strategy dflt hnodup
    (m := Config.machine ⟨pc + 1, .int key :: stack, mem⟩ steps caught) rfl
  exact hperform.trans (congrArg (EStateM.Result.map fun _ => none) (run_jump hp))

end Instructions

end Jminus.Machine
