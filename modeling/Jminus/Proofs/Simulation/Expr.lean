import Jminus.Proofs.Meaning.Safe
import Jminus.Proofs.Shapes
import Jminus.Proofs.Simulation
import Mathlib

/-!
The code of an expression does what the expression means, in both of its forms.
-/
namespace Jminus.Checked.Meaning

open Code
open Machine (Memory Config Goes Throws)

variable {prog : Listing} {slots : Slots} {held : List (Nat × Value)} {vs : List Local}
  {w : World}

def Pushes (prog : Listing) (slots : Slots) (held : List (Nat × Value)) (g : Gen Code)
    (x : Eval Datum) (w : World) : Prop :=
  ∀ ⦃n code n' pc hi stack mem⦄, g n = .ok (code, n') → code.At prog pc → hi = pc + code.size →
    Agrees slots held w mem → Follows prog slots held pc hi ⟨pc, stack, mem⟩ (x w) (fun _ => 0)
      fun d mem' => ⟨hi, d.pushed ++ stack, mem'⟩

/-- Code that branches on what an evaluation gives. A branch that is taken is an instruction. -/
def Branches (prog : Listing) (slots : Slots) (held : List (Nat × Value))
    (g : Label → Bool → Gen Code) (x : Eval Bool) (w : World) : Prop :=
  ∀ ⦃target onTrue place n code n' pc hi stack mem⦄, g target onTrue n = .ok (code, n') →
    prog.place? target = some place → code.At prog pc → hi = pc + code.size →
    Agrees slots held w mem → Follows prog slots held pc hi ⟨pc, stack, mem⟩ (x w)
      (fun b => if b = onTrue then 1 else 0)
      fun b mem' => ⟨if b = onTrue then place else hi, stack, mem'⟩

/-- Branching on a value that was pushed. -/
theorem test_branches {value : Gen Code} {x : Eval Datum}
    (hends : Ends slots x w (·.Fits .boolean)) (h : Pushes prog slots held value x w) :
    Branches prog slots held (Forms.test value) (x >>= truth) w := by
  intro target onTrue place n code n' pc hi stack mem hgen hplace hat hhi hagrees
  obtain ⟨c, hc, rfl⟩ := test_ok.1 hgen
  obtain ⟨hat, hjump, _⟩ := at_append.1 hat
  obtain rfl : hi = pc + c.size + 1 := by simpa [Nat.add_assoc] using hhi
  refine Follows.bind hends ((h hc hat rfl hagrees).widen le_rfl (by omega)) ?_
  intro d w' mem' hd _ hagrees'
  obtain ⟨b, rfl⟩ := hd.boolean
  refine .pure hagrees' ?_
  have hgoes : Goes prog 1 ⟨pc + c.size, .int (if b then 1 else 0) :: stack, mem'⟩ _ :=
    Machine.goes_ifZero hjump hplace
  have htaken : (if onTrue then Relation.ne else .eq).holds (if b then 1 else 0) 0 = true ↔
      b = onTrue := by
    cases onTrue <;> cases b <;> decide
  simp only [htaken] at hgoes
  exact hgoes.weaken (by split <;> omega)

/-- Pushing what a branch decides. -/
theorem materialize_pushes {cond : Label → Bool → Gen Code} {x : Eval Bool}
    (hends : Ends slots x w fun _ => True) (h : Branches prog slots held cond x w) :
    Pushes prog slots held (Forms.materialize cond) (x >>= fun b => pure (.boolean b)) w := by
  intro n code n' pc hi stack mem hgen hat hhi hagrees
  obtain ⟨c, hc, rfl⟩ := materialize_ok.1 hgen
  obtain ⟨hat, hone, hgoto, hfalse, hzero, hend, _⟩ := at_append.1 hat
  obtain rfl : hi = pc + c.size + 3 := by simpa [Nat.add_assoc] using hhi
  refine Follows.bind hends ((h hc hfalse hat rfl hagrees).widen le_rfl (by omega)) ?_
  intro b w' mem' _ _ hagrees'
  refine .pure hagrees' ?_
  cases b with
  | true =>
    exact ((Machine.goes_ldc hone).trans (Machine.goes_goto hgoto hend)).weaken (by omega)
  | false => exact (Machine.goes_ldc hzero).weaken (by omega)

variable {t : Ty} {lo hi pc : Nat} {stack : List Value} {e left right operand : Expr}
  {value : Option Constant} {mem : Memory} {x : Local} {d : Datum} {o : Operator} {name : String}
  {m : Method}

/-- A value on the stack is what an expression pushes, unless it is void. -/
theorem Follows.pushed {x : Eval Datum} {p : Nat} {c : Config} {least : Datum → Nat}
    (hends : Ends slots x w (·.Fits t)) (ht : t ≠ .void)
    (h : Follows prog slots held lo hi c (x w) least fun d mem' => ⟨p, d.value :: stack, mem'⟩) :
    Follows prog slots held lo hi c (x w) (fun _ => 0)
      fun d mem' => ⟨p, d.pushed ++ stack, mem'⟩ := by
  refine .before hends h fun d mem hd => ?_
  rw [hd.pushed ht]
  exact .refl _ _

/-- The code of an expression does what the expression means, wherever its variables have values
of their types. -/
structure Simulates (prog : Listing) (slots : Slots) (held : List (Nat × Value)) (vs : List Local)
    (e : Expr) : Prop where
  value : ∀ {w}, w.Typed vs → Pushes prog slots held e.value (eval e) w
  cond : e.type = .boolean → ∀ {w}, w.Typed vs →
    Branches prog slots held e.cond (eval e >>= truth) w

/-- An expression whose condition is made from its value. -/
theorem Simulates.ofValue (hcond : e.cond = Forms.test e.value)
    (hends : ∀ {w}, w.Typed vs → Ends slots (eval e) w (·.Fits e.type))
    (h : ∀ {w}, w.Typed vs → Pushes prog slots held e.value (eval e) w) :
    Simulates prog slots held vs e := by
  refine ⟨h, fun htype w hw => ?_⟩
  rw [hcond]
  exact test_branches (htype ▸ hends hw) (h hw)

/-- An expression whose value is made from its condition. -/
theorem Simulates.ofCond {x : Eval Bool} (hvalue : e.value = Forms.materialize e.cond)
    (heval : eval e = x >>= fun b => pure (.boolean b))
    (hends : ∀ {w}, w.Typed vs → Ends slots x w fun _ => True)
    (h : ∀ {w}, w.Typed vs → Branches prog slots held e.cond x w) :
    Simulates prog slots held vs e := by
  have htruth : eval e >>= truth = x := by
    rw [heval, bind_assoc]
    exact bind_pure x
  refine ⟨fun hw => ?_, fun _ _ hw => ?_⟩
  · rw [hvalue, heval]
    exact materialize_pushes (hends hw) (h hw)
  · rw [htruth]
    exact h hw

theorem ne_void_of_storable (h : t.isStorable = true) : t ≠ .void := by
  rintro rfl
  cases h

/-- A constant is one instruction. -/
theorem constant_goes (h : Constant.Fits t value) (hat : (constant value).At prog pc) :
    ∃ d, literal t value = pure d ∧
      Goes prog 1 ⟨pc, stack, mem⟩ ⟨pc + 1, d.pushed ++ stack, mem⟩ := by
  match t, value, h with
  | .int, some (.int _), _ | .long, some (.long _), _ | .double, some (.double _), _ =>
    exact ⟨_, rfl, Machine.goes_ldc hat⟩
  | .boolean, some (.bool _), _ | .ref .string, some (.string _), _ =>
    exact ⟨_, rfl, Machine.goes_ldc hat⟩
  | .null, none, _ => exact ⟨_, rfl, Machine.goes_null hat⟩
  | .char, some (.int n), ⟨c, hc⟩ =>
    subst hc
    have hcode : Char.ofNat (Int32.ofNat c.toNat).toInt.toNat = c := by
      rw [toInt_code, Int.toNat_natCast, Char.ofNat_toNat]
    exact ⟨.char c, congrArg (fun c => (pure (.char c) : Eval Datum)) hcode, Machine.goes_ldc hat⟩

theorem literal_pushes (h : Constant.Fits t value) :
    Pushes prog slots held (pure [constant value]) (literal t value) w := by
  intro n code n' pc hi stack mem hgen hat hhi hagrees
  obtain ⟨rfl, rfl⟩ := Prod.mk.inj (pure_ok.1 hgen)
  obtain ⟨d, hd, hgoes⟩ := constant_goes h hat.1
  obtain rfl : hi = pc + 1 := by
    simpa [(constant_ordinary value).size] using hhi
  rw [hd]
  exact .pure hagrees (hgoes.weaken (Nat.zero_le 1))

theorem literal_simulates (h : Constant.Fits t value) :
    Simulates prog slots held vs (.literal t value) := by
  match t, value, h with
  | .boolean, some (.bool b), h =>
    refine ⟨fun _ => literal_pushes h, fun _ w _ => ?_⟩
    intro target onTrue place n code n' pc hi stack mem hgen hplace hat hhi hagrees
    obtain ⟨rfl, rfl⟩ := Prod.mk.inj (pure_ok.1 hgen)
    have heval : (eval (.literal .boolean (some (.bool b))) >>= truth) = pure b := rfl
    rw [heval]
    refine .pure hagrees ?_
    by_cases hb : b = onTrue
    · simp only [hb, if_true] at hat ⊢
      exact Machine.goes_goto hat.1 hplace
    · simp only [hb, if_false, Code.size_nil, Nat.add_zero] at hhi ⊢
      subst hhi
      exact .refl _ _
  | .int, some (.int _), h | .long, some (.long _), h | .double, some (.double _), h
  | .ref .string, some (.string _), h | .null, none, h | .char, some (.int _), h =>
    exact .ofValue rfl (fun _ => literal_ends h) fun _ => literal_pushes h

/-- A variable is loaded from its slot. -/
theorem var_pushes (hx : slots.Holds x) (hfits : (w.vars x.slot).Fits x.type) :
    Pushes prog slots held (Expr.var (some x)).value (eval (.var (some x))) w := by
  intro n code n' pc hi stack mem hgen hat hhi hagrees
  obtain ⟨rfl, rfl⟩ := Prod.mk.inj (pure_ok.1 hgen)
  obtain rfl : hi = pc + 1 := hhi
  have heval : eval (.var (some x)) = Eval.read x.slot := rfl
  rw [heval]
  refine ⟨mem, hagrees, ?_⟩
  simp only [hfits.pushed (ne_void_of_storable hx.2)]
  exact (Machine.goes_load hat.1 (hagrees.load hx)).weaken (Nat.zero_le 1)

/-- Storing a value and keeping it on the stack. -/
theorem assign_follows (hx : slots.Holds x) (hfree : ∀ p ∈ held, p.1 ≠ x.slot) (hd : d.Fits x.type)
    (hat : Code.At prog pc [op .dup, store x.type.cell x.slot]) (hagrees : Agrees slots held w mem) :
    Follows prog slots held lo hi ⟨pc, d.value :: stack, mem⟩
      ((Eval.write x.slot d >>= fun _ => pure d) w) (fun _ => 0)
      fun d mem' => ⟨pc + 2, d.pushed ++ stack, mem'⟩ := by
  refine ⟨mem.set x.slot d.value, hagrees.set hx hfree d, ?_⟩
  simp only [hd.pushed (ne_void_of_storable hx.2)]
  exact ((Machine.goes_dup hat.1).trans
    (Machine.goes_store hat.2.1 (hagrees.lt_size hx.1))).weaken (by omega)

/-- What is assigned is stored, and stays on the stack. -/
theorem assign_pushes (hx : slots.Holds x) (hfree : ∀ p ∈ held, p.1 ≠ x.slot) {value : Expr}
    (hends : Ends slots (eval value) w (·.Fits x.type))
    (h : Pushes prog slots held value.value (eval value) w) :
    Pushes prog slots held (Expr.assign .plain (some x) value).value
      (eval (.assign .plain (some x) value)) w := by
  intro n code n' pc hi stack mem hgen hat hhi hagrees
  obtain ⟨c, hc, x, ⟨⟩, rfl⟩ := value_assign_ok.1 hgen
  obtain ⟨hat, hstore⟩ := at_append.1 hat
  obtain rfl : hi = pc + c.size + 2 := by simpa [Nat.add_assoc] using hhi
  have heval : eval (.assign .plain (some x) value) =
      eval value >>= fun d => Eval.write x.slot d >>= fun _ => pure d := rfl
  rw [heval]
  refine Follows.bind hends ((h hc hat rfl hagrees).widen le_rfl (by omega)) ?_
  intro d w' mem' hd _ hagrees'
  rw [hd.pushed (ne_void_of_storable hx.2)]
  exact assign_follows hx hfree hd hstore hagrees'

theorem read_bind {β : Type} (slot : Nat) (f : Datum → Eval β) (w : World) :
    (Eval.read slot >>= f) w = f (w.vars slot) w := rfl

/-- The old value and the operand are combined and stored. -/
theorem compound_pushes {value : Expr} (hx : slots.Holds x) (hfree : ∀ p ∈ held, p.1 ≠ x.slot)
    (hold : (w.vars x.slot).Fits x.type) (hcomputes : Computes o x.type value.type t)
    (hfits : ∀ d : Datum, d.Fits t → d.Fits x.type) (hvoid : value.type ≠ .void)
    (hends : Ends slots (eval value) w (·.Fits value.type))
    (h : Pushes prog slots held value.value (eval value) w) :
    Pushes prog slots held (Expr.assign (.compound o) (some x) value).value
      (eval (.assign (.compound o) (some x) value)) w := by
  intro n code n' pc hi stack mem hgen hat hhi hagrees
  obtain ⟨x, ⟨⟩, c, hc, i, hi', rfl⟩ := value_compound_ok.1 hgen
  obtain ⟨⟨hload, hat⟩, hi₁, hstore⟩ := at_append.1 hat
  obtain rfl : hi = pc + 1 + c.size + 3 := by
    simp [(operatorItem?_ordinary hi').size] at hhi
    omega
  have heval : eval (.assign (.compound o) (some x) value) = Eval.read x.slot >>= fun old =>
      eval value >>= fun d => combine o x.type value.type old d >>= fun d =>
        Eval.write x.slot d >>= fun _ => pure d := rfl
  have hpos : pc + Code.size (load x.type.cell x.slot :: c) = pc + 1 + c.size := by
    simp [Nat.add_assoc]
  rw [hpos] at hi₁ hstore
  rw [Item.size_load] at hat
  rw [heval, read_bind]
  refine Follows.after (Machine.goes_load hload (hagrees.load hx)) ?_
  refine Follows.bind hends ((h hc hat rfl hagrees).widen (by omega) (by omega)) ?_
  intro d w₁ mem₁ hd _ hagrees₁
  rw [hd.pushed hvoid]
  refine Follows.bind (compute_ends hcomputes hold hd)
    ((operator_follows hcomputes hi' hi₁ hold hd hagrees₁).widen (by omega) (by omega)) ?_
  intro r w₂ mem₂ hr _ hagrees₂
  rw [(operatorItem?_ordinary hi').size] at hstore
  exact assign_follows hx hfree (hfits r hr) hstore hagrees₂

/-- Both operands are pushed before the operator takes them. -/
theorem binary_pushes {r : Ty} {u : Option Ty} (hcomputes : Computes o left.type right.type r)
    (hvs : ∀ v ∈ vs, slots.Holds v) (hl : left.Sound vs) (hr : right.Sound vs)
    (sl : Simulates prog slots held vs left) (sr : Simulates prog slots held vs right)
    (hw : w.Typed vs) :
    Pushes prog slots held (Expr.binary (.compute o) t u left right).value
      (eval (.binary (.compute o) t u left right)) w := by
  intro n code n' pc hi stack mem hgen hat hhi hagrees
  obtain ⟨a, m, ha, b, hb, i, hi', rfl⟩ := (value_compute_ok t u).1 hgen
  have hsize := (operatorItem?_ordinary hi').size
  obtain ⟨hvoidl, hvoidr, hvoid⟩ := hcomputes.ne_void
  simp only [at_append, at_cons, Code.size_append, Code.size_cons, Code.size_nil, hsize,
    ← Nat.add_assoc] at hat hhi
  obtain ⟨⟨hata, hatb⟩, hati, _⟩ := hat
  subst hhi
  have heval : eval (.binary (.compute o) t u left right) = eval left >>= fun x =>
      eval right >>= fun y => combine o left.type right.type x y := rfl
  rw [heval]
  refine Follows.bind (eval_ends hvs hl hw)
    ((sl.value hw ha hata rfl hagrees).widen le_rfl (by omega)) ?_
  intro x w₁ mem₁ hx hkeeps hagrees₁
  have hw₁ := hw.keeps hvs hkeeps
  refine Follows.bind (eval_ends hvs hr hw₁)
    ((sr.value hw₁ hb hatb rfl hagrees₁).widen (by omega) (by omega)) ?_
  intro y w₂ mem₂ hy _ hagrees₂
  rw [hx.pushed hvoidl, hy.pushed hvoidr]
  exact Follows.pushed (compute_ends hcomputes hx hy) hvoid
    ((operator_follows hcomputes hi' hati hx hy hagrees₂).widen (by omega) le_rfl)

/-- Instructions that change the value on the stack. -/
theorem Pushes.behind {g g' : Gen Code} {x : Eval Datum} {f : Datum → Eval Datum} (rest : Code)
    (hgen : ∀ {n code n'}, g' n = .ok (code, n') → ∃ c, g n = .ok (c, n') ∧ code = c ++ rest)
    (hends : Ends slots x w (·.Fits t)) (h : Pushes prog slots held g x w)
    (hf : ∀ {d : Datum} {pc : Nat} {stack : List Value} {mem : Memory}, d.Fits t →
      rest.At prog pc → ∃ r, f d = pure r ∧
        Goes prog 1 ⟨pc, d.pushed ++ stack, mem⟩ ⟨pc + rest.size, r.pushed ++ stack, mem⟩) :
    Pushes prog slots held g' (x >>= f) w := by
  intro n code n' pc hi stack mem hg' hat hhi hagrees
  obtain ⟨c, hc, rfl⟩ := hgen hg'
  obtain ⟨hat, hrest⟩ := at_append.1 hat
  obtain rfl : hi = pc + c.size + rest.size := by simpa [Nat.add_assoc] using hhi
  refine Follows.bind hends ((h hc hat rfl hagrees).widen le_rfl (by omega)) ?_
  intro d w' mem' hd _ hagrees'
  obtain ⟨r, hr, hgoes⟩ := hf hd hrest
  rw [hr]
  exact .pure hagrees' (hgoes.weaken (Nat.zero_le 1))

theorem neg_pushes (ht : operand.type.isNumeric = true)
    (hends : Ends slots (eval operand) w (·.Fits operand.type))
    (h : Pushes prog slots held operand.value (eval operand) w) :
    Pushes prog slots held (Expr.unary .neg operand.type operand).value
      (eval (.unary .neg operand.type operand)) w := by
  refine Pushes.behind (f := negative) [op (.neg operand.type.num)] value_neg_ok.1 hends h ?_
  intro d pc stack mem hd hat
  generalize operand.type = t at ht hd hat
  cases t with
  | int =>
    obtain ⟨n, rfl⟩ := hd.int
    exact ⟨_, rfl, Machine.goes_neg_int hat.1⟩
  | long =>
    obtain ⟨n, rfl⟩ := hd.long
    exact ⟨_, rfl, Machine.goes_neg_long hat.1⟩
  | double =>
    obtain ⟨x, rfl⟩ := hd.double
    exact ⟨_, rfl, Machine.goes_neg_double hat.1⟩
  | _ => cases ht

theorem complement_pushes (ht : operand.type.isIntegral = true)
    (hends : Ends slots (eval operand) w (·.Fits operand.type))
    (h : Pushes prog slots held operand.value (eval operand) w) :
    Pushes prog slots held (Expr.unary .complement operand.type operand).value
      (eval (.unary .complement operand.type operand)) w := by
  refine Pushes.behind (f := complement) (if operand.type = .long then
    [ldc (.long (-1)), op (.bit .long .xor)] else [ldc (.int (-1)), op (.bit .int .xor)])
    value_complement_ok.1 hends h ?_
  intro d pc stack mem hd hat
  generalize operand.type = t at ht hd hat
  cases t with
  | int =>
    obtain ⟨n, rfl⟩ := hd.int
    have hgoes : Goes prog (1 + 1) ⟨pc, .int n :: stack, mem⟩
        ⟨pc + 2, .int (n ^^^ -1) :: stack, mem⟩ :=
      (Machine.goes_ldc hat.1).trans (Machine.goes_bit_int hat.2.1)
    refine ⟨_, rfl, ?_⟩
    rw [Int32.xor_neg_one] at hgoes
    exact hgoes.weaken (by omega)
  | long =>
    obtain ⟨n, rfl⟩ := hd.long
    have hgoes : Goes prog (1 + 1) ⟨pc, .long n :: stack, mem⟩
        ⟨pc + 2, .long (n ^^^ -1) :: stack, mem⟩ :=
      (Machine.goes_ldc hat.1).trans (Machine.goes_bit_long hat.2.1)
    refine ⟨_, rfl, ?_⟩
    rw [Int64.xor_neg_one] at hgoes
    exact hgoes.weaken (by omega)
  | _ => cases ht

def unit (t : Ty) : Datum :=
  match t.num with
  | .int => .int 1
  | .long => .long 1
  | .double => .double 1

theorem unit_fits (ht : t.isNumeric = true) : (unit t).Fits t := by
  cases t with
  | int | long | double => trivial
  | _ => cases ht

theorem unit_goes (hat : (one t).At prog pc) :
    Goes prog 1 ⟨pc, stack, mem⟩ ⟨pc + 1, (unit t).value :: stack, mem⟩ := by
  cases hnum : t.num <;> simp only [one, unit, hnum] at hat ⊢ <;> exact Machine.goes_ldc hat

/-- A step is a sum or a difference with one. -/
theorem changed_eq (o : IncrementOp) (ht : t.isNumeric = true) (hd : d.Fits t) :
    changed o d = combine (stepOperator o) t t d (unit t) := by
  cases t with
  | int =>
    obtain ⟨n, rfl⟩ := hd.int
    cases o <;> rfl
  | long =>
    obtain ⟨n, rfl⟩ := hd.long
    cases o <;> rfl
  | double =>
    obtain ⟨x, rfl⟩ := hd.double
    cases o <;> rfl
  | _ => cases ht

/-- An increment leaves the value from before or behind the step. -/
theorem increment_pushes {o : IncrementOp} {side : Side} (hx : slots.Holds x)
    (hfree : ∀ p ∈ held, p.1 ≠ x.slot) (hnum : x.type.isNumeric = true)
    (hold : (w.vars x.slot).Fits x.type) :
    Pushes prog slots held (Expr.increment o side (some x)).value
      (eval (.increment o side (some x))) w := by
  intro n code n' pc hi stack mem hgen hat hhi hagrees
  obtain ⟨x, ⟨⟩, i, hi', rfl, rfl⟩ := value_increment_ok.1 hgen
  have hcomputes : Computes (stepOperator o) x.type x.type x.type := by
    cases o <;> exact .arith _ hnum
  have hload := hagrees.load hx
  have hvoid := ne_void_of_storable hx.2
  have hsize := (operatorItem?_ordinary hi').size
  have hone := (one_ordinary x.type).size
  have hunit := unit_fits hnum
  cases side with
  | before =>
    have heval : eval (.increment o .before (some x)) = Eval.read x.slot >>= fun old =>
      changed o old >>= fun d => Eval.write x.slot d >>= fun _ => pure d := rfl
    rw [heval, read_bind, changed_eq o hnum hold]
    obtain ⟨hat₁, hat₂, hat₃, hat₄⟩ := hat
    simp only [Item.size_load, hone] at hat₂ hat₃ hat₄
    obtain rfl : hi = pc + 5 := by simpa [incrementCode, hsize, hone] using hhi
    refine Follows.after ((Machine.goes_load hat₁ hload).trans (unit_goes hat₂)) ?_
    refine Follows.bind (compute_ends hcomputes hold hunit)
      ((operator_follows hcomputes hi' hat₃ hold hunit hagrees).widen (by omega) (by omega)) ?_
    intro d w' mem' hd _ hagrees'
    rw [hsize] at hat₄
    exact assign_follows hx hfree hd hat₄ hagrees'
  | after =>
    have heval : eval (.increment o .after (some x)) = Eval.read x.slot >>= fun old =>
      changed o old >>= fun d => Eval.write x.slot d >>= fun _ => pure old := rfl
    rw [heval, read_bind, changed_eq o hnum hold]
    obtain ⟨hat₁, hat₂, hat₃, hat₄, hat₅, _⟩ := hat
    simp only [Item.size_load, Item.size_op, hone, hsize] at hat₂ hat₃ hat₄ hat₅
    obtain rfl : hi = pc + 5 := by simpa [incrementCode, hsize, hone] using hhi
    refine Follows.after (((Machine.goes_load hat₁ hload).trans (Machine.goes_dup hat₂)).trans
      (unit_goes hat₃)) ?_
    refine Follows.bind (compute_ends hcomputes hold hunit)
      ((operator_follows hcomputes hi' hat₄ hold hunit hagrees).widen (by omega) (by omega)) ?_
    intro d w' mem' hd _ hagrees'
    refine ⟨mem'.set x.slot d.value, hagrees'.set hx hfree d, ?_⟩
    simp only [hold.pushed hvoid]
    exact (Machine.goes_store hat₅ (hagrees'.lt_size hx.1)).weaken (Nat.zero_le 1)

/-- One of the two parts is pushed, and the code goes on behind both. -/
theorem conditional_pushes {cond thenPart elsePart : Expr} (hvs : ∀ v ∈ vs, slots.Holds v)
    (hc : cond.Condition vs) (ht : thenPart.Sound vs) (sc : Simulates prog slots held vs cond)
    (st : Simulates prog slots held vs thenPart) (se : Simulates prog slots held vs elsePart)
    (hw : w.Typed vs) :
    Pushes prog slots held (Expr.conditional t cond thenPart elsePart).value
      (eval (.conditional t cond thenPart elsePart)) w := by
  intro n code n' pc hi stack mem hgen hat hhi hagrees
  obtain ⟨a, m, ha, b, m', hb, c, hc', rfl⟩ := (value_conditional_ok t).1 hgen
  simp only [at_append, at_cons, Code.size_append, Code.size_cons, Code.size_nil, Item.size_goto,
    Item.size_label, Nat.add_zero, ← Nat.add_assoc] at hat hhi
  obtain ⟨⟨⟨⟨hata, hatb⟩, hgoto, helse, _⟩, hatc⟩, hend, _⟩ := hat
  subst hhi
  have heval : eval (.conditional t cond thenPart elsePart) = (eval cond >>= truth) >>= fun p =>
      if p then eval thenPart else eval elsePart := (bind_assoc _ _ _).symm
  rw [heval]
  refine Follows.bind (condition_ends hvs hc hw)
    ((sc.cond hc.2 hw ha helse hata rfl hagrees).widen le_rfl (by omega)) ?_
  intro p w₁ mem₁ _ hkeeps hagrees₁
  have hw₁ := hw.keeps hvs hkeeps
  cases p with
  | true =>
    refine Follows.before (eval_ends hvs ht hw₁)
      ((st.value hw₁ hb hatb rfl hagrees₁).widen (by omega) (by omega)) ?_
    exact fun d mem' _ => (Machine.goes_goto hgoto hend).weaken (Nat.zero_le 1)
  | false => exact (se.value hw₁ hc' hatc rfl hagrees₁).widen (by omega) le_rfl

/-- Operands are compared in the type they have in common. -/
theorem compare_branches {rel : Relation} {operand : Ty}
    (hcompares : Compares rel left.type right.type operand) (hvs : ∀ v ∈ vs, slots.Holds v)
    (hl : left.Sound vs) (hr : right.Sound vs) (sl : Simulates prog slots held vs left)
    (sr : Simulates prog slots held vs right) (hw : w.Typed vs) :
    Branches prog slots held (compare rel (some operand) left.value right.value)
      (eval left >>= fun x => eval right >>= fun y => Eval.ofOption (relate? rel x y)) w := by
  intro target onTrue place n code n' pc hi stack mem hgen hplace hat hhi hagrees
  obtain ⟨a, m, ha, b, hb, rfl⟩ := compare_ok.1 hgen
  obtain ⟨hvoidl, hvoidr⟩ := hcompares.ne_void
  rw [List.append_assoc, at_append, at_append] at hat
  simp only [Code.size_append, Code.size_cons, Code.size_nil, Item.size_jump, ← Nat.add_assoc]
    at hat hhi
  obtain ⟨⟨hata, hatb⟩, hatc⟩ := hat
  subst hhi
  refine Follows.bind (eval_ends hvs hl hw)
    ((sl.value hw ha hata rfl hagrees).widen le_rfl (by omega)) ?_
  intro x w₁ mem₁ hx hkeeps hagrees₁
  have hw₁ := hw.keeps hvs hkeeps
  refine Follows.bind (eval_ends hvs hr hw₁)
    ((sr.value hw₁ hb hatb rfl hagrees₁).widen (by omega) (by omega)) ?_
  intro y w₂ mem₂ hy _ hagrees₂
  rw [hx.pushed hvoidl, hy.pushed hvoidr]
  obtain ⟨p, hp⟩ := relate?_isSome hcompares hx hy
  rw [hp]
  exact .pure hagrees₂ ((comparison_goes hcompares hx hy hp hatc hplace).weaken
    (by split <;> omega))

/-- Two conditions, of which the second counts only if the first leaves it open. -/
def decided (o : LogicalOp) (left right : Expr) : Eval Bool :=
  (eval left >>= truth) >>= fun p =>
    if p = decide (o = .and) then eval right >>= truth else pure p

/-- Logical operators come down to which condition decides. -/
theorem eval_logical (o : LogicalOp) (left right : Expr) :
    eval (.logical o left right) = decided o left right >>= fun b => pure (.boolean b) := by
  cases o <;> simp only [eval, decided, bind_assoc] <;>
    refine congrArg _ (funext fun d => congrArg _ (funext fun p => ?_)) <;>
    cases p <;> simp

/-- The second condition is tested only where the first leaves it open. -/
theorem both_branches {o : LogicalOp} (hvs : ∀ v ∈ vs, slots.Holds v) (hl : left.Condition vs)
    (sl : Simulates prog slots held vs left) (hr : right.type = .boolean)
    (sr : Simulates prog slots held vs right) (hw : w.Typed vs) :
    Branches prog slots held (both o left.cond right.cond) (decided o left right) w := by
  intro target onTrue place n code n' pc hi stack mem hgen hplace hat hhi hagrees
  have hends := condition_ends hvs hl hw
  by_cases ho : decide (o = .and) = onTrue
  · obtain ⟨a, m, ha, b, hb, rfl⟩ := (both_skip_ok ho).1 hgen
    simp only [at_append, at_cons, Code.size_append, Code.size_cons, Code.size_nil,
      Item.size_label, Nat.add_zero, ← Nat.add_assoc] at hat hhi
    obtain ⟨⟨hata, hatb⟩, hskip, _⟩ := hat
    subst hhi
    refine Follows.bind hends
      ((sl.cond hl.2 hw ha hskip hata rfl hagrees).widen le_rfl (by omega)) ?_
    intro p w₁ mem₁ _ hkeeps hagrees₁
    by_cases hp : p = onTrue
    · rw [if_pos (hp.trans ho.symm), if_neg (by simp [hp])]
      exact (sr.cond hr (hw.keeps hvs hkeeps) hb hplace hatb rfl hagrees₁).widen (by omega) le_rfl
    · have hne : p = !onTrue := by
        cases p <;> cases onTrue <;> simp_all
      have hand : ¬ p = decide (o = .and) := fun h => hp (h.trans ho)
      rw [if_pos hne, if_neg hand]
      refine .pure hagrees₁ ?_
      simp only [hp, if_false]
      exact .refl _ _
  · obtain ⟨a, m, ha, b, hb, rfl⟩ := (both_join_ok ho).1 hgen
    obtain ⟨hata, hatb⟩ := at_append.1 hat
    rw [Code.size_append, ← Nat.add_assoc] at hhi
    subst hhi
    refine Follows.bind_counting hends
      ((sl.cond hl.2 hw ha hplace hata rfl hagrees).widen le_rfl (by omega)) ?_
    intro p w₁ mem₁ _ hkeeps hagrees₁
    by_cases hp : p = onTrue
    · have hne : p ≠ decide (o = .and) := fun h => ho (h.symm.trans hp)
      rw [if_neg hne, if_pos hp, if_pos hp]
      refine .pure hagrees₁ ?_
      simp only [hp, if_true]
      exact .refl _ _
    · have heq : p = decide (o = .and) := by
        cases p <;> cases onTrue <;> simp_all
      rw [if_pos heq, if_neg hp, if_neg hp]
      exact (sr.cond hr (hw.keeps hvs hkeeps) hb hplace hatb rfl hagrees₁).widen (by omega) le_rfl

theorem new_pushes {cls : Class} :
    Pushes prog slots held (Expr.new (.ref cls)).value (eval (.new (.ref cls))) w := by
  intro n code n' pc hi stack mem hgen hat hhi hagrees
  obtain ⟨rfl, rfl⟩ := Prod.mk.inj (pure_ok.1 hgen)
  obtain rfl : hi = pc + 1 := hhi
  refine ⟨_, hagrees.create, ?_⟩
  have hgoes : Goes prog 1 ⟨pc, stack, mem⟩ _ := Machine.goes_new hat.1
  rw [hagrees.made] at hgoes ⊢
  exact hgoes.weaken (Nat.zero_le 1)

def PushesAll (prog : Listing) (slots : Slots) (held : List (Nat × Value)) (es : List Expr)
    (w : World) : Prop :=
  ∀ ⦃n code n' pc hi stack mem⦄, values es n = .ok (code, n') → code.At prog pc →
    hi = pc + code.size → Agrees slots held w mem →
    Follows prog slots held pc hi ⟨pc, stack, mem⟩ (evals es w) (fun _ => 0)
      fun ds mem' => ⟨hi, ds.foldl (fun st d => d.pushed ++ st) stack, mem'⟩

/-- A call does what the method means. -/
theorem call_goes {args : List Ty} (hm : Method.resolve name args = .ok m) {ds : List Datum}
    (hds : List.Forall₂ Datum.Fits ds args) (hat : (Code.call m).At prog pc)
    (hagrees : Agrees slots held w mem) :
    Follows prog slots held lo hi ⟨pc, ds.foldl (fun st d => d.pushed ++ st) stack, mem⟩
      (call m.name ds w) (fun _ => 0) fun d mem' => ⟨pc + 1, d.pushed ++ stack, mem'⟩ := by
  obtain ⟨rfl, ⟨rfl, rfl⟩ | ⟨hname, t, rfl, ht⟩⟩ := resolve_cases hm
  · cases hds
    exact ⟨_, hagrees.print "\n", (Machine.goes_println_empty hat).weaken (Nat.zero_le 1)⟩
  · cases hds with
    | cons hd hnil =>
      cases hnil
      obtain ⟨s, hs⟩ := hd.text ht
      simp only [List.foldl_cons, List.foldl_nil, hd.pushed ht]
      rcases hname with rfl | rfl
      · simp only [call, hs, Eval.ofOption, pure_bind]
        exact ⟨_, hagrees.print _,
          (Machine.goes_println hat (hd.format hs)).weaken (Nat.zero_le 1)⟩
      · simp only [call, hs, Eval.ofOption, pure_bind]
        exact ⟨_, hagrees.print _, (Machine.goes_print hat (hd.format hs)).weaken (Nat.zero_le 1)⟩

theorem call_pushes {args : List Expr} (hm : Method.resolve name (args.map Expr.type) = .ok m)
    (hvs : ∀ v ∈ vs, slots.Holds v) (hargs : Expr.AllSound vs args) (hw : w.Typed vs)
    (h : PushesAll prog slots held args w) :
    Pushes prog slots held (Expr.call (some m) args).value (eval (.call (some m) args)) w := by
  intro n code n' pc hi stack mem hgen hat hhi hagrees
  obtain ⟨c, hc, rfl⟩ := value_call_ok.1 hgen
  obtain ⟨hat, hcall, _⟩ := at_append.1 hat
  obtain rfl : hi = pc + c.size + 1 := by simpa [Nat.add_assoc] using hhi
  have heval : eval (.call (some m) args) = evals args >>= fun ds => call m.name ds := rfl
  rw [heval]
  refine Follows.bind (evals_ends hvs hargs hw)
    ((h hc hat rfl hagrees).widen le_rfl (by omega)) ?_
  intro ds w' mem' hds _ hagrees'
  exact call_goes hm hds hcall hagrees'

theorem values_push {es : List Expr} (hvs : ∀ v ∈ vs, slots.Holds v) (he : e.Sound vs)
    (hes : Expr.AllSound vs es) (hw : w.Typed vs) (s : Simulates prog slots held vs e)
    (h : ∀ {w'}, w'.Typed vs → PushesAll prog slots held es w') :
    PushesAll prog slots held (e :: es) w := by
  intro n code n' pc hi stack mem hgen hat hhi hagrees
  obtain ⟨a, m, ha, b, hb, rfl⟩ := values_cons_ok.1 hgen
  obtain ⟨hata, hatb⟩ := at_append.1 hat
  rw [Code.size_append, ← Nat.add_assoc] at hhi
  subst hhi
  have heval : evals (e :: es) = eval e >>= fun d => evals es >>= fun ds => pure (d :: ds) := rfl
  rw [heval]
  refine Follows.bind (eval_ends hvs he hw)
    ((s.value hw ha hata rfl hagrees).widen le_rfl (by omega)) ?_
  intro d w₁ mem₁ _ hkeeps hagrees₁
  have hw₁ := hw.keeps hvs hkeeps
  refine Follows.bind (evals_ends hvs hes hw₁)
    ((h hw₁ hb hatb rfl hagrees₁).widen (by omega) le_rfl) ?_
  exact fun ds w₂ mem₂ _ _ hagrees₂ => .pure hagrees₂ (.refl _ _)

/-- A negation branches the other way. -/
theorem not_branches {g : Label → Bool → Gen Code} {x : Eval Bool}
    (hends : Ends slots x w fun _ => True) (h : Branches prog slots held g x w) :
    Branches prog slots held (fun target onTrue => g target !onTrue)
      (x >>= fun p => pure !p) w := by
  intro target onTrue place n code n' pc hi stack mem hgen hplace hat hhi hagrees
  refine Follows.bind_counting hends (h hgen hplace hat hhi hagrees) ?_
  intro p w₁ mem₁ _ _ hagrees₁
  refine .pure hagrees₁ ?_
  have hnot : (!p) = onTrue ↔ p = !onTrue := by
    cases p <;> cases onTrue <;> decide
  simp only [hnot, Nat.sub_self]
  exact .refl _ _

mutual

/-- The code of a sound expression does what the expression means. -/
theorem forms_simulate (hvs : ∀ v ∈ vs, slots.Holds v)
    (hfree : ∀ v ∈ vs, ∀ p ∈ held, p.1 ≠ v.slot) :
    ∀ {e : Expr}, e.Sound vs → Simulates prog slots held vs e
  | .literal _ _, h => literal_simulates h
  | .var v, h@⟨x, hx, hv⟩ => by
    subst hv
    exact .ofValue rfl (eval_ends hvs h) fun hw => var_pushes (hvs x hx) (hw x hx)
  | .assign .plain target value, h@⟨hvalue, x, hx, ht, hassign⟩ => by
    subst ht
    have s := forms_simulate hvs hfree hvalue
    refine .ofValue rfl (eval_ends hvs h) fun hw => assign_pushes (hvs x hx) (hfree x hx)
      ((eval_ends hvs hvalue hw).imp fun d hd => ?_) (s.value hw)
    exact hd.assignable hassign (hvalue.type_ne_any (storable_of_holds hvs))
      (ne_any_of_storable (hvs x hx).2)
  | .assign (.compound o) target value, h@⟨hvalue, x, hx, ht, t, operand, hbin, hassign⟩ => by
    subst ht
    have s := forms_simulate hvs hfree hvalue
    have hany := ne_any_of_storable (hvs x hx).2
    have hany' := hvalue.type_ne_any (storable_of_holds hvs)
    have hcomputes := computes_of_binary hany hany' hbin
    refine .ofValue rfl (eval_ends hvs h) fun hw => compound_pushes (hvs x hx) (hfree x hx)
      (hw x hx) hcomputes (fun d hd => ?_) hcomputes.ne_void.2.1 (eval_ends hvs hvalue hw)
      (s.value hw)
    exact hd.assignable hassign (ne_any_of_binary hany hany' hbin) hany
  | .binary (.compute o) t u left right, h@⟨hl, hr, operand, _, hbin⟩ =>
    .ofValue rfl (eval_ends hvs h) fun hw => binary_pushes
      (computes_of_binary (hl.type_ne_any (storable_of_holds hvs))
        (hr.type_ne_any (storable_of_holds hvs)) hbin) hvs hl hr
      (forms_simulate hvs hfree hl) (forms_simulate hvs hfree hr) hw
  | .binary (.compare rel) t u left right, h@⟨hl, hr, operand, hu, hbin⟩ => by
    subst hu
    obtain ⟨hcompares, rfl⟩ := compares_of_binary (hl.type_ne_any (storable_of_holds hvs))
      (hr.type_ne_any (storable_of_holds hvs)) hbin
    have sl := forms_simulate hvs hfree hl
    have sr := forms_simulate hvs hfree hr
    refine .ofCond (x := eval left >>= fun x => eval right >>= fun y =>
      Eval.ofOption (relate? rel x y)) rfl ?_ (fun hw => ?_) fun hw =>
      compare_branches hcompares hvs hl hr sl sr hw
    · simp only [eval, bind_assoc]
    · refine (eval_ends hvs hl hw).bind fun a _ ha hk =>
        (eval_ends hvs hr (hw.keeps hvs hk)).bind fun b _ hb _ => ?_
      obtain ⟨p, hp⟩ := relate?_isSome hcompares ha hb
      exact Ends.ofOption ⟨p, hp, trivial⟩
  | .logical o left right, ⟨hl, hlt, hr, hrt⟩ => by
    have sl := forms_simulate hvs hfree hl
    have sr := forms_simulate hvs hfree hr
    refine .ofCond rfl (eval_logical o left right) (fun hw => ?_) fun hw =>
      both_branches hvs ⟨hl, hlt⟩ sl hrt sr hw
    refine (condition_ends hvs ⟨hl, hlt⟩ hw).bind fun p _ _ hk => ?_
    split
    · exact condition_ends hvs ⟨hr, hrt⟩ (hw.keeps hvs hk)
    · exact .pure trivial
  | .unary .neg type operand, h@⟨ho, ht, hop⟩ => by
    subst ht
    have s := forms_simulate hvs hfree ho
    exact .ofValue rfl (eval_ends hvs h) fun hw =>
      neg_pushes hop (eval_ends hvs ho hw) (s.value hw)
  | .unary .not type operand, ⟨ho, ht, hop⟩ => by
    subst ht
    have hbool : operand.type = .boolean := by simpa [Ty.unary] using hop
    have s := forms_simulate hvs hfree ho
    refine .ofCond rfl (x := (eval operand >>= truth) >>= fun p => pure !p) ?_ (fun hw => ?_)
      fun hw => not_branches (condition_ends hvs ⟨ho, hbool⟩ hw) (s.cond hbool hw)
    · simp only [eval, bind_assoc, pure_bind]
    · exact (condition_ends hvs ⟨ho, hbool⟩ hw).bind fun _ _ _ _ => .pure trivial
  | .unary .complement type operand, h@⟨ho, ht, hop⟩ => by
    subst ht
    have s := forms_simulate hvs hfree ho
    exact .ofValue rfl (eval_ends hvs h) fun hw =>
      complement_pushes hop (eval_ends hvs ho hw) (s.value hw)
  | .increment o side target, h@⟨x, hx, ht, hnum⟩ => by
    subst ht
    exact .ofValue rfl (eval_ends hvs h) fun hw =>
      increment_pushes (hvs x hx) (hfree x hx) hnum (hw x hx)
  | .conditional t cond thenPart elsePart, h@⟨hc, hct, ht, he, _⟩ =>
    .ofValue rfl (eval_ends hvs h) fun hw => conditional_pushes hvs ⟨hc, hct⟩ ht
      (forms_simulate hvs hfree hc) (forms_simulate hvs hfree ht) (forms_simulate hvs hfree he) hw
  | .new t, h => by
    obtain ⟨cls, rfl⟩ : ∃ cls, t = .ref cls := by
      cases t with
      | ref cls => exact ⟨cls, rfl⟩
      | _ => rcases h with h | h <;> cases h
    exact .ofValue rfl (eval_ends hvs h) fun _ => new_pushes
  | .call method args, h@⟨hargs, m, name, hm, hresolve⟩ => by
    subst hm
    exact .ofValue rfl (eval_ends hvs h) fun hw =>
      call_pushes hresolve hvs hargs hw (values_simulate hvs hfree hargs hw)
  | .group inner, h =>
    have s := forms_simulate hvs hfree (e := inner) h
    ⟨s.value, s.cond⟩

theorem values_simulate (hvs : ∀ v ∈ vs, slots.Holds v)
    (hfree : ∀ v ∈ vs, ∀ p ∈ held, p.1 ≠ v.slot) :
    ∀ {es : List Expr}, Expr.AllSound vs es → ∀ {w : World}, w.Typed vs →
      PushesAll prog slots held es w
  | [], _, _, _ => by
    intro n code n' pc hi stack mem hgen hat hhi hagrees
    obtain ⟨rfl, rfl⟩ := Prod.mk.inj (pure_ok.1 hgen)
    obtain rfl : hi = pc := hhi
    exact .pure hagrees (.refl _ _)
  | _ :: _, ⟨he, hes⟩, _, hw =>
    values_push hvs he hes hw (forms_simulate hvs hfree he) (values_simulate hvs hfree hes)

end

end Jminus.Checked.Meaning
