import Jminus.Proofs.Shapes
import Jminus.Proofs.Typing.Operators
import Mathlib

/-!
Where labels are placed and used.

Making code from the label number `n` on up to `n'` places every label in between exactly once and
no other label; what it uses beyond them is given to it from outside. Sound trees have code.
-/
namespace Jminus

namespace Item

def placed? : Item → Option Label
  | .label l => some l
  | _ => none

def handler? : Item → Option Handler
  | .handler h => some h
  | _ => none

def jumps : Item → List Label
  | .plain op arg => (Instruction.simple op arg).labels
  | .jump _ target => [target]
  | .dispatch _ pairs dflt => dflt :: pairs.map (·.2)
  | .label _ | .handler _ => []

/-- The labels of the ranges that an item protects, and of their handlers. -/
def ranges : Item → List Label
  | .handler h => [h.start, h.stop, h.handler]
  | _ => []

def size : Item → Nat
  | .label _ | .handler _ => 0
  | _ => 1

@[simp] theorem size_label (l : Label) : (Item.label l).size = 0 := rfl

@[simp] theorem size_handler (h : Handler) : (Item.handler h).size = 0 := rfl

@[simp] theorem size_plain (o : Opcode) (arg : Operand) : (Item.plain o arg).size = 1 := rfl

@[simp] theorem size_jump (b : Branch) (l : Label) : (Item.jump b l).size = 1 := rfl

@[simp] theorem size_dispatch (line : Nat) (pairs : List (Int32 × Label)) (l : Label) :
    (Item.dispatch line pairs l).size = 1 := rfl

@[simp] theorem size_op (o : Opcode) : (Code.op o).size = 1 := rfl

@[simp] theorem size_ldc (v : Value) : (Code.ldc v).size = 1 := rfl

@[simp] theorem size_load (cell : Cell) (slot : Nat) : (Code.load cell slot).size = 1 := rfl

@[simp] theorem size_store (cell : Cell) (slot : Nat) : (Code.store cell slot).size = 1 := rfl

@[simp] theorem size_call (m : Method) : (Code.call m).size = 1 := rfl

@[simp] theorem size_goto (l : Label) : (Code.goto l).size = 1 := rfl

end Item

namespace Code

/-- Every label in between is placed. -/
def placed (code : Code) : List Label := code.filterMap Item.placed?

def handlers (code : Code) : List Handler := code.filterMap Item.handler?

def jumps (code : Code) : List Label := code.flatMap Item.jumps

def ranges (code : Code) : List Label := code.flatMap Item.ranges

def size (code : Code) : Nat := (code.map Item.size).sum

@[simp] theorem placed_append (a b : Code) : placed (a ++ b) = placed a ++ placed b :=
  List.filterMap_append

@[simp] theorem handlers_append (a b : Code) : handlers (a ++ b) = handlers a ++ handlers b :=
  List.filterMap_append

@[simp] theorem jumps_append (a b : Code) : jumps (a ++ b) = jumps a ++ jumps b :=
  List.flatMap_append

@[simp] theorem ranges_append (a b : Code) : ranges (a ++ b) = ranges a ++ ranges b :=
  List.flatMap_append

@[simp] theorem size_append (a b : Code) : size (a ++ b) = size a + size b := by
  simp [size]

@[simp] theorem placed_nil : placed [] = [] := rfl

@[simp] theorem handlers_nil : handlers [] = [] := rfl

@[simp] theorem jumps_nil : jumps [] = [] := rfl

@[simp] theorem ranges_nil : ranges [] = [] := rfl

@[simp] theorem size_nil : size [] = 0 := rfl

@[simp] theorem size_cons (i : Item) (c : Code) : size (i :: c) = i.size + size c := rfl

@[simp] theorem jumps_cons (i : Item) (c : Code) : jumps (i :: c) = i.jumps ++ jumps c := rfl

@[simp] theorem ranges_cons (i : Item) (c : Code) : ranges (i :: c) = i.ranges ++ ranges c := rfl

@[simp] theorem placed_label (l : Label) (c : Code) : placed (.label l :: c) = l :: placed c := rfl

@[simp] theorem placed_plain (o : Opcode) (arg : Operand) (c : Code) :
    placed (.plain o arg :: c) = placed c := rfl

@[simp] theorem placed_jump (b : Branch) (l : Label) (c : Code) :
    placed (.jump b l :: c) = placed c := rfl

@[simp] theorem placed_dispatch (line : Nat) (pairs : List (Int32 × Label)) (l : Label) (c : Code) :
    placed (.dispatch line pairs l :: c) = placed c := rfl

@[simp] theorem placed_handler (h : Handler) (c : Code) : placed (.handler h :: c) = placed c := rfl

@[simp] theorem handlers_label (l : Label) (c : Code) : handlers (.label l :: c) = handlers c := rfl

@[simp] theorem handlers_plain (o : Opcode) (arg : Operand) (c : Code) :
    handlers (.plain o arg :: c) = handlers c := rfl

@[simp] theorem handlers_jump (b : Branch) (l : Label) (c : Code) :
    handlers (.jump b l :: c) = handlers c := rfl

@[simp] theorem handlers_dispatch (line : Nat) (pairs : List (Int32 × Label)) (l : Label)
    (c : Code) : handlers (.dispatch line pairs l :: c) = handlers c := rfl

@[simp] theorem handlers_handler (h : Handler) (c : Code) :
    handlers (.handler h :: c) = h :: handlers c := rfl

/-- What a handler is about is among the ranges of the code. -/
theorem mem_ranges {code : Code} {h : Handler} (hh : h ∈ code.handlers) :
    ∀ l ∈ [h.start, h.stop, h.handler], l ∈ code.ranges := by
  intro l hl
  obtain ⟨i, hi, hih⟩ := List.mem_filterMap.1 hh
  refine List.mem_flatMap.2 ⟨i, hi, ?_⟩
  cases i with
  | handler =>
    cases hih
    exact hl
  | _ => cases hih

/-- The items of some code, in no order. -/
def bag (code : Code) : Multiset Item := Multiset.ofList code

theorem bag_nil : bag [] = 0 := rfl

theorem bag_cons (i : Item) (code : Code) : bag (i :: code) = {i} + bag code := rfl

theorem bag_append (a b : Code) : bag (a ++ b) = bag a + bag b := rfl

end Code

namespace Checked

open Code

def Between (n n' : Nat) (l : Label) : Prop := (n : Int) < l.number ∧ l.number ≤ n'

instance (n n' : Nat) (l : Label) : Decidable (Between n n' l) := inferInstanceAs (Decidable (_ ∧ _))

/-- Code with the labels between two numbers, each of them in one place. Its jumps may also lead to
the labels `outs`, and its handlers may also be about the labels `around`. -/
structure Laid (n n' : Nat) (outs around : List Label) (code : Code) : Prop where
  le : n ≤ n'
  once : ∀ l, code.placed.count l = if Between n n' l then 1 else 0
  jumps : ∀ l ∈ code.jumps, Between n n' l ∨ l ∈ outs
  ranges : ∀ l ∈ code.ranges, Between n n' l ∨ l ∈ around

theorem Between.mono {n n' m m' : Nat} {l : Label} (h : Between n n' l) (hm : m ≤ n)
    (hm' : n' ≤ m') : Between m m' l := by
  obtain ⟨h, h'⟩ := h
  constructor <;> omega

@[simp] theorem between_nth {n n' k : Nat} : Between n n' (.nth k) ↔ n < k ∧ k ≤ n' := by
  simp [Between]

def freshLabels : Nat → Nat → Code
  | _, 0 => []
  | n, k + 1 => .label (.nth (n + 1)) :: freshLabels (n + 1) k

namespace Laid

variable {n m n' : Nat} {outs around : List Label} {a b code : Code}

theorem placed (h : Laid n n' outs around code) {l : Label} (hl : Between n n' l) :
    l ∈ code.placed := by
  rw [← List.count_pos_iff, h.once, if_pos hl]
  exact Nat.one_pos

/-- Code that places no label. -/
theorem plain (code : Code) (hplaced : code.placed = [])
    (hjumps : ∀ l ∈ code.jumps, Between n n l ∨ l ∈ outs)
    (hranges : ∀ l ∈ code.ranges, Between n n l ∨ l ∈ around) : Laid n n outs around code := by
  refine ⟨le_refl n, fun l => ?_, hjumps, hranges⟩
  have hnone : ¬ Between n n l := by
    rintro ⟨h, h'⟩
    omega
  simp [hplaced, hnone]

/-- The next label. -/
theorem label (n : Nat) (outs around : List Label) :
    Laid n (n + 1) outs around [.label (.nth (n + 1))] := by
  refine ⟨Nat.le_succ n, fun l => ?_, by simp [Item.jumps], by simp [Item.ranges]⟩
  obtain ⟨k⟩ := l
  simp only [placed_label, placed_nil, List.count_singleton, Between, beq_iff_eq, Label.mk.injEq]
  grind

/-- Code that goes on with the next number may follow. -/
theorem append (ha : Laid n m outs around a) (hb : Laid m n' outs around b) :
    Laid n n' outs around (a ++ b) := by
  have hle := ha.le
  have hle' := hb.le
  refine ⟨hle.trans hle', fun l => ?_, fun l hl => ?_, fun l hl => ?_⟩
  · rw [placed_append, List.count_append, ha.once, hb.once]
    simp only [Between]
    grind
  · rw [jumps_append, List.mem_append] at hl
    rcases hl with hl | hl
    · exact (ha.jumps l hl).imp_left fun h => h.mono (le_refl n) hle'
    · exact (hb.jumps l hl).imp_left fun h => h.mono hle (le_refl n')
  · rw [ranges_append, List.mem_append] at hl
    rcases hl with hl | hl
    · exact (ha.ranges l hl).imp_left fun h => h.mono (le_refl n) hle'
    · exact (hb.ranges l hl).imp_left fun h => h.mono hle (le_refl n')

/-- Labels may be given from outside that are not needed, and need not be given if they are
placed. -/
theorem given {outs' around' : List Label} (h : Laid n n' outs around code)
    (houts : ∀ l ∈ outs, Between n n' l ∨ l ∈ outs')
    (haround : ∀ l ∈ around, Between n n' l ∨ l ∈ around') : Laid n n' outs' around' code :=
  ⟨h.le, h.once, fun l hl => (h.jumps l hl).elim .inl (houts l),
    fun l hl => (h.ranges l hl).elim .inl (haround l)⟩

/-- Nothing depends on the order. -/
theorem perm (h : Laid n n' outs around a) (hperm : a.Perm b) : Laid n n' outs around b := by
  refine ⟨h.le, fun l => ?_, fun l hl => h.jumps l ?_, fun l hl => h.ranges l ?_⟩
  · rw [← h.once l]
    exact ((hperm.filterMap _).count_eq l).symm
  · exact (hperm.flatMap_right _).mem_iff.2 hl
  · exact (hperm.flatMap_right _).mem_iff.2 hl

/-- New labels. -/
theorem labels (n k : Nat) (outs around : List Label) :
    Laid n (n + k) outs around (freshLabels n k) := by
  induction k generalizing n with
  | zero => exact plain [] rfl (by simp) (by simp)
  | succ k ih =>
    have hrest := (label n outs around).append (ih (n + 1))
    rwa [Nat.add_right_comm] at hrest

/-- Code around some parts: new labels for it, the parts, and the rest, which places nothing. -/
theorem enclose {k : Nat} {outs' around' : List Label} {parts : Code} (rest : Code)
    (hparts : Laid (n + k) n' outs' around' parts) (hrest : rest.placed = [])
    (hbag : bag (freshLabels n k ++ parts ++ rest) = bag code)
    (houts : ∀ l ∈ outs' ++ rest.jumps, Between n n' l ∨ l ∈ outs)
    (haround : ∀ l ∈ around' ++ rest.ranges, Between n n' l ∨ l ∈ around) :
    Laid n n' outs around code := by
  have hall : Laid n n' (outs' ++ rest.jumps) (around' ++ rest.ranges)
      (freshLabels n k ++ parts ++ rest) :=
    ((labels n k _ _).append (hparts.given (fun l hl => .inr (List.mem_append_left _ hl))
      fun l hl => .inr (List.mem_append_left _ hl))).append
      (plain rest hrest (fun l hl => .inr (List.mem_append_right _ hl))
        fun l hl => .inr (List.mem_append_right _ hl))
  exact (hall.perm (Multiset.coe_eq_coe.1 hbag)).given houts haround

end Laid

/-- A generator that succeeds from every number on. -/
def Lays (outs around : List Label) (g : Gen Code) : Prop :=
  ∀ n, ∃ code n', g n = .ok (code, n') ∧ Laid n n' outs around code

/-- An instruction that neither jumps nor needs anything but its argument. -/
def Ordinary (i : Item) : Prop :=
  ∃ c arg, i = .plain c arg ∧ Instruction.simple c arg = .plain c arg

theorem Ordinary.size {i : Item} (h : Ordinary i) : i.size = 1 := by
  obtain ⟨c, arg, rfl, _⟩ := h
  rfl

/-- Ordinary instructions need no labels. -/
theorem Ordinary.laid {n : Nat} {outs around : List Label} {code : Code}
    (h : ∀ i ∈ code, Ordinary i) : Laid n n outs around code := by
  refine .plain code ?_ ?_ ?_
  · refine List.filterMap_eq_nil_iff.2 fun i hi => ?_
    obtain ⟨c, arg, rfl, _⟩ := h i hi
    rfl
  · intro l hl
    obtain ⟨i, hi, hl⟩ := List.mem_flatMap.1 hl
    obtain ⟨c, arg, rfl, hsimple⟩ := h i hi
    rw [Item.jumps, hsimple] at hl
    cases hl
  · intro l hl
    obtain ⟨i, hi, hl⟩ := List.mem_flatMap.1 hl
    obtain ⟨c, arg, rfl, _⟩ := h i hi
    cases hl

theorem Laid.behind {n n' : Nat} {outs around : List Label} {code rest : Code}
    (h : Laid n n' outs around code) (hrest : ∀ i ∈ rest, Ordinary i) :
    Laid n n' outs around (code ++ rest) :=
  h.append (Ordinary.laid hrest)

@[simp] theorem ordinary_op (c : Opcode) :
    Ordinary (op c) ↔ Instruction.simple c .absent = .plain c .absent := by
  simp [Ordinary, op]

@[simp] theorem ordinary_load (cell : Cell) (slot : Nat) : Ordinary (load cell slot) :=
  ⟨_, _, rfl, rfl⟩

@[simp] theorem ordinary_store (cell : Cell) (slot : Nat) : Ordinary (store cell slot) :=
  ⟨_, _, rfl, rfl⟩

@[simp] theorem ordinary_ldc (v : Value) : Ordinary (ldc v) := ⟨_, _, rfl, rfl⟩

@[simp] theorem ordinary_call (m : Method) : Ordinary (call m) := ⟨_, _, rfl, rfl⟩

theorem opcode?_simple {o : Operator} {t : Ty} {c : Opcode} (h : opcode? o t = some c) :
    Instruction.simple c .absent = .plain c .absent := by
  unfold opcode? at h
  split at h <;> cases h <;> rfl

theorem operatorItem?_ordinary {o : Operator} {left right : Ty} {i : Item}
    (h : operatorItem? o left right = some i) : Ordinary i := by
  unfold operatorItem? at h
  split at h
  · cases h
    simp
  · obtain ⟨c, hc, rfl⟩ := Option.map_eq_some_iff.1 h
    exact (ordinary_op c).2 (opcode?_simple hc)

/-- Every operator that analysis accepts has an instruction. -/
theorem operatorItem?_isSome {o : Operator} {left right t : Ty} (h : Computes o left right t) :
    ∃ i, operatorItem? o left right = some i := by
  cases h with
  | join hjoin _ _ =>
    refine ⟨call (Method.concat left right), ?_⟩
    exact if_pos hjoin
  | arith op ht => exact ⟨_, if_neg (by rw [Bool.not_eq_true]; exact joins_arith op ht)⟩
  | bit op ht =>
    cases left with
    | int | long => exact ⟨_, rfl⟩
    | _ => cases ht
  | truthBit op => exact ⟨_, rfl⟩
  | shift op ht =>
    cases left with
    | int | long => exact ⟨_, rfl⟩
    | _ => cases ht

/-- Both forms of an expression can be made. -/
structure Forms.Lays (f : Forms) : Prop where
  value : Checked.Lays [] [] f.value
  cond : ∀ target onTrue, Checked.Lays [target] [] (f.cond target onTrue)

/-- Code with something behind it that places nothing. -/
theorem Laid.snoc {n n' : Nat} {outs : List Label} {code : Code} (h : Laid n n' [] [] code)
    (rest : Code) (hrest : rest.placed = []) (hranges : rest.ranges = [])
    (hjumps : ∀ l ∈ rest.jumps, l ∈ outs) : Laid n n' outs [] (code ++ rest) := by
  refine Laid.append (h.given (by simp) (by simp)) (.plain rest hrest ?_ ?_)
  · exact fun l hl => .inr (hjumps l hl)
  · simp [hranges]

/-- A value that is tested makes a condition. -/
theorem test_lays {value : Gen Code} (h : Lays [] [] value) (target : Label) (onTrue : Bool) :
    Lays [target] [] (Forms.test value target onTrue) := by
  intro n
  obtain ⟨c, n', hc, hlaid⟩ := h n
  exact ⟨_, n', test_ok.2 ⟨c, hc, rfl⟩, hlaid.snoc _ rfl rfl (by simp [Item.jumps])⟩

theorem Forms.Lays.ofValue {value : Gen Code} (h : Checked.Lays [] [] value) :
    (Forms.ofValue value).Lays := ⟨h, test_lays h⟩

/-- A condition makes a value with two labels of its own. -/
theorem materialize_lays {cond : Label → Bool → Gen Code}
    (h : ∀ target onTrue, Lays [target] [] (cond target onTrue)) :
    Lays [] [] (Forms.materialize cond) := by
  intro n
  obtain ⟨c, n', hc, hlaid⟩ := h (.nth (n + 1)) false (n + 2)
  have hle := hlaid.le
  refine ⟨_, n', materialize_ok.2 ⟨c, hc, rfl⟩,
    hlaid.enclose [ldc (.int 1), goto (.nth (n + 2)), ldc (.int 0)] rfl ?_ ?_ ?_⟩
  · simp only [freshLabels, bag_cons, bag_append, bag_nil]
    abel
  · simp [Item.jumps, Instruction.simple, Instruction.labels, ldc, goto]
    omega
  · simp [Item.ranges, ldc, goto]

theorem Forms.Lays.ofCond {cond : Label → Bool → Gen Code}
    (h : ∀ target onTrue, Checked.Lays [target] [] (cond target onTrue)) :
    (Forms.ofCond cond).Lays := ⟨materialize_lays h, h⟩

theorem comparison_plain (rel : Relation) (t : Option Ty) :
    (comparison rel t).1.placed = [] ∧ (comparison rel t).1.jumps = [] ∧
      (comparison rel t).1.ranges = [] := by
  unfold comparison
  split
  · exact ⟨rfl, rfl, rfl⟩
  · split <;> exact ⟨rfl, rfl, rfl⟩
  · split <;> exact ⟨rfl, rfl, rfl⟩
  · exact ⟨rfl, rfl, rfl⟩

theorem compare_lays {left right : Gen Code} (hl : Lays [] [] left) (hr : Lays [] [] right)
    (rel : Relation) (t : Option Ty) (target : Label) (onTrue : Bool) :
    Lays [target] [] (compare rel t left right target onTrue) := by
  intro n
  obtain ⟨a, m, ha, hla⟩ := hl n
  obtain ⟨b, n', hb, hlb⟩ := hr m
  obtain ⟨hplaced, hjumps, hranges⟩ := comparison_plain rel t
  refine ⟨_, n', compare_ok.2 ⟨a, m, ha, b, hb, rfl⟩, ?_⟩
  rw [List.append_assoc]
  refine (hla.append hlb).snoc _ ?_ ?_ ?_
  · simp [hplaced]
  · simp [hranges, Item.ranges]
  · simp [hjumps, Item.jumps]

/-- Two conditions may share one label more. -/
theorem both_lays {left right : Label → Bool → Gen Code}
    (hl : ∀ target onTrue, Lays [target] [] (left target onTrue))
    (hr : ∀ target onTrue, Lays [target] [] (right target onTrue)) (o : LogicalOp)
    (target : Label) (onTrue : Bool) : Lays [target] [] (both o left right target onTrue) := by
  intro n
  by_cases h : decide (o = .and) = onTrue
  · obtain ⟨a, m, ha, hla⟩ := hl (.nth (n + 1)) (!onTrue) (n + 1)
    obtain ⟨b, n', hb, hlb⟩ := hr target onTrue m
    have hle := hla.le
    have hle' := hlb.le
    have hparts : Laid (n + 1) n' [.nth (n + 1), target] [] (a ++ b) :=
      (hla.given (by simp) (by simp)).append (hlb.given (by simp) (by simp))
    refine ⟨_, n', (both_skip_ok h).2 ⟨a, m, ha, b, hb, rfl⟩, hparts.enclose [] rfl ?_ ?_ ?_⟩
    · simp only [freshLabels, bag_cons, bag_append, bag_nil]
      abel
    · simp
      omega
    · simp
  · obtain ⟨a, m, ha, hla⟩ := hl target onTrue n
    obtain ⟨b, n', hb, hlb⟩ := hr target onTrue m
    exact ⟨_, n', (both_join_ok h).2 ⟨a, m, ha, b, hb, rfl⟩, hla.append hlb⟩

theorem constant_ordinary (value : Option Constant) : Ordinary (constant value) := by
  unfold constant
  split <;> exact ⟨_, _, rfl, rfl⟩

theorem one_ordinary (t : Ty) : Ordinary (one t) := by
  unfold one
  split <;> exact ⟨_, _, rfl, rfl⟩

theorem incrementCode_ordinary {side : Side} {x : Local} {i : Item} (hi : Ordinary i) :
    ∀ j ∈ incrementCode side x i, Ordinary j := by
  cases side <;> simp [incrementCode, one_ordinary, hi, Instruction.simple]

mutual

/-- Sound expressions have code in both forms. -/
theorem forms_lays {vs : List Local} (hvs : Storable vs) :
    ∀ {e : Expr}, e.Sound vs → (forms e).Lays
  | .literal t value, h => by
    have hpush : Lays [] [] (pure [constant value]) := fun n =>
      ⟨_, n, rfl, Ordinary.laid (by simp [constant_ordinary])⟩
    unfold forms
    split
    · rename_i b
      refine ⟨hpush, fun target onTrue n => ⟨_, n, rfl, ?_⟩⟩
      split
      · exact .plain _ rfl (by simp [goto, Item.jumps]) (by simp [goto, Item.ranges])
      · exact .plain _ rfl (by simp) (by simp)
    · exact .ofValue hpush
  | .var v, ⟨x, _, hv⟩ => by
    subst hv
    exact .ofValue fun n => ⟨_, n, rfl, Ordinary.laid (by simp)⟩
  | .assign .plain target value, ⟨hvalue, x, _, ht, _⟩ => by
    subst ht
    refine .ofValue fun n => ?_
    obtain ⟨c, n', hc, hlaid⟩ := (forms_lays hvs hvalue).value n
    refine ⟨_, n', value_assign_ok.2 ⟨c, hc, x, rfl, rfl⟩, hlaid.behind ?_⟩
    simp [Instruction.simple]
  | .assign (.compound o) target value, ⟨hvalue, x, hx, ht, t, operand, hbin, _⟩ => by
    subst ht
    obtain ⟨i, hi⟩ := operatorItem?_isSome
      (computes_of_binary (ne_any_of_storable (hvs x hx)) (hvalue.type_ne_any hvs) hbin)
    have hord := operatorItem?_ordinary hi
    refine .ofValue fun n => ?_
    obtain ⟨c, n', hc, hlaid⟩ := (forms_lays hvs hvalue).value n
    refine ⟨_, n', value_compound_ok.2 ⟨x, rfl, c, hc, _, hi, rfl⟩, ?_⟩
    have hload : Laid n n [] [] [load x.type.cell x.slot] := Ordinary.laid (by simp)
    exact (hload.append hlaid).behind (by simp [hord, Instruction.simple])
  | .binary (.compute o) t u left right, ⟨hl, hr, operand, _, hbin⟩ => by
    obtain ⟨i, hi⟩ := operatorItem?_isSome
      (computes_of_binary (hl.type_ne_any hvs) (hr.type_ne_any hvs) hbin)
    have hord := operatorItem?_ordinary hi
    refine .ofValue fun n => ?_
    obtain ⟨a, m, ha, hla⟩ := (forms_lays hvs hl).value n
    obtain ⟨b, n', hb, hlb⟩ := (forms_lays hvs hr).value m
    exact ⟨_, n', (value_compute_ok t u).2 ⟨a, m, ha, b, hb, _, hi, rfl⟩,
      (hla.append hlb).behind (by simp [hord])⟩
  | .binary (.compare rel) t u left right, ⟨hl, hr, _⟩ =>
    .ofCond (compare_lays (forms_lays hvs hl).value (forms_lays hvs hr).value rel u)
  | .logical o left right, ⟨hl, _, hr, _⟩ =>
    .ofCond (both_lays (forms_lays hvs hl).cond (forms_lays hvs hr).cond o)
  | .unary .neg t operand, ⟨h, _⟩ => by
    refine .ofValue fun n => ?_
    obtain ⟨c, n', hc, hlaid⟩ := (forms_lays hvs h).value n
    exact ⟨_, n', value_neg_ok.2 ⟨c, hc, rfl⟩, hlaid.behind (by simp [Instruction.simple])⟩
  | .unary .not t operand, ⟨h, _⟩ => .ofCond fun target onTrue => (forms_lays hvs h).cond target !onTrue
  | .unary .complement t operand, ⟨h, _⟩ => by
    refine .ofValue fun n => ?_
    obtain ⟨c, n', hc, hlaid⟩ := (forms_lays hvs h).value n
    refine ⟨_, n', value_complement_ok.2 ⟨c, hc, rfl⟩, ?_⟩
    split <;> exact hlaid.behind (by simp [Instruction.simple])
  | .increment o side target, ⟨x, hx, ht, hnum⟩ => by
    subst ht
    have hcomputes : Computes (stepOperator o) x.type x.type x.type := by
      cases o <;> exact .arith _ hnum
    obtain ⟨i, hi⟩ := operatorItem?_isSome hcomputes
    exact .ofValue fun n => ⟨_, n, value_increment_ok.2 ⟨x, rfl, i, hi, rfl, rfl⟩,
      Ordinary.laid (incrementCode_ordinary (operatorItem?_ordinary hi))⟩
  | .conditional t cond thenPart elsePart, ⟨hc, _, ht, he, _⟩ => by
    refine .ofValue fun n => ?_
    obtain ⟨a, m, ha, hla⟩ := (forms_lays hvs hc).cond (.nth (n + 1)) false (n + 2)
    obtain ⟨b, m', hb, hlb⟩ := (forms_lays hvs ht).value m
    obtain ⟨c, n', hc, hlc⟩ := (forms_lays hvs he).value m'
    have hle := hla.le
    have hle' := hlb.le
    have hle'' := hlc.le
    have hparts : Laid (n + 2) n' [.nth (n + 1)] [] (a ++ b ++ c) :=
      (hla.append (hlb.given (by simp) (by simp))).append (hlc.given (by simp) (by simp))
    refine ⟨_, n', (value_conditional_ok t).2 ⟨a, m, ha, b, m', hb, c, hc, rfl⟩,
      hparts.enclose [goto (.nth (n + 2))] rfl ?_ ?_ ?_⟩
    · simp only [freshLabels, bag_cons, bag_append, bag_nil]
      abel
    · simp [goto, Item.jumps]
      omega
    · simp [goto, Item.ranges]
  | .new t, _ => .ofValue fun n =>
    ⟨_, n, rfl, Ordinary.laid (by simp [Ordinary, Instruction.simple])⟩
  | .call method args, ⟨hargs, m, name, hm, _⟩ => by
    subst hm
    refine .ofValue fun n => ?_
    obtain ⟨c, n', hc, hlaid⟩ := values_lays hvs hargs n
    exact ⟨_, n', value_call_ok.2 ⟨c, hc, rfl⟩, hlaid.behind (by simp)⟩
  | .group inner, h => forms_lays hvs (e := inner) h

theorem values_lays {vs : List Local} (hvs : Storable vs) :
    ∀ {es : List Expr}, Expr.AllSound vs es → Lays [] [] (values es)
  | [], _ => fun n => ⟨_, n, rfl, .plain _ rfl (by simp) (by simp)⟩
  | e :: es, ⟨he, hes⟩ => fun n => by
    obtain ⟨a, m, ha, hla⟩ := (forms_lays hvs he).value n
    obtain ⟨b, n', hb, hlb⟩ := values_lays hvs hes m
    exact ⟨_, n', values_cons_ok.2 ⟨a, m, ha, b, hb, rfl⟩, hla.append hlb⟩

end

end Checked

end Jminus
