import Jminus.Machine.Arithmetic
import Jminus.Proofs.Meaning
import Mathlib

/-!
Comparing numbers. The machine reduces every comparison to one of ints, and these say that nothing
is lost on the way: a double that is not a number still fails every relation but `ne`.
-/
namespace Jminus

open Checked.Meaning (between)

/-- The negation of a relation holds where the relation does not. -/
theorem Relation.holds_negate (rel : Relation) (a b : Int32) :
    rel.negate.holds a b = !rel.holds a b := by
  have hle : ∀ x y : Int32, decide (x ≤ y) = !decide (y < x) := by
    intro x y
    rw [← decide_not]
    exact decide_eq_decide.2 (Int32.not_lt).symm
  cases rel <;> simp [Relation.negate, Relation.holds, hle]

theorem holds_ints (rel : Relation) (a b : Int32) : rel.holds a b = between rel a b := by
  cases rel <;> simp [Relation.holds, between, Bool.beq_eq_decide_eq, bne]

/-- Longs are in the order of their comparison with zero. -/
theorem holds_longOrder (rel : Relation) (a b : Int64) :
    rel.holds (Arithmetic.longOrder a b) 0 = between rel a b := by
  have hlt : ∀ x y : Int64, x < y ↔ x.toInt < y.toInt := fun _ _ => Int64.lt_iff_toInt_lt
  have hle : ∀ x y : Int64, x ≤ y ↔ x.toInt ≤ y.toInt := fun _ _ => Int64.le_iff_toInt_le
  have heq : ∀ x y : Int64, x = y ↔ x.toInt = y.toInt := fun _ _ => Int64.toInt_inj.symm
  rcases lt_trichotomy a.toInt b.toInt with h | h | h
  · have hord : Arithmetic.longOrder a b = -1 := by simp [Arithmetic.longOrder, hlt, h]
    rw [hord]
    cases rel <;> simp [Relation.holds, between, hlt, hle, heq, bne, Bool.beq_eq_decide_eq] <;> omega
  · obtain rfl := Int64.toInt_inj.1 h
    have hord : Arithmetic.longOrder a a = 0 := by simp [Arithmetic.longOrder]
    rw [hord]
    cases rel <;> simp [Relation.holds, between]
  · have hord : Arithmetic.longOrder a b = 1 := by
      simp [Arithmetic.longOrder, hlt, h, not_lt.2 h.le]
    rw [hord]
    cases rel <;> simp [Relation.holds, between, hlt, hle, heq, bne, Bool.beq_eq_decide_eq] <;> omega

section Doubles

open Float.Model (UnpackedFloat)

/-- Comparing the other way round turns the order round. -/
theorem compare_swap (a b : UnpackedFloat) : b.compare a = (a.compare b).map Ordering.swap := by
  have hswap : ∀ (m n : Nat) (d e : Int), (compare e d).then (compare n m) =
      ((compare d e).then (compare m n)).swap := by
    intro m n d e
    rw [Ordering.swap_then, ← Std.OrientedCmp.eq_swap, ← Std.OrientedCmp.eq_swap]
  cases a with
  | notANumber => cases b <;> rfl
  | infinity s =>
    cases b with
    | infinity t => cases s <;> cases t <;> rfl
    | _ => cases s <;> rfl
  | zero s =>
    cases b with
    | infinity t | finite t => cases t <;> rfl
    | _ => rfl
  | finite s m d hm =>
    cases b with
    | notANumber => cases s <;> rfl
    | infinity t => cases s <;> cases t <;> rfl
    | zero t => cases s <;> rfl
    | finite t n e hn =>
      cases s <;> cases t
      · exact congrArg some (congrArg Ordering.swap (hswap m n d e))
      · rfl
      · rfl
      · exact congrArg some (hswap m n d e)

/-- Without an order one of the numbers is no number. -/
theorem compare_isNone (a b : UnpackedFloat) : (a.compare b).isNone = (a.isNaN || b.isNaN) := by
  cases a with
  | notANumber => cases b <;> rfl
  | infinity s =>
    cases b with
    | infinity t => rfl
    | _ => cases s <;> rfl
  | zero s =>
    cases b with
    | infinity t | finite t => cases t <;> rfl
    | _ => rfl
  | finite s m d hm =>
    cases b with
    | notANumber => cases s <;> rfl
    | zero t => cases s <;> rfl
    | infinity t | finite t => cases s <;> cases t <;> rfl

theorem double_lt (x y : Float) : x < y ↔ x.toModel.compare y.toModel = some .lt :=
  decide_eq_true_iff.trans beq_iff_eq

theorem double_le (x y : Float) :
    x ≤ y ↔ (x.toModel.compare y.toModel).any (·.isLE) = true :=
  decide_eq_true_iff

theorem double_beq (x y : Float) : (x == y) = (x.toModel.compare y.toModel == some .eq) := rfl

/-- The number that an order becomes. -/
def orderCode (unordered : Int32) : Option Ordering → Int32
  | none => unordered
  | some .lt => -1
  | some .eq => 0
  | some .gt => 1

/-- The machine compares doubles by their order. -/
theorem doubleOrder_eq (unordered : Int32) (x y : Float) :
    Arithmetic.doubleOrder unordered x y = orderCode unordered (x.toModel.compare y.toModel) := by
  have hnan : (x.isNaN || y.isNaN) = (x.toModel.compare y.toModel).isNone :=
    (compare_isNone _ _).symm
  have hgt : y < x ↔ (x.toModel.compare y.toModel).map Ordering.swap = some .lt := by
    rw [double_lt]
    exact iff_of_eq (congrArg (· = some Ordering.lt) (compare_swap _ _))
  simp only [Arithmetic.doubleOrder, hnan, double_lt x y, hgt]
  cases x.toModel.compare y.toModel with
  | none => rfl
  | some ord => cases ord <;> rfl

/-- Which way a pair that has no order counts depends on the relation that is asked for. -/
theorem holds_doubleOrder (rel : Relation) (x y : Float) :
    rel.holds (Arithmetic.doubleOrder (if rel = .lt || rel = .le then 1 else -1) x y) 0 =
      between rel x y := by
  have hswap : y.toModel.compare x.toModel = (x.toModel.compare y.toModel).map Ordering.swap :=
    compare_swap _ _
  rw [doubleOrder_eq]
  cases rel <;>
    simp only [between, double_lt, double_le, double_beq, bne, hswap] <;>
    generalize x.toModel.compare y.toModel = ord <;>
    rcases ord with _ | (_ | _ | _) <;> decide

end Doubles

end Jminus
