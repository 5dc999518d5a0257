import Jminus.Proofs.Meaning
import Jminus.Proofs.Typing.Expr
import Mathlib

/-!
Which operands an operator takes, case by case. Both evaluation and code go by these cases.
-/
namespace Jminus.Checked

open Meaning

/-- An operator on operands of two types, and the type of the result. -/
inductive Computes : Operator → Ty → Ty → Ty → Prop
  | join {o : Operator} {left right : Ty} (hjoin : joins o left right = true)
      (hleft : left ≠ .void) (hright : right ≠ .void) : Computes o left right (.ref .string)
  | arith (op : ArithOp) {t : Ty} (ht : t.isNumeric = true) : Computes (.arith op) t t t
  | bit (op : BitOp) {t : Ty} (ht : t.isIntegral = true) : Computes (.bit op) t t t
  | truthBit (op : BitOp) : Computes (.bit op) .boolean .boolean .boolean
  | shift (op : ShiftOp) {t : Ty} (ht : t.isIntegral = true) : Computes (.shift op) t .int t

/-- No operand is void, and no result. -/
theorem Computes.ne_void {o : Operator} {left right t : Ty} (h : Computes o left right t) :
    left ≠ .void ∧ right ≠ .void ∧ t ≠ .void := by
  cases h with
  | join _ hleft hright => exact ⟨hleft, hright, Ty.noConfusion⟩
  | truthBit => exact ⟨Ty.noConfusion, Ty.noConfusion, Ty.noConfusion⟩
  | arith op ht | bit op ht | shift op ht =>
    have hne : left ≠ .void := by
      rintro rfl
      cases ht
    first | exact ⟨hne, hne, hne⟩ | exact ⟨hne, Ty.noConfusion, hne⟩

theorem computes_of_binary {o : Operator} {left right t operand : Ty} (hl : left ≠ .any)
    (hr : right ≠ .any) (h : Ty.binary (some (.compute o)) left right = some (t, operand)) :
    Computes o left right t := by
  simp only [Ty.binary, hl, hr, decide_false, Bool.or_self, Bool.false_eq_true, if_false] at h
  split at h
  · cases h
  · rename_i hvoid
    simp only [Bool.or_eq_true, decide_eq_true_eq, not_or] at hvoid
    cases o with
    | arith op =>
      simp only [] at h
      split at h
      · rename_i hjoin
        cases h
        refine .join ?_ hvoid.1 hvoid.2
        simpa [joins] using hjoin
      · split at h
        · rename_i hsame
          cases h
          rw [Bool.and_eq_true, decide_eq_true_eq] at hsame
          obtain ⟨rfl, hnum⟩ := hsame
          exact .arith op hnum
        · cases h
    | bit op =>
      simp only [] at h
      split at h
      · rename_i hsame
        cases h
        simp only [Bool.and_eq_true, Bool.or_eq_true, decide_eq_true_eq] at hsame
        obtain ⟨rfl, hint | rfl⟩ := hsame
        · exact .bit op hint
        · exact .truthBit op
      · cases h
    | shift op =>
      simp only [] at h
      split at h
      · rename_i hint
        cases h
        simp only [Bool.and_eq_true, decide_eq_true_eq] at hint
        obtain ⟨hint, rfl⟩ := hint
        exact .shift op hint
      · cases h

/-- Sums of numbers are not texts. -/
theorem joins_arith (op : ArithOp) {t : Ty} (ht : t.isNumeric = true) :
    joins (.arith op) t t = false := by
  cases t with
  | ref c => cases ht
  | _ => simp [joins]

/-- A relation between operands of two types, and the type in which they are compared. -/
inductive Compares : Relation → Ty → Ty → Ty → Prop
  | ordered (rel : Relation) {t : Ty} (ht : (t.isNumeric || t = .char) = true) :
      Compares rel t t t
  | truth {rel : Relation} (hrel : rel = .eq ∨ rel = .ne) : Compares rel .boolean .boolean .boolean
  | reference {rel : Relation} {left right : Ty} (hrel : rel = .eq ∨ rel = .ne)
      (hleft : left.isReference = true) (hright : right.isReference = true) :
      Compares rel left right (.ref .object)

theorem Compares.ne_void {rel : Relation} {left right operand : Ty}
    (h : Compares rel left right operand) : left ≠ .void ∧ right ≠ .void := by
  cases h with
  | ordered ht =>
    have hne : left ≠ .void := by
      rintro rfl
      cases ht
    exact ⟨hne, hne⟩
  | truth => exact ⟨Ty.noConfusion, Ty.noConfusion⟩
  | reference _ hleft hright =>
    constructor
    · rintro rfl
      cases hleft
    · rintro rfl
      cases hright

theorem compares_of_binary {rel : Relation} {left right t operand : Ty} (hl : left ≠ .any)
    (hr : right ≠ .any) (h : Ty.binary (some (.compare rel)) left right = some (t, operand)) :
    Compares rel left right operand ∧ t = .boolean := by
  simp only [Ty.binary, hl, hr, decide_false, Bool.or_self, Bool.false_eq_true, if_false] at h
  split at h
  · cases h
  · split at h
    · rename_i hrel
      simp only [Bool.or_eq_true, decide_eq_true_eq] at hrel
      split at h
      · rename_i hsame
        cases h
        simp only [Bool.and_eq_true, decide_eq_true_eq] at hsame
        obtain ⟨rfl, hprim⟩ := hsame
        refine ⟨?_, rfl⟩
        cases left with
        | int | long | double | char => exact .ordered rel rfl
        | boolean => exact .truth hrel
        | _ => cases hprim
      · split at h
        · rename_i href
          cases h
          simp only [Bool.and_eq_true] at href
          exact ⟨.reference hrel href.1.1 href.1.2, rfl⟩
        · cases h
    · split at h
      · rename_i hsame
        cases h
        simp only [Bool.and_eq_true, decide_eq_true_eq] at hsame
        obtain ⟨rfl, hord⟩ := hsame
        exact ⟨.ordered rel hord, rfl⟩
      · cases h

end Jminus.Checked
