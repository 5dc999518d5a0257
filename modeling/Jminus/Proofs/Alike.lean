import Jminus.Proofs.Meaning
import Mathlib

/-!
Checked trees that differ in nothing that matters: their variables may be in other slots, their
frames may have other numbers, and the first round of a do loop may be written out before a while
loop with the rest of them.

Expressions come first. Alike expressions have the same type and the same value, and what they do to
alike worlds leaves them alike.
-/
namespace Jminus.Checked

/-- Variables of one tree, each with the one that stands for it in the other, innermost first. -/
abbrev Pairing := List (Local × Local)

namespace Pairing

structure Adds (ρ : Pairing) (v v' : Local) : Prop where
  type : v.type = v'.type
  left : ∀ p ∈ ρ, p.1.slot ≠ v.slot
  right : ∀ p ∈ ρ, p.2.slot ≠ v'.slot

/-- Pairs of one type each, which share a slot on both sides or on none. -/
structure Exact (ρ : Pairing) : Prop where
  type : ∀ p ∈ ρ, p.1.type = p.2.type
  slot : ∀ p ∈ ρ, ∀ q ∈ ρ, p.1.slot = q.1.slot ↔ p.2.slot = q.2.slot

def flip (ρ : Pairing) : Pairing := ρ.map Prod.swap

variable {ρ : Pairing} {v v' : Local}

theorem mem_flip {p : Local × Local} : p ∈ ρ.flip ↔ p.swap ∈ ρ := by
  rw [flip, ← List.mem_map_of_injective Prod.swap_injective, List.map_map]
  simp

theorem Adds.flip (h : ρ.Adds v v') : ρ.flip.Adds v' v :=
  ⟨h.type.symm, fun _ hp => h.right _ (mem_flip.1 hp), fun _ hp => h.left _ (mem_flip.1 hp)⟩

theorem Exact.nil : Exact [] := ⟨by simp, by simp⟩

/-- A new pair keeps pairs exact if both of its slots are new. -/
theorem Exact.cons (h : ρ.Exact) (hv : ρ.Adds v v') : Exact ((v, v') :: ρ) := by
  constructor
  · exact List.forall_mem_cons.2 ⟨hv.type, h.type⟩
  · intro p hp q hq
    rcases List.mem_cons.1 hp with rfl | hp <;> rcases List.mem_cons.1 hq with rfl | hq
    · simp
    · simp [(hv.left q hq).symm, (hv.right q hq).symm]
    · simp [hv.left p hp, hv.right p hp]
    · exact h.slot p hp q hq

end Pairing

mutual

inductive Expr.Alike (ρ : Pairing) : Expr → Expr → Prop
  | literal (type value) : Expr.Alike ρ (.literal type value) (.literal type value)
  | var {v v'} : (v, v') ∈ ρ → Expr.Alike ρ (.var (some v)) (.var (some v'))
  | assign {op v v' e e'} : (v, v') ∈ ρ → Expr.Alike ρ e e' →
    Expr.Alike ρ (.assign op (some v) e) (.assign op (some v') e')
  | binary {op type operandType l l' r r'} : Expr.Alike ρ l l' → Expr.Alike ρ r r' →
    Expr.Alike ρ (.binary op type operandType l r) (.binary op type operandType l' r')
  | logical {op l l' r r'} : Expr.Alike ρ l l' → Expr.Alike ρ r r' →
    Expr.Alike ρ (.logical op l r) (.logical op l' r')
  | unary {op type e e'} : Expr.Alike ρ e e' →
    Expr.Alike ρ (.unary op type e) (.unary op type e')
  | increment {op side v v'} : (v, v') ∈ ρ →
    Expr.Alike ρ (.increment op side (some v)) (.increment op side (some v'))
  | conditional {type c c' a a' b b'} : Expr.Alike ρ c c' → Expr.Alike ρ a a' →
    Expr.Alike ρ b b' → Expr.Alike ρ (.conditional type c a b) (.conditional type c' a' b')
  | new (type) : Expr.Alike ρ (.new type) (.new type)
  | call {method args args'} : Expr.AllAlike ρ args args' →
    Expr.Alike ρ (.call method args) (.call method args')
  | group {e e'} : Expr.Alike ρ e e' → Expr.Alike ρ (.group e) (.group e')

inductive Expr.AllAlike (ρ : Pairing) : List Expr → List Expr → Prop
  | nil : Expr.AllAlike ρ [] []
  | cons {e e' es es'} : Expr.Alike ρ e e' → Expr.AllAlike ρ es es' →
    Expr.AllAlike ρ (e :: es) (e' :: es')

end

namespace Expr

variable {ρ : Pairing}

mutual

/-- Being alike can be seen from the other side. -/
theorem Alike.flip {e e' : Expr} : Alike ρ e e' → Alike ρ.flip e' e
  | .literal type value => .literal type value
  | .var h => .var (Pairing.mem_flip.2 h)
  | .assign h he => .assign (Pairing.mem_flip.2 h) he.flip
  | .binary hl hr => .binary hl.flip hr.flip
  | .logical hl hr => .logical hl.flip hr.flip
  | .unary he => .unary he.flip
  | .increment h => .increment (Pairing.mem_flip.2 h)
  | .conditional hc ha hb => .conditional hc.flip ha.flip hb.flip
  | .new type => .new type
  | .call hargs => .call hargs.flip
  | .group he => .group he.flip

theorem AllAlike.flip {es es' : List Expr} : AllAlike ρ es es' → AllAlike ρ.flip es' es
  | .nil => .nil
  | .cons he hes => .cons he.flip hes.flip

end

/-- Alike expressions are of one type. -/
theorem Alike.type (hρ : ρ.Exact) : ∀ {e e' : Expr}, Alike ρ e e' → e.type = e'.type
  | _, _, .literal .. | _, _, .binary .. | _, _, .logical .. | _, _, .unary .. => rfl
  | _, _, .conditional .. | _, _, .new _ => rfl
  | _, _, .var h | _, _, .assign h _ | _, _, .increment h => hρ.type _ h
  | .call none _, _, .call _ | .call (some _) _, _, .call _ => rfl
  | _, _, .group he => he.type hρ

theorem AllAlike.types (hρ : ρ.Exact) :
    ∀ {es es' : List Expr}, AllAlike ρ es es' → es.map Expr.type = es'.map Expr.type
  | _, _, .nil => rfl
  | _, _, .cons he hes => by rw [List.map_cons, List.map_cons, he.type hρ, hes.types hρ]

end Expr

namespace Meaning

structure World.Alike (ρ : Pairing) (w w' : World) : Prop where
  vars : ∀ p ∈ ρ, w.vars p.1.slot = w'.vars p.2.slot
  printed : w.printed = w'.printed
  made : w.made = w'.made

/-- Actions with the same result that leave alike worlds alike. -/
def Eval.Alike {α : Type} (ρ : Pairing) (x x' : Eval α) : Prop :=
  ∀ w w', World.Alike ρ w w' →
    Option.Rel (fun r r' => r.1 = r'.1 ∧ World.Alike ρ r.2 r'.2) (x w) (x' w')

variable {ρ σ : Pairing} {v v' : Local} {w w' : World}

namespace World.Alike

theorem mono (h : World.Alike σ w w') (hsub : ρ ⊆ σ) : World.Alike ρ w w' :=
  ⟨fun p hp => h.vars p (hsub hp), h.printed, h.made⟩

/-- What is stored to both variables of a pair leaves worlds alike. -/
theorem set (h : World.Alike ρ w w') (hρ : ρ.Exact) (hv : (v, v') ∈ ρ) (d : Datum) :
    World.Alike ρ (w.set v.slot d) (w'.set v'.slot d) := by
  refine ⟨fun p hp => ?_, h.printed, h.made⟩
  have hslot := hρ.slot p hp _ hv
  simp only [World.set, hslot, h.vars p hp]

theorem declare (h : World.Alike ρ w w') (hv : ρ.Adds v v') (d : Datum) :
    World.Alike ((v, v') :: ρ) (w.set v.slot d) (w'.set v'.slot d) := by
  refine ⟨List.forall_mem_cons.2 ⟨by simp [World.set], fun p hp => ?_⟩, h.printed, h.made⟩
  simp only [World.set, hv.left p hp, hv.right p hp, if_false, h.vars p hp]

end World.Alike

namespace Eval.Alike

variable {α β : Type}

/-- Alike actions give no answer, or the same answer in alike worlds. -/
@[elab_as_elim]
theorem answers {x x' : Eval α}
    {motive : Option (Except Raised α × World) → Option (Except Raised α × World) → Prop}
    (hx : Eval.Alike ρ x x') (hw : World.Alike ρ w w') (hstuck : motive none none)
    (hok : ∀ a w w', World.Alike ρ w w' → motive (some (.ok a, w)) (some (.ok a, w')))
    (hraised : ∀ e w w', World.Alike ρ w w' → motive (some (.error e, w)) (some (.error e, w'))) :
    motive (x w) (x' w') := by
  have hr := hx w w' hw
  generalize x w = r, x' w' = r' at hr ⊢
  cases hr with
  | none => exact hstuck
  | @some r r' hr =>
    obtain ⟨a, w₁⟩ := r
    obtain ⟨a', w₁'⟩ := r'
    obtain ⟨rfl, hw⟩ := hr
    cases a with
    | ok a => exact hok a w₁ w₁' hw
    | error e => exact hraised e w₁ w₁' hw

theorem pure (a : α) : Eval.Alike ρ (Pure.pure a) (Pure.pure a) :=
  fun _ _ h => .some ⟨rfl, h⟩

/-- Alike actions that go on alike are alike. -/
theorem bind {x x' : Eval α} {f f' : α → Eval β} (hx : Eval.Alike ρ x x')
    (hf : ∀ a, Eval.Alike ρ (f a) (f' a)) : Eval.Alike ρ (x >>= f) (x' >>= f') := by
  intro w w' h
  change Option.Rel _ (x w >>= _) (x' w' >>= _)
  exact hx.answers h .none (fun a w w' hw => hf a w w' hw) fun _ _ _ hw => .some ⟨rfl, hw⟩

theorem stuck : Eval.Alike ρ (Eval.stuck : Eval α) Eval.stuck := fun _ _ _ => .none

theorem ofOption (a : Option α) : Eval.Alike ρ (Eval.ofOption a) (Eval.ofOption a) := by
  cases a with
  | none => exact stuck
  | some a => exact pure a

theorem print (text : String) : Eval.Alike ρ (Eval.print text) (Eval.print text) := by
  intro w w' h
  exact .some ⟨rfl, h.vars, congrArg (· ++ [text]) h.printed, h.made⟩

theorem create (cls : Class) : Eval.Alike ρ (Eval.create cls) (Eval.create cls) := by
  intro w w' h
  refine .some ⟨?_, h.vars, h.printed, congrArg (· + 1) h.made⟩
  rw [h.made]

theorem raise (cls : Class) : Eval.Alike ρ (Eval.raise cls : Eval α) (Eval.raise cls) :=
  (create cls).bind fun _ _ _ h => .some ⟨rfl, h⟩

/-- Both variables of a pair hold the same value. -/
theorem read (hv : (v, v') ∈ ρ) : Eval.Alike ρ (Eval.read v.slot) (Eval.read v'.slot) :=
  fun _ _ h => .some ⟨congrArg Except.ok (h.vars _ hv), h⟩

theorem write (hρ : ρ.Exact) (hv : (v, v') ∈ ρ) (d : Datum) :
    Eval.Alike ρ (Eval.write v.slot d) (Eval.write v'.slot d) :=
  fun _ _ h => .some ⟨rfl, h.set hρ hv d⟩

end Eval.Alike

open Eval (Alike)

/-- What an operand is taken for has nothing to do with variables. -/
theorem truth_alike (d : Datum) : Alike ρ (truth d) (truth d) := by
  unfold truth
  split
  · exact .pure _
  · exact .stuck

theorem number_alike (d : Datum) : Alike ρ (number d) (number d) := by
  unfold number
  split
  · exact .pure _
  · exact .stuck

theorem arith_alike (op : ArithOp) (a b : Datum) : Alike ρ (arith op a b) (arith op a b) := by
  unfold arith
  split
  · cases op with
    | add | sub | mul => exact .pure _
    | div | rem =>
      dsimp only
      split
      · exact .raise _
      · exact .pure _
  · cases op with
    | add | sub | mul => exact .pure _
    | div | rem =>
      dsimp only
      split
      · exact .raise _
      · exact .pure _
  · cases op <;> exact .pure _
  · exact .stuck

theorem bit_alike (op : BitOp) (a b : Datum) : Alike ρ (bit op a b) (bit op a b) := by
  unfold bit
  split
  · cases op <;> exact .pure _
  · cases op <;> exact .pure _
  · cases op <;> exact .pure _
  · exact .stuck

theorem shift_alike (op : ShiftOp) (a b : Datum) : Alike ρ (shift op a b) (shift op a b) := by
  unfold shift
  split
  · cases op <;> exact .pure _
  · cases op <;> exact .pure _
  · exact .stuck

theorem compute_alike (o : Operator) (a b : Datum) :
    Alike ρ (compute o a b) (compute o a b) := by
  cases o with
  | arith op => exact arith_alike op a b
  | bit op => exact bit_alike op a b
  | shift op => exact shift_alike op a b

/-- A sum of texts is made of the operands alone. -/
theorem combine_alike (o : Operator) (left right : Ty) (a b : Datum) :
    Alike ρ (combine o left right a b) (combine o left right a b) := by
  unfold combine
  split
  · exact (Alike.ofOption _).bind fun _ => (Alike.ofOption _).bind fun _ => .pure _
  · exact compute_alike o a b

theorem negative_alike (d : Datum) : Alike ρ (negative d) (negative d) := by
  unfold negative
  split
  · exact .pure _
  · exact .pure _
  · exact .pure _
  · exact .stuck

theorem complement_alike (d : Datum) : Alike ρ (complement d) (complement d) := by
  unfold complement
  split
  · exact .pure _
  · exact .pure _
  · exact .stuck

theorem changed_alike (op : IncrementOp) (d : Datum) : Alike ρ (changed op d) (changed op d) := by
  cases d with
  | int | long | double => cases op <;> exact .pure _
  | _ => cases op <;> exact .stuck

theorem literal_alike (type : Ty) (value : Option Constant) :
    Alike ρ (literal type value) (literal type value) := by
  cases type with
  | ref c =>
    cases c with
    | string => rcases value with _ | (_ | _ | _ | _ | _) <;> first | exact .pure _ | exact .stuck
    | _ => exact .stuck
  | _ => rcases value with _ | (_ | _ | _ | _ | _) <;> first | exact .pure _ | exact .stuck

theorem new_alike (type : Ty) : Alike ρ (new type) (new type) := by
  unfold new
  split
  · exact (Alike.create _).bind fun _ => .pure _
  · exact .stuck

/-- A call sees its arguments and no variable. -/
theorem call_alike (name : String) (args : List Datum) :
    Alike ρ (call name args) (call name args) := by
  unfold call
  split
  · split
    · exact (Alike.print _).bind fun _ => .pure _
    · exact (Alike.ofOption _).bind fun s => (Alike.print (s ++ "\n")).bind fun _ => .pure _
    · exact .stuck
  · split
    · split
      · exact (Alike.ofOption _).bind fun s => (Alike.print s).bind fun _ => .pure _
      · exact .stuck
    · exact .stuck

theorem slotOf_bind (v : Local) {α : Type} (f : Nat → Eval α) :
    (slotOf (some v) >>= f) = f v.slot := rfl

mutual

/-- Alike expressions are evaluated alike. -/
theorem eval_alike (hρ : ρ.Exact) : ∀ {e e' : Expr}, e.Alike ρ e' → Alike ρ (eval e) (eval e')
  | _, _, .literal type value => literal_alike type value
  | _, _, .var h => .read h
  | .assign .plain _ _, _, .assign h he => by
    refine (eval_alike hρ he).bind fun d => ?_
    exact (Alike.write hρ h d).bind fun _ => .pure d
  | .assign (.compound o) (some v) _, .assign _ (some v') _, .assign h he => by
    have htype : typeOf (some v) = typeOf (some v') := hρ.type _ h
    simp only [eval, slotOf_bind, he.type hρ, htype]
    refine (Alike.read h).bind fun old => (eval_alike hρ he).bind fun d => ?_
    refine (combine_alike o _ _ old d).bind fun d => ?_
    exact (Alike.write hρ h d).bind fun _ => .pure d
  | .binary (.compute o) .., _, .binary hl hr => by
    simp only [eval, hl.type hρ, hr.type hρ]
    exact (eval_alike hρ hl).bind fun a => (eval_alike hρ hr).bind fun b => combine_alike o _ _ a b
  | .binary (.compare rel) .., _, .binary hl hr => by
    refine (eval_alike hρ hl).bind fun a => (eval_alike hρ hr).bind fun b => ?_
    exact (Alike.ofOption _).bind fun _ => .pure _
  | .logical .and .., _, .logical hl hr => by
    refine (eval_alike hρ hl).bind fun a => (truth_alike a).bind fun p => ?_
    cases p with
    | true => exact (eval_alike hρ hr).bind fun b => (truth_alike b).bind fun _ => .pure _
    | false => exact .pure _
  | .logical .or .., _, .logical hl hr => by
    refine (eval_alike hρ hl).bind fun a => (truth_alike a).bind fun p => ?_
    cases p with
    | true => exact .pure _
    | false => exact (eval_alike hρ hr).bind fun b => (truth_alike b).bind fun _ => .pure _
  | .unary .neg .., _, .unary he => (eval_alike hρ he).bind negative_alike
  | .unary .not .., _, .unary he =>
    (eval_alike hρ he).bind fun d => (truth_alike d).bind fun _ => .pure _
  | .unary .complement .., _, .unary he => (eval_alike hρ he).bind complement_alike
  | .increment op _ _, _, .increment h => by
    simp only [eval, slotOf_bind]
    refine (Alike.read h).bind fun old => (changed_alike op old).bind fun d => ?_
    exact (Alike.write hρ h d).bind fun _ => .pure _
  | _, _, .conditional hc ha hb => by
    refine (eval_alike hρ hc).bind fun c => (truth_alike c).bind fun p => ?_
    cases p with
    | true => exact eval_alike hρ ha
    | false => exact eval_alike hρ hb
  | _, _, .new type => new_alike type
  | .call method _, _, .call hargs =>
    (Alike.ofOption method).bind fun m => (evals_alike hρ hargs).bind fun ds => call_alike m.name ds
  | _, _, .group he => by
    simp only [eval]
    exact eval_alike hρ he

theorem evals_alike (hρ : ρ.Exact) :
    ∀ {es es' : List Expr}, Expr.AllAlike ρ es es' → Alike ρ (evals es) (evals es')
  | _, _, .nil => .pure _
  | _, _, .cons he hes =>
    (eval_alike hρ he).bind fun _ => (evals_alike hρ hes).bind fun _ => .pure _

end

theorem effects_alike (hρ : ρ.Exact) :
    ∀ {es es' : List Expr}, Expr.AllAlike ρ es es' → Alike ρ (effects es) (effects es')
  | _, _, .nil => .pure _
  | _, _, .cons he hes => (eval_alike hρ he).bind fun _ => effects_alike hρ hes

end Meaning

end Jminus.Checked
