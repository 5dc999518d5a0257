import Jminus.Proofs.Handlers
import Jminus.Proofs.Simulation.Expr
import Mathlib

/-!
Running the code of statements against evaluating them: what it means that the machine follows a
result, and how results are put together.
-/
namespace Jminus.Checked.Meaning

open Machine (Memory Config Goes Throws Runs)

/-- What stands around the code of a statement. -/
structure Env where
  prog : Listing
  slots : Slots
  /-- What is kept in slots for later. -/
  held : List (Nat × Value)
  /-- The handlers for what the statement throws. -/
  out : Class → Option Label
  /-- Where its jumps lead. -/
  exits : Exits

abbrev Env.Agrees (env : Env) (w : World) (mem : Memory) : Prop :=
  Meaning.Agrees env.slots env.held w mem

/-- From the configuration `c` the machine does what a statement did: after a normal end it goes on
at `hi`, and where `n` rounds are not enough it takes at least `n` steps. The stack is empty then. -/
def Result.Follows (env : Env) (n hi : Nat) (c : Config) : Result → Prop
  | .done .normal w => ∃ mem, env.Agrees w mem ∧ Goes env.prog 0 c ⟨hi, [], mem⟩
  | .done (.brk id) w => ∃ mem, env.Agrees w mem ∧ ∃ l q,
    (env.exits.ofFrame? (some id)).bind (·.brk) = some l ∧ env.prog.place? l = some q ∧
      Goes env.prog 1 c ⟨q, [], mem⟩
  | .done (.cont id) w => ∃ mem, env.Agrees w mem ∧ ∃ l q,
    (env.exits.ofFrame? (some id)).bind (·.cont) = some l ∧ env.prog.place? l = some q ∧
      Goes env.prog 1 c ⟨q, [], mem⟩
  | .done .ret w => ∃ mem, env.Agrees w mem ∧ Goes env.prog 0 c ⟨env.prog.code.size, [], mem⟩
  | .done (.raised x) w => ∃ mem, env.Agrees w mem ∧ Raises env.prog env.out c x.thrown mem
  | .spent => Runs env.prog n c
  | .stuck => True

/-- The same of one round of a loop that starts at `start`. -/
def Round.Follows (env : Env) (n least start hi : Nat) (c : Config) : Round → Prop
  | .again w => ∃ mem, env.Agrees w mem ∧ Goes env.prog least c ⟨start, [], mem⟩
  | .ended r => r.Follows env n hi c

variable {env : Env} {n k least start lo mid hi : Nat} {c c' : Config} {w : World}

namespace Result.Follows

variable {r : Result}

/-- Instructions before; in a loop they count. -/
theorem after_counting (h : Goes env.prog k c c') (hr : r.Follows env n hi c') :
    r.Follows env (k + n) hi c := by
  match r, hr with
  | .done .normal w, ⟨mem, hagrees, hgoes⟩ =>
    exact ⟨mem, hagrees, (h.trans hgoes).weaken (Nat.zero_le _)⟩
  | .done (.brk id) w, ⟨mem, hagrees, l, q, hl, hq, hgoes⟩ =>
    exact ⟨mem, hagrees, l, q, hl, hq, (h.trans hgoes).weaken (Nat.le_add_left _ _)⟩
  | .done (.cont id) w, ⟨mem, hagrees, l, q, hl, hq, hgoes⟩ =>
    exact ⟨mem, hagrees, l, q, hl, hq, (h.trans hgoes).weaken (Nat.le_add_left _ _)⟩
  | .done .ret w, ⟨mem, hagrees, hgoes⟩ =>
    exact ⟨mem, hagrees, (h.trans hgoes).weaken (Nat.zero_le _)⟩
  | .done (.raised x) w, ⟨mem, hagrees, hraises⟩ => exact ⟨mem, hagrees, hraises.after h⟩
  | .spent, hr => exact h.runs hr
  | .stuck, _ => trivial

theorem less (hr : r.Follows env n hi c) (hle : k ≤ n) : r.Follows env k hi c := by
  match r, hr with
  | .done .normal w, h | .done (.brk id) w, h | .done (.cont id) w, h => exact h
  | .done .ret w, h | .done (.raised x) w, h => exact h
  | .spent, h => exact Runs.less h hle
  | .stuck, _ => trivial

theorem after (h : Goes env.prog k c c') (hr : r.Follows env n hi c') :
    r.Follows env n hi c := (hr.after_counting h).less (Nat.le_add_left _ _)

/-- Instructions behind a normal end. -/
theorem before (h : r.Follows env n mid c)
    (hgoes : ∀ mem, Goes env.prog k ⟨mid, [], mem⟩ ⟨hi, [], mem⟩) : r.Follows env n hi c := by
  match r, h with
  | .done .normal w, ⟨mem, hagrees, h⟩ =>
    exact ⟨mem, hagrees, (h.trans (hgoes mem)).weaken (Nat.zero_le _)⟩
  | .done (.brk id) w, h | .done (.cont id) w, h | .done .ret w, h => exact h
  | .done (.raised x) w, h | .spent, h | .stuck, h => exact h

/-- What follows a normal end starts where the code before it ends. -/
theorem andThen {f : World → Result} (h : r.Follows env n mid c)
    (hf : ∀ w mem, r = .done .normal w → env.Agrees w mem →
      (f w).Follows env n hi ⟨mid, [], mem⟩) : (r.andThen f).Follows env n hi c := by
  match r, h with
  | .done .normal w, ⟨mem, hagrees, hgoes⟩ => exact (hf w mem rfl hagrees).after hgoes
  | .done (.brk id) w, h | .done (.cont id) w, h | .done .ret w, h => exact h
  | .done (.raised x) w, h | .spent, h | .stuck, h => exact h

/-- An expression and what is done with its value. -/
theorem withValue {α : Type} {x : Eval α} {f : α → World → Result} {least : α → Nat}
    {next : α → Memory → Config}
    (hx : Meaning.Follows env.prog env.slots env.held lo mid c (x w) least next)
    (hout : ∀ p cls, lo ≤ p → p < mid →
      env.prog.handler? env.prog.handlers cls p = env.out cls)
    (hf : ∀ a w' mem', x w = some (.ok a, w') → env.Agrees w' mem' →
      (f a w').Follows env n hi (next a mem')) : (Meaning.withValue x f w).Follows env n hi c := by
  simp only [Meaning.withValue]
  rcases heq : x w with _ | ⟨e | a, w'⟩
  · trivial
  · rw [heq] at hx
    obtain ⟨mem', hagrees, hthrows⟩ := hx
    exact ⟨mem', hagrees, hthrows.raises fun p => hout p _⟩
  · rw [heq] at hx
    obtain ⟨mem', hagrees, hgoes⟩ := hx
    exact (hf a w' mem' heq hagrees).after hgoes

end Result.Follows

theorem ofFrame?_inner (id : Nat) (brk cont : Option Label) (exits : Exits) :
    Exits.ofFrame? (⟨id, brk, cont⟩ :: exits) (some id) = some ⟨id, brk, cont⟩ := by
  simp [Exits.ofFrame?]

theorem ofFrame?_outer {e : Exit} {id : Nat} (h : id ≠ e.frame) (exits : Exits) :
    Exits.ofFrame? (e :: exits) (some id) = exits.ofFrame? (some id) := by
  simp [Exits.ofFrame?, h.symm]

def Env.inside (env : Env) (e : Exit) : Env := { env with exits := e :: env.exits }

/-- Leaving a frame: a jump out of it goes on behind, all others go on outward. -/
theorem Result.Follows.upTo {frame : Nat} {brk cont : Option Label} {r : Result}
    (h : r.Follows (env.inside ⟨frame, brk, cont⟩) n hi c)
    (hbrk : ∀ l, brk = some l → env.prog.place? l = some hi)
    (hcont : ∀ w, r = .done (.cont frame) w → cont = none) :
    (r.upTo frame).Follows env n hi c := by
  match r, h with
  | .done .normal w, h | .done .ret w, h | .done (.raised x) w, h | .spent, h | .stuck, h => exact h
  | .done (.brk id) w, ⟨mem, hagrees, l, q, hl, hq, hgoes⟩ =>
    simp only [Result.upTo]
    by_cases hid : id = frame
    · subst hid
      rw [if_pos rfl]
      rw [Env.inside, ofFrame?_inner] at hl
      cases (hbrk l hl).symm.trans hq
      exact ⟨mem, hagrees, hgoes.weaken (Nat.zero_le 1)⟩
    · rw [if_neg hid]
      rw [Env.inside, ofFrame?_outer hid] at hl
      exact ⟨mem, hagrees, l, q, hl, hq, hgoes⟩
  | .done (.cont id) w, ⟨mem, hagrees, l, q, hl, hq, hgoes⟩ =>
    have hid : id ≠ frame := by
      rintro rfl
      rw [Env.inside, ofFrame?_inner, hcont w rfl] at hl
      cases hl
    rw [Env.inside, ofFrame?_outer hid] at hl
    exact ⟨mem, hagrees, l, q, hl, hq, hgoes⟩

/-- What is done before a round counts for it. -/
theorem Round.Follows.after {r : Round} (h : Goes env.prog k c c')
    (hr : r.Follows env n (least - k) start hi c') : r.Follows env n least start hi c := by
  match r, hr with
  | .again w, ⟨mem, hagrees, hgoes⟩ =>
    exact ⟨mem, hagrees, (h.trans hgoes).weaken le_add_tsub⟩
  | .ended r, hr => exact Result.Follows.after h hr

theorem Round.Follows.weaken {r : Round} (h : r.Follows env n k start hi c) (hle : least ≤ k) :
    r.Follows env n least start hi c := by
  match r, h with
  | .again w, ⟨mem, hagrees, hgoes⟩ => exact ⟨mem, hagrees, hgoes.weaken hle⟩
  | .ended r, h => exact h

/-- Behind the body of a loop. A jump to the loop is an instruction, so it makes a round long enough
by itself. -/
theorem Result.Follows.inLoop {frame again : Nat} {brk cont : Label} {r : Result}
    {next onContinue : World → Round}
    (h : r.Follows (env.inside ⟨frame, some brk, some cont⟩) n mid c)
    (hbrk : env.prog.place? brk = some hi) (hcont : env.prog.place? cont = some again)
    (hnext : ∀ w mem, r = .done .normal w → env.Agrees w mem →
      (next w).Follows env n 1 start hi ⟨mid, [], mem⟩)
    (honcont : ∀ w mem, r = .done (.cont frame) w → env.Agrees w mem →
      (onContinue w).Follows env n 0 start hi ⟨again, [], mem⟩) :
    (r.inLoop frame next onContinue).Follows env n 1 start hi c := by
  match r, h with
  | .done .normal w, ⟨mem, hagrees, hgoes⟩ => exact (hnext w mem rfl hagrees).after hgoes
  | .done .ret w, h | .done (.raised x) w, h | .spent, h | .stuck, h => exact h
  | .done (.cont id) w, ⟨mem, hagrees, l, q, hl, hq, hgoes⟩ =>
    simp only [Result.inLoop]
    by_cases hid : id = frame
    · subst hid
      rw [if_pos rfl]
      rw [Env.inside, ofFrame?_inner] at hl
      cases hl
      cases hcont.symm.trans hq
      exact (honcont w mem rfl hagrees).after hgoes
    · rw [if_neg hid]
      rw [Env.inside, ofFrame?_outer hid] at hl
      exact ⟨mem, hagrees, l, q, hl, hq, hgoes⟩
  | .done (.brk id) w, ⟨mem, hagrees, hjump⟩ =>
    refine Result.Follows.upTo (r := .done (.brk id) w) ⟨mem, hagrees, hjump⟩ ?_ ?_
    · rintro l ⟨⟩
      exact hbrk
    · rintro w ⟨⟩

/-- A loop whose rounds are followed, and take at least one instruction each. -/
theorem rounds_follow {round : World → Round} {frames : List Frame} {vs : List Local}
    (hsafe : ∀ w, w.Typed vs → (round w).Safe env.slots frames vs w)
    (hround : ∀ w mem, w.Typed vs → env.Agrees w mem →
      (round w).Follows env n 1 start hi ⟨start, [], mem⟩) (hk : k ≤ n) {mem : Memory}
    (hw : w.Typed vs) (hagrees : env.Agrees w mem) :
    (rounds round k w).Follows env k hi ⟨start, [], mem⟩ := by
  induction k generalizing w mem with
  | zero => exact Runs.zero _ _
  | succ k ih =>
    have hfirst := hround w mem hw hagrees
    have htyped := hsafe w hw
    simp only [rounds]
    cases hr : round w with
    | again w' =>
      rw [hr] at hfirst htyped
      obtain ⟨mem', hagrees', hgoes⟩ := hfirst
      rw [Nat.add_comm k 1]
      exact (ih (by omega) htyped.2 hagrees').after_counting hgoes
    | ended r =>
      rw [hr] at hfirst
      exact Result.Follows.less hfirst hk

/-- A condition that leads out of a loop, or on. -/
theorem test_follows {cond : Expr} {yes : World → Round}
    {next : Bool → Memory → Config} {steps : Bool → Nat}
    (hx : Meaning.Follows env.prog env.slots env.held lo mid c ((eval cond >>= truth) w)
      steps next)
    (hout : ∀ p cls, lo ≤ p → p < mid →
      env.prog.handler? env.prog.handlers cls p = env.out cls)
    (hyes : ∀ w' mem', (eval cond >>= truth) w = some (.ok true, w') → env.Agrees w' mem' →
      (yes w').Follows env n (least - steps true) start hi (next true mem'))
    (hno : ∀ mem', next false mem' = ⟨hi, [], mem'⟩) :
    (test cond yes w).Follows env n least start hi c := by
  simp only [test]
  rcases heq : (eval cond >>= truth) w with _ | ⟨e | _ | _, w'⟩
  · trivial
  · rw [heq] at hx
    obtain ⟨mem', hagrees, hthrows⟩ := hx
    exact ⟨mem', hagrees, hthrows.raises fun p => hout p _⟩
  · rw [heq] at hx
    obtain ⟨mem', hagrees, hgoes⟩ := hx
    rw [hno] at hgoes
    exact ⟨mem', hagrees, hgoes.weaken (Nat.zero_le _)⟩
  · rw [heq] at hx
    obtain ⟨mem', hagrees, hgoes⟩ := hx
    exact (hyes w' mem' heq hagrees).after hgoes

end Jminus.Checked.Meaning
