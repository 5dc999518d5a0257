import Jminus.Checked.Analysis
import Jminus.Code
import Mathlib

/-!
Taking apart what was done step by step, in any state and with any kind of failure.
-/
namespace Jminus

variable {σ ε α β : Type}

variable {x : StateT σ (Except ε) α} {f : α → StateT σ (Except ε) β} {s : σ} {a : α} {r : α × σ}

/-- Two steps succeed if the first does and then the second. -/
theorem bind_ok {r : β × σ} : (x >>= f) s = .ok r ↔ ∃ a s', x s = .ok (a, s') ∧ f a s' = .ok r := by
  change (x s >>= fun p => f p.1 p.2) = .ok r ↔ _
  cases x s with
  | error e => simp [bind, Except.bind]
  | ok p =>
    obtain ⟨a, s'⟩ := p
    simp [bind, Except.bind]

theorem bind_of_ok {s' : σ} (h : x s = .ok (a, s')) : (x >>= f) s = f a s' := by
  change (x s >>= fun p => f p.1 p.2) = _
  rw [h]
  rfl

theorem pure_ok : (pure a : StateT σ (Except ε) α) s = .ok r ↔ r = (a, s) := by
  change Except.ok (a, s) = .ok r ↔ _
  simp [eq_comm]

theorem map_ok {f : α → β} {b : β} {s' : σ} :
    (f <$> x) s = .ok (b, s') ↔ ∃ a, x s = .ok (a, s') ∧ b = f a := by
  simp [map_eq_pure_bind, bind_ok, pure_ok, -bind_pure_comp]

theorem get_ok {r : σ × σ} : (get : StateT σ (Except ε) σ) s = .ok r ↔ r = (s, s) := by
  change Except.ok (s, s) = .ok r ↔ _
  simp [eq_comm]

theorem set_ok {t : σ} {r : PUnit × σ} :
    (set t : StateT σ (Except ε) PUnit) s = .ok r ↔ r = ((), t) := by
  change Except.ok (PUnit.unit, t) = .ok r ↔ _
  simp [eq_comm]

theorem modify_ok {f : σ → σ} {r : PUnit × σ} :
    (modify f : StateT σ (Except ε) PUnit) s = .ok r ↔ r = ((), f s) := by
  change Except.ok (PUnit.unit, f s) = .ok r ↔ _
  simp [eq_comm]

theorem throw_ok {e : ε} : (throw e : StateT σ (Except ε) α) s = .ok r ↔ False := by
  change Except.error e = .ok r ↔ _
  simp

/-- What is lifted does not see the state. -/
theorem lift_ok {x : Except ε α} :
    (liftM x : StateT σ (Except ε) α) s = .ok r ↔ ∃ a, x = .ok a ∧ r = (a, s) := by
  change (x >>= fun a => .ok (a, s)) = .ok r ↔ _
  cases x with
  | error e => simp [bind, Except.bind]
  | ok a => simp [bind, Except.bind, eq_comm]

abbrev Label.nth (n : Nat) : Label := ⟨n⟩

theorem fresh_ok {n : Nat} {r : Label × Nat} :
    Code.fresh n = .ok r ↔ r = (.nth (n + 1), n + 1) := by
  change Except.ok (Label.nth (n + 1), n + 1) = .ok r ↔ _
  simp [eq_comm]

end Jminus
