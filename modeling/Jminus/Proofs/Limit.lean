import Jminus.Proofs.Frame
import Jminus.Proofs.Steps
import Mathlib

/-!
A limit on the steps cuts a run short and does nothing else.

A limit that a run does not reach leaves the run as it is. A run that reaches it has done exactly that
many instructions, and what it has printed so far is where the output of any longer run begins. A
run that ends with its last allowed step has not reached the limit.
-/
namespace Jminus

namespace Machine

variable {code : Listing} {limit limit' fuel k n : Nat} {m m' w w₀ : Machine} {s : Stop}

/-- The same count of steps, and at least as much output. -/
def Prints (m m' : Machine) : Prop := m'.steps = m.steps ∧ m.output <:+ m'.output

theorem prints_lax : Lax Prints fun _ => True where
  refl m := ⟨rfl, m.output.suffix_refl⟩
  trans h h' := ⟨h'.1.trans h.1, h.2.trans h'.2⟩
  stack m _ := ⟨rfl, m.output.suffix_refl⟩
  print m text := ⟨rfl, m.output.suffix_cons text⟩
  create m := ⟨rfl, m.output.suffix_refl⟩
  fault _ _ := trivial

theorem jump_prints (code : Listing) (l : Label) : Keeps Prints (fun _ => True) (jump code l) := by
  apply Keeps.jump prints_lax
  · intro m pc _
    exact ⟨rfl, m.output.suffix_refl⟩
  · intro _
    trivial

/-- An instruction takes no step back and no output. -/
theorem perform_prints (code : Listing) (ins : Instruction) :
    Keeps Prints (fun _ => True) (perform code ins) := by
  apply perform_keeps prints_lax
  · intro cell arg _ m locals
    exact ⟨rfl, m.output.suffix_refl⟩
  · intro arg _ m
    exact ⟨rfl, m.output.suffix_refl⟩
  · intro l _
    exact jump_prints code l

variable {ins : Instruction}

/-- An instruction that is begun is counted, whatever becomes of it. -/
theorem tick_prints (hins : code.code[m.pc]? = some ins) :
    Prints { m with steps := m.steps + 1 } (tick code 0 m).machine := by
  have hcaught : ∀ m caught, Prints m { m with caught } := fun m _ =>
    ⟨rfl, m.output.suffix_refl⟩
  exact (tick_keeps prints_lax hcaught hins (by omega) (perform_prints code ins)
    (fun _ _ _ => trivial) fun k _ => jump_prints code k.handler).1

/-- A limit that is not reached makes no difference. -/
theorem tick_below (h : m.steps < limit ∨ limit = 0) : tick code limit m = tick code 0 m := by
  have hlimit : ¬ (0 < limit ∧ limit ≤ m.steps) := by omega
  have hzero : ¬ (0 < 0 ∧ 0 ≤ m.steps) := by omega
  simp only [tick, hlimit, hzero, if_false]

theorem tick_ne_stepLimit : tick code 0 m ≠ .stopped .stepLimit w := by
  intro h
  cases hins : code.code[m.pc]? with
  | none => cases (tick_end hins).symm.trans h
  | some ins =>
    have hlimit : ¬ (0 < 0 ∧ 0 ≤ m.steps) := by omega
    simp only [tick, hins, hlimit, if_false] at h
    split at h
    · cases h
    · unfold unwind at h
      split at h
      · cases h
      · cases h
      · split at h
        · cases h
        · cases h
    · cases h

def Extends (m m' : Machine) : Prop := m.steps ≤ m'.steps ∧ m.printed <+: m'.printed

theorem Extends.refl (m : Machine) : Extends m m := ⟨Nat.le_refl _, List.prefix_refl _⟩

theorem Extends.trans {m'' : Machine} (h : Extends m m') (h' : Extends m' m'') : Extends m m'' :=
  ⟨h.1.trans h'.1, h.2.trans h'.2⟩

theorem tick_extends (code : Listing) (limit : Nat) (m : Machine) :
    Extends m (tick code limit m).machine := by
  cases hins : code.code[m.pc]? with
  | none =>
    rw [tick_end hins]
    exact .refl m
  | some ins =>
    by_cases hlimit : 0 < limit ∧ limit ≤ m.steps
    · rw [tick_limited hins hlimit]
      exact .refl m
    · rw [tick_below (by omega)]
      obtain ⟨hsteps, houtput⟩ := tick_prints hins
      exact ⟨hsteps ▸ Nat.le_succ m.steps, List.reverse_prefix.2 houtput⟩

theorem Leads.extends (h : Leads code limit m m') : Extends m m' := by
  induction h with
  | refl => exact .refl m
  | @tail m₁ m₂ _ htick ih =>
    have hlast := tick_extends code limit m₁
    rw [htick] at hlast
    exact ih.trans hlast

theorem run_extends (h : run code limit fuel m = some (s, w)) : Extends m w := by
  obtain ⟨m', hleads, hstop⟩ := run_leads h
  have hlast := tick_extends code limit m'
  rw [hstop] at hlast
  exact hleads.extends.trans hlast

/-- A run counts the instruction it begins with. -/
theorem run_counts (hins : code.code[m.pc]? = some ins) (h : run code 0 fuel m = some (s, w)) :
    m.steps < w.steps := by
  cases fuel with
  | zero => cases h
  | succ fuel =>
    have hfirst := tick_prints hins
    cases htick : tick code 0 m with
    | running m₁ =>
      simp only [run, htick] at h
      rw [htick] at hfirst
      have hrest := run_extends h
      have hsteps : m₁.steps = m.steps + 1 := hfirst.1
      have hle := hrest.1
      omega
    | stopped r m₁ =>
      simp only [run, htick, Option.some.injEq, Prod.mk.injEq] at h
      rw [htick, h.2] at hfirst
      have hsteps : w.steps = m.steps + 1 := hfirst.1
      omega

theorem run_ne_stepLimit (h : run code 0 fuel m = some (s, w)) : s ≠ .stepLimit := by
  obtain ⟨m', _, hstop⟩ := run_leads h
  rintro rfl
  exact tick_ne_stepLimit hstop

theorem Steps.steps_eq (h : Steps code k m m') : m'.steps = m.steps + k := by
  induction h with
  | refl => rfl
  | @step k m m₁ m' htick _ ih =>
    cases hins : code.code[m.pc]? with
    | none => cases (tick_end hins).symm.trans htick
    | some ins =>
      have hfirst := tick_prints hins
      rw [htick] at hfirst
      have hsteps : m₁.steps = m.steps + 1 := hfirst.1
      omega

theorem Steps.leads (h : Steps code k m m') (hlimit : m.steps + k ≤ limit ∨ limit = 0) :
    Leads code limit m m' := by
  induction h with
  | refl => exact .refl
  | @step k m m₁ m' htick _ ih =>
    have hsteps := (Steps.step htick (.refl m₁)).steps_eq
    have hbelow : m.steps < limit ∨ limit = 0 := by omega
    exact .head ((tick_below hbelow).trans htick) (ih (by omega))

/-- A run whose first steps are below the limit goes on from where they lead. -/
theorem Steps.run_limited (h : Steps code k m m') (hlimit : m.steps + k ≤ limit ∨ limit = 0)
    (fuel : Nat) : run code limit (k + fuel) m = run code limit fuel m' := by
  induction h with
  | refl => simp
  | @step k m m₁ m' htick _ ih =>
    have hsteps := (Steps.step htick (.refl m₁)).steps_eq
    have hbelow : m.steps < limit ∨ limit = 0 := by omega
    rw [Nat.add_right_comm, run, tick_below hbelow, htick]
    exact ih (by omega)

/-- The first steps of a run: all of them are done and there is one more to do, or the run stops
before. A machine that has no instruction left stops without a step. -/
theorem steps_or_stops (code : Listing) (n : Nat) (m : Machine) :
    (∃ w ins, Steps code n m w ∧ code.code[w.pc]? = some ins) ∨
      ∃ k w₀ s w, Steps code k m w₀ ∧ tick code 0 w₀ = .stopped s w ∧
        (k < n ∨ k = n ∧ code.code[w₀.pc]? = none) := by
  induction n generalizing m with
  | zero =>
    cases hins : code.code[m.pc]? with
    | some ins => exact .inl ⟨m, ins, .refl m, hins⟩
    | none => exact .inr ⟨0, m, .finished, m, .refl m, tick_end hins, .inr ⟨rfl, hins⟩⟩
  | succ n ih =>
    cases htick : tick code 0 m with
    | stopped s w => exact .inr ⟨0, m, s, w, .refl m, htick, .inl n.succ_pos⟩
    | running m₁ =>
      rcases ih m₁ with ⟨w, ins, hsteps, hins⟩ | ⟨k, w₀, s, w, hsteps, hstop, hk⟩
      · exact .inl ⟨w, ins, .step htick hsteps, hins⟩
      · have hk' : k + 1 < n + 1 ∨ k + 1 = n + 1 ∧ code.code[w₀.pc]? = none :=
          hk.imp Nat.succ_lt_succ fun h => ⟨congrArg Nat.succ h.1, h.2⟩
        exact .inr ⟨k + 1, w₀, s, w, .step htick hsteps, hstop, hk'⟩

/-- A run that stops below a limit stops in the same way with it. -/
theorem Steps.run_stops (h : Steps code k m w₀) (hstop : tick code 0 w₀ = .stopped s w)
    (hk : m.steps + k < limit ∨ (m.steps + k ≤ limit ∧ code.code[w₀.pc]? = none) ∨ limit = 0)
    (hfuel : k < fuel) : run code limit fuel m = some (s, w) := by
  have htick : tick code limit w₀ = .stopped s w := by
    rcases hk with hlt | ⟨_, hend⟩ | hzero
    · rw [tick_below (by rw [h.steps_eq]; omega), hstop]
    · rw [← hstop, tick_end hend, tick_end hend]
    · rw [tick_below (.inr hzero), hstop]
  obtain ⟨rest, rfl⟩ : ∃ rest, fuel = k + (rest + 1) := ⟨fuel - k - 1, by omega⟩
  rw [h.run_limited (by omega), run, htick]

/-- A run that has an instruction left at the limit stops there. -/
theorem Steps.run_cut (h : Steps code k m w) (hins : code.code[w.pc]? = some ins) (hpos : 0 < limit)
    (hk : m.steps + k = limit) (hfuel : k < fuel) :
    run code limit fuel m = some (.stepLimit, w) := by
  obtain ⟨rest, rfl⟩ : ∃ rest, fuel = k + (rest + 1) := ⟨fuel - k - 1, by omega⟩
  rw [h.run_limited (by omega), run, tick_limited hins ⟨hpos, by rw [h.steps_eq, hk]⟩]

/-- The end of a run does not depend on its fuel. -/
theorem run_eq_of_ends {fuel' : Nat} {r r' : Stop × Machine} (h : run code limit fuel m = some r)
    (h' : run code limit fuel' m = some r') : r = r' := by
  have hle := run_mono h (Nat.le_max_left fuel fuel')
  have hle' := run_mono h' (Nat.le_max_right fuel fuel')
  exact Option.some.inj (hle.symm.trans hle')

end Machine

open Machine

/-- A run with a limit always ends. If that is not because of the limit, then every larger limit, or
none, gives the same end. If it is, then the limit is the number of instructions done, a run with a
larger limit comes by the same machine, and what is printed by then stays the beginning of its output
for good. A run that would end by itself within the limit does so. -/
theorem limit_truncates (code : Listing) (locals : Nat) {limit limit' : Nat} (hpos : 0 < limit)
    (hle : limit ≤ limit' ∨ limit' = 0) :
    ∃ s w, (∀ fuel, limit < fuel → run code limit fuel (.start locals) = some (s, w)) ∧
      (s ≠ .stepLimit →
        ∀ fuel, limit < fuel → run code limit' fuel (.start locals) = some (s, w)) ∧
      (s = .stepLimit →
        w.steps = limit ∧ Steps code limit (.start locals) w ∧ Leads code limit' (.start locals) w ∧
        (∀ w', Leads code limit' w w' → w.printed <+: w'.printed) ∧
        ∀ fuel s' w', run code limit' fuel (.start locals) = some (s', w') →
          w.printed <+: w'.printed) ∧
      ∀ fuel s' w', run code 0 fuel (.start locals) = some (s', w') → w'.steps ≤ limit →
        s ≠ .stepLimit ∧ s = s' ∧ w = w' := by
  have hstart : (Machine.start locals).steps = 0 := rfl
  rcases steps_or_stops code limit (.start locals) with
    ⟨w, ins, hsteps, hins⟩ | ⟨k, w₀, s, w, hsteps, hstop, hk⟩
  · have hcount : w.steps = limit := by rw [hsteps.steps_eq, hstart, Nat.zero_add]
    -- a run that goes on behind the limit comes by this machine
    have hpasses : ∀ limit', (limit ≤ limit' ∨ limit' = 0) → ∀ fuel s' w',
        run code limit' fuel (.start locals) = some (s', w') →
          run code limit' fuel w = some (s', w') := by
      intro limit' hle fuel s' w' hrun
      rw [← hsteps.run_limited (by omega)]
      exact run_mono hrun (by omega)
    refine ⟨.stepLimit, w, fun fuel hfuel => hsteps.run_cut hins hpos (by omega) hfuel,
      fun h => absurd rfl h, fun _ => ⟨hcount, hsteps, hsteps.leads (by omega), ?_, ?_⟩, ?_⟩
    · intro w' hleads
      exact hleads.extends.2
    · intro fuel s' w' hrun
      exact (run_extends (hpasses limit' hle fuel s' w' hrun)).2
    · intro fuel s' w' hrun hw'
      have hlt := run_counts hins (hpasses 0 (.inr rfl) fuel s' w' hrun)
      omega
  · have hends : ∀ limit', (limit ≤ limit' ∨ limit' = 0) → ∀ fuel, limit < fuel →
        run code limit' fuel (.start locals) = some (s, w) := by
      intro limit' hle fuel hfuel
      apply hsteps.run_stops hstop
      · rw [hstart]
        by_cases hzero : limit' = 0
        · exact .inr (.inr hzero)
        · rcases hk with hlt | ⟨rfl, hend⟩
          · exact .inl (by omega)
          · exact .inr (.inl ⟨by omega, hend⟩)
      · omega
    have hfree := hends 0 (.inr rfl) (limit + 1) (by omega)
    refine ⟨s, w, hends limit (.inl (Nat.le_refl limit)), fun _ => hends limit' hle,
      fun hs => absurd hs (run_ne_stepLimit hfree), ?_⟩
    intro fuel s' w' hrun _
    cases run_eq_of_ends hfree hrun
    exact ⟨run_ne_stepLimit hfree, rfl, rfl⟩

/-- An empty line, again and again. -/
def chattering : Listing where
  code := #[.plain .invokeStatic (.const (.method (.constant 0) (.printing "println" []))),
    .branch .goto ⟨1⟩]
  created := 1
  places := [(⟨1⟩, 0)]

theorem limit_truncates_chattering :
    chattering.missing? = none ∧ 0 < 5 ∧ (5 ≤ 0 ∨ 0 = 0) ∧
      ∃ w, run chattering 5 6 (.start 0) = some (.stepLimit, w) ∧ w.steps = 5 ∧
        w.printed = ["\n", "\n", "\n"] ∧ ∀ w', Leads chattering 0 w w' → w.printed <+: w'.printed := by
  obtain ⟨s, w, hrun, _, hcut, _⟩ := @limit_truncates chattering 0 5 0 (by decide) (.inr rfl)
  have hend : ((run chattering 5 6 (.start 0)).map fun r => (r.1, r.2.printed)) =
      some (.stepLimit, ["\n", "\n", "\n"]) := by decide +kernel
  rw [hrun 6 (by decide)] at hend
  obtain ⟨rfl, hprinted⟩ := Prod.mk.inj (Option.some.inj hend)
  obtain ⟨hsteps, _, _, hprefix, _⟩ := hcut rfl
  exact ⟨by decide, by decide, .inr rfl, w, hrun 6 (by decide), hsteps, hprinted, hprefix⟩

end Jminus
