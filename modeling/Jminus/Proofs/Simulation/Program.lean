import Jminus.Proofs.Simulation.Loop
import Jminus.Proofs.Simulation.Switch
import Jminus.Proofs.Simulation.Try
import Mathlib

/-!
The code of a program does what the program means, from its first instruction to its end.
-/
namespace Jminus.Checked.Meaning

open Code
open Machine (Memory Config Goes Runs Steps run tick)

mutual

/-- The code of every sound statement does what the statement means. -/
theorem exec_follows (n : Nat) : ∀ s : Stmt, StmtFollows n s
  | .expr e => expr_follows n e
  | .var v none => declare_follows n v
  | .var v (some init) => initialize_follows n v init
  | .block body => block_follows (execs_follow n body)
  | .ifElse _ thenBranch none => if_follows (exec_follows n thenBranch)
  | .ifElse _ thenBranch (some elseBranch) =>
    ifElse_follows (exec_follows n thenBranch) (exec_follows n elseBranch)
  | .whileLoop _ _ body => while_follows (exec_follows n body)
  | .doLoop _ body _ => do_follows (exec_follows n body)
  | .forLoop _ init _ _ body => for_follows (execs_follow n init) (exec_follows n body)
  | .switch _ _ _ groups => switch_follows (execGroups_follow n groups)
  | .brk line target => brk_follows n line target
  | .cont line target => cont_follows n line target
  | .ret => ret_follows n
  | .throw value => throw_follows n value
  | .tryCatch body catches cleanup =>
    try_follows (execs_follow n body) (execCatches_follow n catches) (execCleanup_follows n cleanup)
  | .empty => empty_follows n

theorem execs_follow (n : Nat) : ∀ ss : List Stmt, StmtsFollow n ss
  | [] => nil_follow n
  | s :: ss => cons_follow (exec_follows n s) (execs_follow n ss)

theorem execGroups_follow (n : Nat) : ∀ gs : List SwitchGroup, GroupsFollow n gs
  | [] => nil_groups n
  | .mk _ _ body :: gs => cons_groups (execs_follow n body) (execGroups_follow n gs)

theorem execCatches_follow (n : Nat) : ∀ cs : List CatchClause, CatchesFollow n cs
  | [] => nil_catches n
  | .mk _ body :: cs => cons_catches (execs_follow n body) (execCatches_follow n cs)

theorem execCleanup_follows (n : Nat) : ∀ c : Cleanup, CleanupFollows n c
  | .absent => trivial
  | .mk _ body => execs_follow n body

end

section Runs

variable {prog : Listing} {c : Config} {k n : Nat} {mem : Memory}

variable {m : Machine}

/-- Behind the last instruction the machine stops. -/
theorem run_finishes (h : Goes prog k c ⟨prog.code.size, [], mem⟩) (hm : m.config = c) :
    ∃ fuel m', run prog 0 fuel m = some (.finished, m') ∧ m'.stack = [] ∧ m'.memory = mem := by
  obtain ⟨i, m', _, hsteps, hm'⟩ := h m hm
  have hpc : m'.pc = prog.code.size := congrArg Config.pc hm'
  have htick : tick prog 0 m' = .stopped .finished m' := by
    rw [tick, hpc, Array.getElem?_size]
  refine ⟨i + 1, m', ?_, congrArg Config.stack hm', congrArg Config.mem hm'⟩
  rw [Machine.run_of_steps hsteps, run, htick]

/-- An exception that nothing catches stops the machine. -/
theorem run_uncaught (hres : prog.Resolved) {x : Thrown} (h : Raises prog (fun _ => none) c x mem)
    (hm : m.config = c) :
    ∃ fuel pc m', run prog 0 fuel m = some (.uncaught x.cls pc, m') ∧ m'.memory = mem := by
  obtain ⟨i, m', m'', hsteps, hmem, htick⟩ := h.uncaught hres rfl hm
  refine ⟨i + 1, m'.pc, m'', ?_, hmem⟩
  rw [Machine.run_of_steps hsteps, run, htick]

/-- With too little fuel there is no end. -/
theorem run_of_runs (h : Runs prog n c) (hm : m.config = c) : run prog 0 n m = none := by
  obtain ⟨m', hsteps⟩ := h m hm
  exact Machine.run_of_steps hsteps 0

end Runs

/-- How the run of a machine ended, as its user sees it. -/
def outcome? : Stop → Option Outcome
  | .finished => some .finished
  | .uncaught cls _ => some (.uncaught cls)
  | .stepLimit | .fault _ => none

section Programs

variable {prog : Listing} {slots : Slots} {program : List Stmt} {code : Code} {m : Nat}

/-- The machine does what a sound program means. -/
theorem program_follows (hsound : Stmt.AllSound slots [] [] program)
    (hgen : stmtsCode program [] 0 = .ok (code, m)) (hholds : prog.Holds (code ++ [op .ret]))
    (n : Nat) : (execs n program .start).Follows ⟨prog, slots, [], fun _ => none, []⟩ n code.size
      (Machine.start slots.length).config := by
  have fit : Env.Fits ⟨prog, slots, [], fun _ => none, []⟩ slots [] [] :=
    { resolved := hholds.resolved, below := List.prefix_refl slots, vars := by simp, exits := .nil
      held := by simp }
  have hat := (at_append.1 hholds.placed).1
  refine execs_follow n program fit hsound (by simp [World.Typed]) (.start slots) hgen hat
    (Nat.zero_add _).symm ?_
  intro p cls _ _
  rw [hholds.handlers, Code.handlers_append, Listing.handler?_append, Option.or_none]
  simp [op]

/-- A program that ends in evaluation ends on the machine, in the same way. -/
theorem run_of_done (hsound : Stmt.AllSound slots [] [] program)
    (hgen : stmtsCode program [] 0 = .ok (code, m)) (hholds : prog.Holds (code ++ [op .ret]))
    {n : Nat} {c : Completion} {w : World} (h : execs n program .start = .done c w) :
    ∃ fuel stop m', run prog 0 fuel (.start slots.length) = some (stop, m') ∧
      m'.printed = w.printed ∧ outcome? stop = c.outcome? ∧ (stop = .finished → m'.stack = []) := by
  have hfollows := program_follows hsound hgen hholds n
  have hret := (at_append.1 hholds.placed).2.1
  rw [Nat.zero_add] at hret
  rw [h] at hfollows
  have hprinted : ∀ {m' : Machine} {mem : Memory}, m'.memory = mem →
      Agrees slots [] w mem → m'.printed = w.printed := by
    rintro m' mem rfl hagrees
    exact hagrees.printed
  match c, hfollows with
  | .normal, ⟨mem, hagrees, hgoes⟩ =>
    obtain ⟨fuel, m', hrun, hstack, hmem⟩ := run_finishes (hgoes.trans (Machine.goes_ret hret)) rfl
    exact ⟨fuel, _, m', hrun, hprinted hmem hagrees, rfl, fun _ => hstack⟩
  | .ret, ⟨mem, hagrees, hgoes⟩ =>
    obtain ⟨fuel, m', hrun, hstack, hmem⟩ := run_finishes hgoes rfl
    exact ⟨fuel, _, m', hrun, hprinted hmem hagrees, rfl, fun _ => hstack⟩
  | .raised x, ⟨mem, hagrees, hraises⟩ =>
    obtain ⟨fuel, pc, m', hrun, hmem⟩ := run_uncaught hholds.resolved hraises rfl
    exact ⟨fuel, _, m', hrun, hprinted hmem hagrees, rfl, by simp⟩
  | .brk id, ⟨mem, _, l, q, hl, _⟩ => cases hl
  | .cont id, ⟨mem, _, l, q, hl, _⟩ => cases hl

/-- A program that ends on the machine ends in evaluation, in the same way. -/
theorem done_of_run (hsound : Stmt.AllSound slots [] [] program)
    (hgen : stmtsCode program [] 0 = .ok (code, m)) (hholds : prog.Holds (code ++ [op .ret]))
    {fuel : Nat} {stop : Stop} {m' : Machine}
    (h : run prog 0 fuel (.start slots.length) = some (stop, m')) :
    ∃ c w outcome, execs fuel program .start = .done c w ∧ m'.printed = w.printed ∧
      c.outcome? = some outcome ∧ outcome? stop = some outcome ∧
      (stop = .finished → m'.stack = []) ∧
      ∀ cls, outcome = .uncaught cls → cls.isSubclassOf .throwable = true := by
  rcases program_safe hsound fuel with hspent | ⟨c, w, outcome, hdone, houtcome, hcls⟩
  · -- Evaluation without an end means a run that is at least as long as the fuel.
    have hfollows := program_follows hsound hgen hholds fuel
    rw [hspent] at hfollows
    cases h.symm.trans (run_of_runs hfollows rfl)
  · obtain ⟨fuel', stop', m'', hrun, hprinted, hstop, hstack⟩ :=
      run_of_done hsound hgen hholds hdone
    have hmore := Machine.run_mono h (Nat.le_add_right fuel fuel')
    cases hmore.symm.trans (Machine.run_mono hrun (Nat.le_add_left fuel' fuel))
    exact ⟨c, w, outcome, hdone, hprinted, houtcome, hstop.trans houtcome, hstack, hcls⟩

end Programs

/-- A limit stops a tick or leaves it as it is. -/
theorem tick_limit (prog : Listing) (limit : Nat) (m : Machine) :
    tick prog limit m = .stopped .stepLimit m ∨ tick prog limit m = tick prog 0 m := by
  unfold tick
  cases prog.code[m.pc]? with
  | none => exact .inr rfl
  | some ins =>
    by_cases h : 0 < limit ∧ limit ≤ m.steps
    · exact .inl (if_pos h)
    · exact .inr (by simp [h])

/-- A limit on the steps cuts a run short and changes nothing else. -/
theorem run_limit (prog : Listing) (limit fuel : Nat) (m : Machine) :
    (∃ m', run prog limit fuel m = some (.stepLimit, m')) ∨
      run prog limit fuel m = run prog 0 fuel m := by
  induction fuel generalizing m with
  | zero => exact .inr rfl
  | succ fuel ih =>
    simp only [run]
    rcases tick_limit prog limit m with h | h
    · exact .inl ⟨m, by rw [h]⟩
    · rw [h]
      cases tick prog 0 m with
      | running m' => exact ih m'
      | stopped s m' => exact .inr rfl

end Jminus.Checked.Meaning
