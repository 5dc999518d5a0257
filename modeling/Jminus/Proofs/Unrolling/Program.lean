import Jminus.Proofs.Acceptance
import Jminus.Proofs.Unrolling.Analysis
import Jminus.Proofs.Unrolling.Text
import Mathlib

/-!
Programs with unrolled do loops: they are accepted like the programs themselves, and run alike.
-/
namespace Jminus

open Checked.Meaning (Evaluates Outcome)

/-- A run has one outcome. -/
theorem Run.Ended.unique {r : Run} {o o' : Outcome} (h : r.Ended o) (h' : r.Ended o') : o = o' := by
  cases o with
  | finished =>
    cases o' with
    | finished => rfl
    | uncaught cls =>
      obtain ⟨pc, hpc⟩ := h'
      cases h.symm.trans hpc
  | uncaught cls =>
    obtain ⟨pc, hpc⟩ := h
    cases o' with
    | finished => cases hpc.symm.trans h'
    | uncaught cls' =>
      obtain ⟨pc', hpc'⟩ := h'
      cases hpc.symm.trans hpc'
      rfl

/-- Every run of one program that is over has its like among the runs of the other. -/
structure Compilation.RunsAlike (c c' : Compilation) : Prop where
  ends : ∀ printed outcome,
    (∃ fuel r, c.run 0 fuel = some r ∧ r.printed = printed ∧ r.Ended outcome) ↔
      ∃ fuel r, c'.run 0 fuel = some r ∧ r.printed = printed ∧ r.Ended outcome
  runsOn : (∀ fuel, c.run 0 fuel = none) ↔ ∀ fuel, c'.run 0 fuel = none

namespace Compiled

variable {c c' : Compilation} {program program' : Checked.Program} {exe exe' : Executable}

/-- A run that ends is an evaluation. -/
theorem ends_iff (h : Compiled c program exe) (hok : c.result = .ok exe) (printed : List String)
    (outcome : Outcome) :
    (∃ fuel r, c.run 0 fuel = some r ∧ r.printed = printed ∧ r.Ended outcome) ↔
      Evaluates program.stmts printed outcome := by
  constructor
  · rintro ⟨fuel, r, hr, rfl, hended⟩
    obtain ⟨outcome', hended', hevaluates⟩ := h.evaluates hok hr
    rwa [hended.unique hended']
  · exact h.run_of_evaluates hok

/-- A run goes on for ever if nothing is evaluated. -/
theorem runsOn_iff (h : Compiled c program exe) (hok : c.result = .ok exe) :
    (∀ fuel, c.run 0 fuel = none) ↔
      ∀ printed outcome, ¬ Evaluates program.stmts printed outcome := by
  constructor
  · intro hnone printed outcome hends
    obtain ⟨fuel, r, hr, _⟩ := h.run_of_evaluates hok hends
    cases (hnone fuel).symm.trans hr
  · intro hnever fuel
    cases hr : c.run 0 fuel with
    | none => rfl
    | some r =>
      obtain ⟨outcome, _, hevaluates⟩ := h.evaluates hok hr
      exact absurd hevaluates (hnever _ _)

/-- Alike programs run alike. -/
theorem runsAlike (h : Compiled c program exe) (hok : c.result = .ok exe)
    (h' : Compiled c' program' exe') (hok' : c'.result = .ok exe') {σ : Checked.Pairing}
    (halike : Checked.Stmt.AllAlike [] {} program.stmts program'.stmts σ) : c.RunsAlike c' := by
  have hiff := Checked.Meaning.evaluates_iff_alike halike
  constructor
  · intro printed outcome
    rw [h.ends_iff hok, h'.ends_iff hok', hiff]
  · simp only [h.runsOn_iff hok, h'.runsOn_iff hok', hiff]

end Compiled

/-- A block without jumps to what stands around it. -/
def Stmt.isClosedBlock : Stmt → Bool
  | .block body => !Stmt.haveJump .brk body && !Stmt.haveJump .cont body
  | _ => false

theorem Stmt.eq_block_of_isClosedBlock {s : Stmt} (h : s.isClosedBlock = true) :
    ∃ ss, s = .block ss ∧ ∀ j, Stmt.haveJump j ss = false := by
  cases s with
  | block ss =>
    simp only [isClosedBlock, Bool.and_eq_true, Bool.not_eq_true'] at h
    refine ⟨ss, rfl, fun j => ?_⟩
    cases j with
    | brk => exact h.1
    | cont => exact h.2
  | _ => cases h

mutual

/-- Unrolls every do loop that can be unrolled. -/
def Stmt.unroll : Stmt → Stmt
  | .block body => .block (Stmt.unrollAll body)
  | .ifElse line cond thenBranch none => .ifElse line cond thenBranch.unroll none
  | .ifElse line cond thenBranch (some elseBranch) =>
    .ifElse line cond thenBranch.unroll (some elseBranch.unroll)
  | .whileLoop line cond body => .whileLoop line cond body.unroll
  | .doLoop line body cond =>
    if body.isClosedBlock then .block [body.unroll, .whileLoop line cond body.unroll]
    else .doLoop line body.unroll cond
  | .forLoop line init cond update body => .forLoop line init cond update body.unroll
  | .switch line subject groups => .switch line subject (SwitchGroup.unrollAll groups)
  | .tryCatch body catches none =>
    .tryCatch (Stmt.unrollAll body) (CatchClause.unrollAll catches) none
  | .tryCatch body catches (some cleanup) =>
    .tryCatch (Stmt.unrollAll body) (CatchClause.unrollAll catches) (some (Stmt.unrollAll cleanup))
  | .expr e => .expr e
  | .var type name init => .var type name init
  | .brk line => .brk line
  | .cont line => .cont line
  | .ret line value => .ret line value
  | .throw line value => .throw line value
  | .empty => .empty

def Stmt.unrollAll : List Stmt → List Stmt
  | [] => []
  | s :: ss => s.unroll :: Stmt.unrollAll ss

def SwitchGroup.unrollAll : List SwitchGroup → List SwitchGroup
  | [] => []
  | .mk labels body :: groups => .mk labels (Stmt.unrollAll body) :: SwitchGroup.unrollAll groups

def CatchClause.unrollAll : List CatchClause → List CatchClause
  | [] => []
  | .mk type name body :: clauses =>
    .mk type name (Stmt.unrollAll body) :: CatchClause.unrollAll clauses

end

mutual

theorem Stmt.unrolled_unroll : ∀ s : Stmt, s.Unrolled s.unroll
  | .block ss => .block (Stmt.allUnrolled_unrollAll ss)
  | .ifElse _ _ s none => .ifThen rfl s.unrolled_unroll
  | .ifElse _ _ s (some t) => .ifElse rfl s.unrolled_unroll t.unrolled_unroll
  | .whileLoop _ _ s => .whileLoop rfl s.unrolled_unroll
  | .doLoop _ s _ => by
    have hs := s.unrolled_unroll
    rw [Stmt.unroll]
    by_cases h : s.isClosedBlock = true
    · rw [if_pos h]
      obtain ⟨ss, rfl, hjump⟩ := Stmt.eq_block_of_isClosedBlock h
      rw [Stmt.unroll] at hs ⊢
      cases hs with
      | block hss => exact .unroll hjump hss hss rfl
    · rw [if_neg h]
      exact .doLoop hs rfl
  | .forLoop _ init _ _ s => .forLoop (.refl init) rfl rfl s.unrolled_unroll
  | .switch _ _ gs => .switch rfl (SwitchGroup.allUnrolled_unrollAll gs)
  | .tryCatch ss cs none =>
    .tryCatch (Stmt.allUnrolled_unrollAll ss) (CatchClause.allUnrolled_unrollAll cs)
  | .tryCatch ss cs (some fs) =>
    .tryFinally (Stmt.allUnrolled_unrollAll ss) (CatchClause.allUnrolled_unrollAll cs)
      (Stmt.allUnrolled_unrollAll fs)
  | .expr e => .refl (.expr e)
  | .var type name init => .refl (.var type name init)
  | .brk _ => .brk
  | .cont _ => .cont
  | .ret line value => .refl (.ret line value)
  | .throw line value => .refl (.throw line value)
  | .empty => .empty

theorem Stmt.allUnrolled_unrollAll : ∀ ss : List Stmt, Stmt.AllUnrolled ss (Stmt.unrollAll ss)
  | [] => .nil
  | s :: ss => .cons s.unrolled_unroll (Stmt.allUnrolled_unrollAll ss)

theorem SwitchGroup.allUnrolled_unrollAll :
    ∀ gs : List SwitchGroup, SwitchGroup.AllUnrolled gs (SwitchGroup.unrollAll gs)
  | [] => .nil
  | .mk _ ss :: gs => .cons rfl (Stmt.allUnrolled_unrollAll ss) (SwitchGroup.allUnrolled_unrollAll gs)

theorem CatchClause.allUnrolled_unrollAll :
    ∀ cs : List CatchClause, CatchClause.AllUnrolled cs (CatchClause.unrollAll cs)
  | [] => .nil
  | .mk _ _ ss :: cs =>
    .cons rfl rfl (Stmt.allUnrolled_unrollAll ss) (CatchClause.allUnrolled_unrollAll cs)

end

/-- Do loops without jumps to them can be unrolled. If a program is accepted, and any of its loops
`do S while (c);` whose bodies are blocks without a break or continue for the loop are replaced by
blocks `{ S while (c) S }`, then there is a text of the new program; and however it is written, it is
accepted, and run without a limit the two programs print the same and end in the same way, or
neither ends. -/
theorem doLoops_unroll {file source : String} (haccepted : (compile file source).failure? = none)
    {program : List Stmt} (hunrolled : Stmt.AllUnrolled (parsed source) program) :
    (∃ source', Accepted source' ∧ Stmt.AllUnrolled (parsed source) (parsed source') ∧
      (parsed source').map Stmt.unlined = program.map Stmt.unlined) ∧
    ∀ file' source', Accepted source' → Stmt.AllUnrolled (parsed source) (parsed source') →
      (compile file' source').failure? = none ∧
        (compile file source).RunsAlike (compile file' source') := by
  have hsource := Accepted.of_failure? haccepted
  constructor
  · obtain ⟨source', hsource', hparsed⟩ := hsource.exists_unrolled hunrolled
    refine ⟨source', hsource', hparsed ▸ hunrolled.onLine 1, ?_⟩
    rw [hparsed, ← Stmt.unlinedAll_eq, Stmt.unlinedAll_onLine, Stmt.unlinedAll_eq]
  · intro file' source' hsource' hprogram
    obtain ⟨checked, exe, hok, hcompiled, hcheck⟩ := exists_compiled haccepted
    obtain ⟨checked', σ, hcheck', hquiet, halike⟩ :=
      Checked.check_unrolled hprogram (Parser.program_regular _) hcheck hcompiled.quiet
    have haccepted' := hsource'.compiled file' hcheck' hquiet
    obtain ⟨checked'', exe', hok', hcompiled', hcheck''⟩ := exists_compiled haccepted'
    cases hcheck'.symm.trans hcheck''
    exact ⟨haccepted', hcompiled.runsAlike hok hcompiled' hok' halike⟩

/-- A do loop in a try statement in a do loop; the run ends with a return from all of them. -/
def polling : String :=
  "int i = 0; do \x7b try { do { i += 2; if (i > 6) return; } while (i < 5); println(i); }" ++
    " finally { println(0); } \x7d while (i != 0);"

set_option maxRecDepth 10000 in
theorem doLoops_unroll_polling :
    (compile "" polling).failure? = none ∧
      (parsed polling).map Stmt.isClosedBlock = [false, false] ∧
      (Stmt.unrollAll (parsed polling)).map Stmt.isClosedBlock = [false, true] ∧
      ∃ source', (parsed source').map Stmt.unlined =
          (Stmt.unrollAll (parsed polling)).map Stmt.unlined ∧
        (compile "" source').failure? = none ∧
        (compile "" polling).RunsAlike (compile "" source') := by
  have haccepted : (compile "" polling).failure? = none := by decide +kernel
  obtain ⟨⟨source', hsource', hunrolled, hparsed⟩, hall⟩ :=
    doLoops_unroll haccepted (Stmt.allUnrolled_unrollAll (parsed polling))
  exact ⟨haccepted, by decide +kernel, by decide +kernel, source', hparsed,
    hall "" source' hsource' hunrolled⟩

end Jminus
