import Jminus.Proofs.Compilation
import Jminus.Proofs.Outline.Program
import Mathlib

/-!
Which texts have code: those that are scanned and parsed without an error and of which analysis has
nothing to report. Their runs are evaluations of their trees.
-/
namespace Jminus

open Checked.Meaning (Evaluates Outcome)

namespace Compilation

variable {c : Compilation}

/-- Statements that were read without an error are handed to analysis. -/
theorem parse_quiet (hvalid : c.valid = true) (hread : (Parser.program c.tokens).2 = []) :
    ∃ c' : Compilation, c.parse = c'.analyze ∧ c'.stmts = (Parser.program c.tokens).1 ∧
      c'.valid = true := by
  have hafter := after_valid (c := { c with stmts := (Parser.program c.tokens).1 }) []
    (phaseLog c.file [] "parsed" "statements" (Parser.program c.tokens).1.length) hvalid
  refine ⟨_, ?_, rfl, hafter⟩
  simp only [parse, hread]
  exact if_pos hafter

/-- Nothing comes of tokens that the parser complains of. -/
theorem parse_failed (hvalid : c.valid = true) (hread : (Parser.program c.tokens).2 ≠ []) :
    c.parse.result = c.result := by
  have herrors := fun d hd => (Parser.program_phase c.tokens d hd).2
  have hafter := after_valid (c := { c with stmts := (Parser.program c.tokens).1 })
    (Parser.program c.tokens).2 (phaseLog c.file (Parser.program c.tokens).2 "parsed" "statements"
      (Parser.program c.tokens).1.length) hvalid
  simp only [parse]
  rw [if_neg (by rw [hafter]; exact mt (Diagnostic.allValid_eq_true herrors).1 hread)]
  rfl

theorem stmts_analyze (c : Compilation) : c.analyze.stmts = c.stmts := by
  rw [analyze]
  cases Checked.check c.stmts with
  | error f => rfl
  | ok program =>
    dsimp only
    split
    · rw [generate]
      cases Checked.generate program.stmts <;> rfl
    · rfl

end Compilation

section Phases

variable {file source : String}

def scanned (file source : String) : Compilation :=
  { file
    tokens := (Lexer.scan source).tokens
    diagnostics := (Lexer.scan source).diagnostics
    log := phaseLog file (Lexer.scan source).diagnostics "scan finished" "tokens"
      (Lexer.scan source).tokens.length
    result := .error .rejected }

/-- A text that is scanned without an error is parsed. -/
theorem compile_scanned (file : String) (h : (Lexer.scan source).failed = false) :
    compile file source = (scanned file source).parse ∧ (scanned file source).valid = true := by
  have hvalid : Diagnostic.allValid (Lexer.scan source).diagnostics = true := by
    simpa [Lexer.scan_failed_eq] using h
  exact ⟨if_neg (by simp [h]), hvalid⟩

/-- A text without errors is handed to analysis as it was parsed. -/
theorem Accepted.compile_eq (h : Accepted source) (file : String) :
    ∃ c : Compilation, compile file source = c.analyze ∧ c.stmts = parsed source ∧
      c.valid = true := by
  obtain ⟨hscan, hread⟩ := h
  obtain ⟨hcompile, hvalid⟩ := compile_scanned file hscan
  rw [hcompile]
  exact Compilation.parse_quiet hvalid hread

/-- No phase makes code of a text with errors in its tokens or statements. -/
theorem Accepted.of_failure? (h : (compile file source).failure? = none) : Accepted source := by
  by_cases hscan : (Lexer.scan source).failed = true
  · simp [compile, hscan, Compilation.failure?] at h
  · have hscan : (Lexer.scan source).failed = false := by simpa using hscan
    obtain ⟨hcompile, hvalid⟩ := compile_scanned file hscan
    refine ⟨hscan, ?_⟩
    by_contra hread
    rw [hcompile, Compilation.failure?, Compilation.parse_failed hvalid hread] at h
    cases h

/-- The tree of an accepted text is the one that was parsed. -/
theorem Accepted.stmts (h : Accepted source) (file : String) :
    (compile file source).stmts = parsed source := by
  obtain ⟨c, hc, hstmts, _⟩ := h.compile_eq file
  rw [hc, Compilation.stmts_analyze, hstmts]

/-- There is code of an accepted text of which analysis has nothing to report. -/
theorem Accepted.compiled (h : Accepted source) (file : String) {program : Checked.Program}
    (hcheck : Checked.check (parsed source) = .ok program) (hquiet : program.diagnostics = []) :
    (compile file source).failure? = none := by
  obtain ⟨c, hc, hstmts, hvalid⟩ := h.compile_eq file
  have hregular : Stmt.AllRegular (parsed source) := Parser.program_regular _
  obtain ⟨slots, _, hsound⟩ := Checked.check_sound hregular hcheck hquiet
  obtain ⟨code, n, listing, _, hgenerate, _⟩ := Checked.generate_sound hsound
  have hafter : (c.after [] (phaseLog c.file [] "analyzed" "locals" program.slots)).valid = true :=
    c.after_valid [] _ hvalid
  rw [hc, Compilation.analyze, hstmts, hcheck]
  dsimp only
  rw [hquiet, if_pos hafter, Compilation.generate, hgenerate]
  rfl

/-- A text with code was accepted, and analysis had nothing to report. -/
theorem exists_compiled (h : (compile file source).failure? = none) :
    ∃ program exe, (compile file source).result = .ok exe ∧
      Compiled (compile file source) program exe ∧ Checked.check (parsed source) = .ok program := by
  obtain ⟨exe, hok⟩ := Compilation.result_of_failure? h
  obtain ⟨program, hcompiled⟩ := compile_accepted hok
  refine ⟨program, exe, hok, hcompiled, ?_⟩
  rw [← (Accepted.of_failure? h).stmts file]
  exact hcompiled.analyzed

end Phases

namespace Compiled

variable {c : Compilation} {program : Checked.Program} {exe : Executable}

/-- A run without a limit that is over evaluated the tree. -/
theorem evaluates (h : Compiled c program exe) (hok : c.result = .ok exe) {fuel : Nat} {r : Run}
    (hr : c.run 0 fuel = some r) :
    ∃ outcome, r.Ended outcome ∧ Evaluates program.stmts r.printed outcome := by
  obtain ⟨slots, hlength, hsound⟩ := h.sound
  obtain ⟨code, n, hcode, hholds⟩ := h.code
  rw [Compilation.run_ok hok, Executable.run, ← hlength] at hr
  obtain ⟨⟨stop, m⟩, hrun, rfl⟩ := Option.map_eq_some_iff.1 hr
  obtain ⟨k, w, outcome, hdone, hprinted, houtcome, hstop, _⟩ :=
    Checked.Meaning.done_of_run hsound hcode hholds hrun
  exact ⟨outcome, (ended_iff rfl).2 hstop, fuel, k, w, hdone, hprinted.symm, houtcome⟩

/-- Where the tree can be evaluated, a run without a limit is over some time. -/
theorem run_of_evaluates (h : Compiled c program exe) (hok : c.result = .ok exe)
    {printed : List String} {outcome : Outcome} (hends : Evaluates program.stmts printed outcome) :
    ∃ fuel r, c.run 0 fuel = some r ∧ r.printed = printed ∧ r.Ended outcome := by
  obtain ⟨slots, hlength, hsound⟩ := h.sound
  obtain ⟨code, n, hcode, hholds⟩ := h.code
  obtain ⟨_, k, w, hdone, rfl, houtcome⟩ := hends
  obtain ⟨fuel, stop, m, hrun, hprinted, hstop, _⟩ :=
    Checked.Meaning.run_of_done hsound hcode hholds hdone
  rw [hlength] at hrun
  refine ⟨fuel, _, by rw [Compilation.run_ok hok, Executable.run, hrun]; rfl, hprinted, ?_⟩
  exact (ended_iff rfl).2 (hstop.trans houtcome)

end Compiled

end Jminus
