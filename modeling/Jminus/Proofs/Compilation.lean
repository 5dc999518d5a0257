import Jminus.Compilation
import Jminus.Proofs.Grammar.Regular
import Jminus.Proofs.Scanning
import Jminus.Proofs.Simulation.Program
import Mathlib

/-!
From source text to a run, all phases together.

A phase is only entered when those before it found no error, so the errors of a text are all of one
phase. A text without errors has code, the code is resolved, and running it does what the analyzed
tree means.
-/
namespace Jminus

/-- Parsing reports syntax errors only. -/
theorem Parser.program_phase (ts : List Token) :
    ∀ d ∈ (program ts).2, d.phase = .syntactic ∧ d.isError = true := by
  fun_induction program ts with
  | case1 => simp
  | case2 t rest _ first rest' hless hfirst more diagnostics hmore ih =>
    rw [hmore] at ih
    exact ih
  | case3 t rest _ f hfirst more diagnostics hmore ih =>
    rw [hmore] at ih
    intro d hd
    rcases List.mem_cons.1 hd with rfl | hd
    · exact ⟨rfl, rfl⟩
    · exact ih d hd
  | case4 => simp

/-- Analysis reports errors of its own phase. -/
theorem Checked.Reports.phase {ds : List Diagnostic} (h : Reports ds) :
    ∀ d ∈ ds, d.phase = .semantic ∧ d.isError = true := by
  intro d hd
  obtain ⟨line, p, rfl⟩ := h d hd
  exact ⟨rfl, rfl⟩

namespace Diagnostic

theorem allValid_append (ds es : List Diagnostic) :
    allValid (ds ++ es) = (allValid ds && allValid es) := List.all_append

/-- Where everything that is reported is an error, nothing to report and no error are the same. -/
theorem allValid_eq_true {ds : List Diagnostic} (h : ∀ d ∈ ds, d.isError = true) :
    allValid ds = true ↔ ds = [] := by
  constructor
  · intro hvalid
    refine List.eq_nil_iff_forall_not_mem.2 fun d hd => ?_
    have hno := List.all_eq_true.1 hvalid d hd
    simp [h d hd] at hno
  · rintro rfl
    rfl

end Diagnostic

/-- The flag of the scanner says what its diagnostics say. -/
theorem Lexer.scan_failed_eq (source : String) :
    (scan source).failed = !Diagnostic.allValid (scan source).diagnostics := by
  simp [scan_failed, Diagnostic.allValid, List.not_all_eq_any_not]

/-- What a source text went through on its way to code: it has no errors, its tree is sound, and the
listing holds the code of the tree and nothing else. -/
structure Compiled (c : Compilation) (program : Checked.Program) (exe : Executable) : Prop where
  analyzed : Checked.check c.stmts = .ok program
  quiet : program.diagnostics = []
  slots : program.slots = exe.slots
  sound : ∃ slots : Checked.Slots, slots.length = exe.slots ∧
    Checked.Stmt.AllSound slots [] [] program.stmts
  code : ∃ code n, Checked.stmtsCode program.stmts [] 0 = .ok (code, n) ∧
    exe.listing.Holds (code ++ [Code.op .ret])

namespace Checked

/-- Sound programs have code and a listing. -/
theorem generate_sound {slots : Slots} {program : List Stmt}
    (h : Stmt.AllSound slots [] [] program) :
    ∃ code n listing, stmtsCode program [] 0 = .ok (code, n) ∧
      generate program = .ok (code ++ [Code.op .ret], listing) ∧
      listing.Holds (code ++ [Code.op .ret]) := by
  obtain ⟨all, n, hall, hlaid⟩ := programCode_lays h 0
  obtain ⟨code, hcode, rfl⟩ := program_ok.1 hall
  obtain ⟨listing, hassemble, hholds⟩ := hlaid.assemble
  refine ⟨code, n, listing, hcode, ?_, hholds⟩
  have hrun : (programCode program).run 0 = .ok (code ++ [Code.op .ret], n) := hall
  simp only [generate, hrun, hassemble, hholds.resolved.resolve, bind, Except.bind, pure,
    Except.pure]

end Checked

/-- How far a source text came: to errors of one phase, or to code. -/
inductive Came (c : Compilation) : Prop
  /-- Errors in tokens; nothing was read. -/
  | scanned (rejected : c.result = .error .rejected) (unread : c.stmts = [])
      (errors : c.valid = false) (lexical : ∀ d ∈ c.diagnostics, d.phase = .lexical)
  /-- Errors in statements; nothing was analyzed. -/
  | parsed (rejected : c.result = .error .rejected) (errors : c.valid = false)
      (phase : ∀ d ∈ c.diagnostics, d.isError = true → d.phase = .syntactic)
      (unanalyzed : ∀ d ∈ c.diagnostics, d.phase ≠ .semantic)
  /-- Errors in the use of names and types; no code was made. -/
  | analyzed (rejected : c.result = .error .rejected) (errors : c.valid = false)
      (phase : ∀ d ∈ c.diagnostics, d.isError = true → d.phase = .semantic)
  /-- No errors. -/
  | generated (valid : c.valid = true) (program : Checked.Program) (exe : Executable)
      (ok : c.result = .ok exe) (compiled : Compiled c program exe)

namespace Compilation

variable {c : Compilation}

/-- Code is made of every program that is in order. -/
theorem generate_came {program : Checked.Program} (hcheck : Checked.check c.stmts = .ok program)
    (hregular : Stmt.AllRegular c.stmts) (hquiet : program.diagnostics = [])
    (hvalid : c.valid = true) : Came (c.generate program) := by
  obtain ⟨slots, hlength, hsound⟩ := Checked.check_sound hregular hcheck hquiet
  obtain ⟨code, n, listing, hcode, hgenerate, hholds⟩ := Checked.generate_sound hsound
  have hresult : (c.generate program).result = .ok ⟨listing, program.slots⟩ := by
    rw [generate, hgenerate]
  have hdiagnostics : (c.generate program).diagnostics = c.diagnostics := by
    rw [generate, hgenerate]
  have hstmts : (c.generate program).stmts = c.stmts := by
    rw [generate, hgenerate]
  refine .generated ?_ program ⟨listing, program.slots⟩ hresult
    ⟨hstmts ▸ hcheck, hquiet, rfl, ⟨slots, hlength, hsound⟩, ⟨code, n, hcode, hholds⟩⟩
  rwa [valid, hdiagnostics]

/-- A compilation that goes no further because a phase found errors. -/
theorem after_valid (ds : List Diagnostic) (log : List Log.Entry) (hvalid : c.valid = true) :
    (c.after ds log).valid = Diagnostic.allValid ds := by
  have hbefore : Diagnostic.allValid c.diagnostics = true := hvalid
  rw [valid, after, Diagnostic.allValid_append, hbefore, Bool.true_and]

/-- From a sound tree the way leads to semantic errors or to code. -/
theorem analyze_came (hregular : Stmt.AllRegular c.stmts) (hvalid : c.valid = true)
    (hrejected : c.result = .error .rejected) : Came c.analyze := by
  obtain ⟨program, hcheck, hreports⟩ := Checked.check_total c.stmts
  have hphase := hreports.phase
  have hafter := c.after_valid program.diagnostics
    (phaseLog c.file program.diagnostics "analyzed" "locals" program.slots) hvalid
  rw [analyze, hcheck]
  dsimp only
  rw [hafter]
  by_cases hquiet : Diagnostic.allValid program.diagnostics = true
  · rw [if_pos hquiet]
    have hnil := (Diagnostic.allValid_eq_true fun d hd => (hphase d hd).2).1 hquiet
    exact generate_came hcheck hregular hnil (hafter.trans hquiet)
  · rw [if_neg hquiet]
    refine .analyzed hrejected (hafter.trans (by simpa using hquiet)) fun d hd herror => ?_
    rcases List.mem_append.1 hd with hd | hd
    · have hno := List.all_eq_true.1 hvalid d hd
      simp [herror] at hno
    · exact (hphase d hd).1

/-- From tokens it may also end with errors of the parser. -/
theorem parse_came (hvalid : c.valid = true) (hrejected : c.result = .error .rejected)
    (hlexical : ∀ d ∈ c.diagnostics, d.phase = .lexical) : Came c.parse := by
  have hphase := Parser.program_phase c.tokens
  have hregular := Parser.program_regular c.tokens
  rw [parse]
  cases hprogram : Parser.program c.tokens with
  | mk stmts ds =>
    rw [hprogram] at hphase hregular
    have hafter := after_valid (c := { c with stmts }) ds
      (phaseLog c.file ds "parsed" "statements" stmts.length) hvalid
    dsimp only
    rw [hafter]
    by_cases hquiet : Diagnostic.allValid ds = true
    · rw [if_pos hquiet]
      exact analyze_came hregular (hafter.trans hquiet) hrejected
    · rw [if_neg hquiet]
      refine .parsed hrejected (hafter.trans (by simpa using hquiet)) ?_ ?_
      · intro d hd herror
        rcases List.mem_append.1 hd with hd | hd
        · have hno := List.all_eq_true.1 hvalid d hd
          simp [herror] at hno
        · exact (hphase d hd).1
      · intro d hd
        rcases List.mem_append.1 hd with hd | hd
        · rw [hlexical d hd]
          decide
        · rw [(hphase d hd).1]
          decide

end Compilation

/-- Every source text comes to errors of one phase or to code. -/
theorem compile_came (file source : String) : Came (compile file source) := by
  have hphase := Lexer.scanFrom_phase (.start source.toList)
  have hfailed := Lexer.scan_failed_eq source
  rw [compile]
  cases hvalid : Diagnostic.allValid (Lexer.scan source).diagnostics with
  | true =>
    rw [hvalid] at hfailed
    simp only [hfailed, Bool.not_true, Bool.false_eq_true, if_false]
    exact Compilation.parse_came hvalid rfl hphase
  | false =>
    rw [hvalid] at hfailed
    simp only [hfailed, Bool.not_false, if_true]
    exact .scanned rfl rfl hvalid hphase

variable {c : Compilation} {exe : Executable}

theorem Compilation.result_of_failure? (h : c.failure? = none) : ∃ exe, c.result = .ok exe := by
  cases hresult : c.result with
  | ok exe => exact ⟨exe, rfl⟩
  | error e => simp [Compilation.failure?, hresult] at h

/-- A text that was accepted went all the way. -/
theorem compile_accepted {file source : String} (h : (compile file source).result = .ok exe) :
    ∃ program, Compiled (compile file source) program exe := by
  cases compile_came file source with
  | scanned hrejected | parsed hrejected | analyzed hrejected => cases h.symm.trans hrejected
  | generated _ program exe' hok hcompiled =>
    cases h.symm.trans hok
    exact ⟨program, hcompiled⟩

/-- Compilation always comes to an answer: code exactly if there is no error, with every label that
it uses in one place, and nothing but a rejection otherwise. Errors are all of the phase that found
them first, since no later phase is entered then. -/
theorem compile_gated (file source : String) :
    ((compile file source).failure? = none ↔
      ∀ d ∈ (compile file source).diagnostics, d.severity ≠ .error) ∧
    ((compile file source).failure? = none → ∃ exe, (compile file source).result = .ok exe ∧
      exe.listing.Resolved ∧ exe.listing.resolve = .ok ()) ∧
    ((compile file source).failure? ≠ none →
      (compile file source).result = .error .rejected ∧ (compile file source).listing = "" ∧
        (compile file source).slots = 0) ∧
    (∃ phase, ∀ d ∈ (compile file source).diagnostics, d.severity = .error → d.phase = phase) ∧
    (Diagnostic.anyErrorIn .lexical (compile file source).diagnostics = true →
      (compile file source).stmts = [] ∧
        ∀ d ∈ (compile file source).diagnostics, d.phase = .lexical) ∧
    (Diagnostic.anyErrorIn .syntactic (compile file source).diagnostics = true →
      ∀ d ∈ (compile file source).diagnostics, d.phase ≠ .semantic) := by
  generalize hc : compile file source = c
  have hvalid : c.valid = true ↔ ∀ d ∈ c.diagnostics, d.severity ≠ .error := by
    simp [Compilation.valid, Diagnostic.allValid, Diagnostic.isError]
  have hin : ∀ phase, Diagnostic.anyErrorIn phase c.diagnostics = true ↔
      ∃ d ∈ c.diagnostics, d.severity = .error ∧ d.phase = phase := by
    simp [Diagnostic.anyErrorIn, Diagnostic.isError]
  have hreject : c.result = .error .rejected → c.failure? ≠ none ∧ c.listing = "" ∧ c.slots = 0 := by
    intro h
    simp [Compilation.failure?, Compilation.listing, Compilation.slots, h]
  rw [← hvalid]
  have hcame := compile_came file source
  rw [hc] at hcame
  cases hcame with
  | scanned hrejected hunread herrors hlexical =>
    obtain ⟨hfail, hlisting, hslots⟩ := hreject hrejected
    refine ⟨by simp [hfail, herrors], fun h => absurd h hfail, fun _ => ⟨hrejected, hlisting, hslots⟩,
      ⟨_, fun d hd _ => hlexical d hd⟩, fun _ => ⟨hunread, hlexical⟩, fun h => ?_⟩
    obtain ⟨d, hd, _, hphase⟩ := (hin _).1 h
    cases hphase.symm.trans (hlexical d hd)
  | parsed hrejected herrors hphase hunanalyzed =>
    obtain ⟨hfail, hlisting, hslots⟩ := hreject hrejected
    have hphase' : ∀ d ∈ c.diagnostics, d.severity = .error → d.phase = .syntactic :=
      fun d hd herror => hphase d hd (by simp [Diagnostic.isError, herror])
    refine ⟨by simp [hfail, herrors], fun h => absurd h hfail, fun _ => ⟨hrejected, hlisting, hslots⟩,
      ⟨_, hphase'⟩, fun h => ?_, fun _ => hunanalyzed⟩
    obtain ⟨d, hd, herror, hlex⟩ := (hin _).1 h
    cases hlex.symm.trans (hphase' d hd herror)
  | analyzed hrejected herrors hphase =>
    obtain ⟨hfail, hlisting, hslots⟩ := hreject hrejected
    have hphase' : ∀ d ∈ c.diagnostics, d.severity = .error → d.phase = .semantic :=
      fun d hd herror => hphase d hd (by simp [Diagnostic.isError, herror])
    refine ⟨by simp [hfail, herrors], fun h => absurd h hfail, fun _ => ⟨hrejected, hlisting, hslots⟩,
      ⟨_, hphase'⟩, fun h => ?_, fun h => ?_⟩
    · obtain ⟨d, hd, herror, hlex⟩ := (hin _).1 h
      cases hlex.symm.trans (hphase' d hd herror)
    · obtain ⟨d, hd, herror, hlex⟩ := (hin _).1 h
      cases hlex.symm.trans (hphase' d hd herror)
  | generated hok program exe hresult hcompiled =>
    have hnone : c.failure? = none := by simp [Compilation.failure?, hresult]
    have hno : ∀ d ∈ c.diagnostics, d.severity ≠ .error := hvalid.1 hok
    obtain ⟨_, _, _, hholds⟩ := hcompiled.code
    refine ⟨by simp [hnone, hok],
      fun _ => ⟨exe, hresult, hholds.resolved, hholds.resolved.resolve⟩, fun h => absurd hnone h,
      ⟨.lexical, fun d hd herror => absurd herror (hno d hd)⟩, fun h => ?_, fun h => ?_⟩
    · obtain ⟨d, hd, herror, _⟩ := (hin _).1 h
      exact absurd herror (hno d hd)
    · obtain ⟨d, hd, herror, _⟩ := (hin _).1 h
      exact absurd herror (hno d hd)

open Checked.Meaning (Evaluates Outcome)

/-- How a run ended, as its user sees it. -/
def Run.Ended (r : Run) : Outcome → Prop
  | .finished => r.failure? = none
  | .uncaught cls => ∃ pc, r.failure? = some (.uncaught cls pc)

/-- What the user sees of an end is the outcome it has as a meaning. -/
theorem ended_iff {stop : Stop} {m : Machine} {outcome : Outcome} {r : Run}
    (hr : r.failure? = stop.failure? m) :
    r.Ended outcome ↔ Checked.Meaning.outcome? stop = some outcome := by
  cases outcome with
  | finished => cases stop <;> simp [Run.Ended, hr, Stop.failure?, Checked.Meaning.outcome?]
  | uncaught cls =>
    cases stop <;> simp [Run.Ended, hr, Stop.failure?, Checked.Meaning.outcome?]

/-- What was compiled is run on the machine. -/
theorem Compilation.run_ok (h : c.result = .ok exe) (limit fuel : Nat) :
    c.run limit fuel = exe.run c.file limit fuel := by
  rw [Compilation.run, h]

/-- Running the code of an accepted text without a limit agrees with evaluating its tree: one comes
to an end if and only if the other does, with the same outcome and the same pieces printed. -/
theorem run_iff_evaluates {file source : String}
    (haccepted : (compile file source).failure? = none) :
    ∃ program, Checked.check (compile file source).stmts = .ok program ∧
      ∀ printed outcome, Evaluates program.stmts printed outcome ↔
        ∃ fuel r, (compile file source).run 0 fuel = some r ∧ r.printed = printed ∧
          r.Ended outcome := by
  obtain ⟨exe, h⟩ := Compilation.result_of_failure? haccepted
  obtain ⟨program, hcompiled⟩ := compile_accepted h
  obtain ⟨slots, hlength, hsound⟩ := hcompiled.sound
  obtain ⟨code, n, hcode, hholds⟩ := hcompiled.code
  refine ⟨program, hcompiled.analyzed, fun printed outcome => ?_⟩
  simp only [Compilation.run_ok h, Executable.run, ← hlength]
  constructor
  · rintro ⟨fuel, c, w, hdone, rfl, houtcome⟩
    obtain ⟨fuel', stop, m, hrun, hprinted, hstop, _⟩ :=
      Checked.Meaning.run_of_done hsound hcode hholds hdone
    refine ⟨fuel', _, by rw [hrun]; rfl, hprinted, ?_⟩
    exact (ended_iff rfl).2 (hstop.trans houtcome)
  · rintro ⟨fuel, r, hr, rfl, hended⟩
    obtain ⟨⟨stop, m⟩, hrun, rfl⟩ := Option.map_eq_some_iff.1 hr
    obtain ⟨c, w, outcome', hdone, hprinted, houtcome, hstop, _⟩ :=
      Checked.Meaning.done_of_run hsound hcode hholds hrun
    have hsame := (ended_iff rfl).1 hended
    cases hstop.symm.trans hsame
    exact ⟨fuel, c, w, hdone, hprinted.symm, houtcome⟩

/-- A loop around a try statement with all its clauses. Its variable stays what it is. -/
def retrying : String :=
  "int i = 2; while (i > 0) try { i = i / (i - 1); } catch (ArithmeticException e) { i = 0; }" ++
    " finally { println(i); }"

set_option maxRecDepth 10000 in
theorem retrying_accepted : (compile "" retrying).failure? = none := by decide +kernel

theorem run_iff_evaluates_retrying :
    ∃ program, Checked.check (compile "" retrying).stmts = .ok program ∧
      ∀ printed outcome, Evaluates program.stmts printed outcome ↔
        ∃ fuel r, (compile "" retrying).run 0 fuel = some r ∧
          r.printed = printed ∧ r.Ended outcome :=
  run_iff_evaluates retrying_accepted

def Stop.Proper (m : Machine) : Stop → Prop
  | .finished => m.stack = []
  | .stepLimit => True
  | .uncaught cls _ => cls.isSubclassOf .throwable = true
  | .fault _ => False

/-- With any limit, however far it is followed, the run of an accepted text goes on or is properly
over: no instruction ever fails. -/
theorem run_proper {file source : String} {exe : Executable}
    (h : (compile file source).result = .ok exe) (limit fuel : Nat) :
    Machine.run exe.listing limit fuel (.start exe.slots) = none ∨
      ∃ stop m, Machine.run exe.listing limit fuel (.start exe.slots) = some (stop, m) ∧
        stop.Proper m := by
  obtain ⟨program, hcompiled⟩ := compile_accepted h
  obtain ⟨slots, hlength, hsound⟩ := hcompiled.sound
  obtain ⟨code, n, hcode, hholds⟩ := hcompiled.code
  rcases Checked.Meaning.run_limit exe.listing limit fuel (.start exe.slots) with ⟨m, hrun⟩ | hsame
  · exact .inr ⟨.stepLimit, m, hrun, trivial⟩
  · rw [hsame]
    cases hrun : Machine.run exe.listing 0 fuel (.start exe.slots) with
    | none => exact .inl rfl
    | some r =>
      obtain ⟨stop, m⟩ := r
      rw [← hlength] at hrun
      obtain ⟨c, w, outcome, _, _, _, hstop, hstack, hclass⟩ :=
        Checked.Meaning.done_of_run hsound hcode hholds hrun
      refine .inr ⟨stop, m, rfl, ?_⟩
      cases stop with
      | finished => exact hstack rfl
      | stepLimit => trivial
      | uncaught cls pc =>
        cases hstop
        exact hclass cls rfl
      | fault f => cases hstop

theorem run_proper_retrying :
    ∃ exe, (compile "" retrying).result = .ok exe ∧ ∀ limit fuel,
      Machine.run exe.listing limit fuel (.start exe.slots) = none ∨
        ∃ stop m, Machine.run exe.listing limit fuel (.start exe.slots) = some (stop, m) ∧
          stop.Proper m := by
  obtain ⟨exe, h⟩ := Compilation.result_of_failure? retrying_accepted
  exact ⟨exe, h, run_proper h⟩

end Jminus
