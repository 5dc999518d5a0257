import Jminus.Proofs.Compilation
import Jminus.Proofs.Grammar.Complete
import Jminus.Proofs.Lines
import Mathlib

/-!
Programs that print one literal, from text to text.

Such a program is followed through every phase. The phases need to know of the literal how it is
scanned before the closing parenthesis, which operand its tokens are, what the analysis makes of it,
and what is printed for its constant.
-/
namespace Jminus

namespace Lexer

variable {line : Nat} {c : Char} {cs : List Char}

/-- There is no gap before a character that neither is blank nor opens a comment. -/
theorem skipGap_stays (hblank : isBlank c = false) (hslash : c ≠ '/') :
    skipGap line (c :: cs) = ⟨c :: cs, line, none⟩ := by
  rw [skipGap]
  · simp [hblank]
  · rintro _ rfl
    exact absurd rfl hslash
  · rintro _ rfl
    exact absurd rfl hslash

variable {l : Lexeme}

/-- No lexeme starts with a blank. -/
theorem lexeme_not_blank (hl : lexeme c cs = some l) : isBlank c = false := by
  have hnone : ∀ b ∈ [' ', '\t', '\n', '\x0c', '\r'], lexeme b cs = none := by
    intro b hb
    fin_cases hb <;> rfl
  rw [← Bool.not_eq_true]
  intro hblank
  have hmem : c ∈ [' ', '\t', '\n', '\x0c', '\r'] := by simpa [isBlank, or_assoc] using hblank
  cases (hnone c hmem).symm.trans hl

/-- Where no gap is before it, a lexeme without problems is the next token. -/
theorem next_token (hgap : skipGap line (c :: cs) = ⟨c :: cs, line, none⟩)
    (hl : lexeme c cs = some l) (hquiet : l.problems = []) :
    next ⟨c :: cs, line⟩ = ⟨l.token line, [], ⟨l.rest, line⟩, false⟩ := by
  have hfound : next ⟨c :: cs, line⟩ = _ := next_lexeme (congrArg Gap.rest hgap) hl
  rw [hfound]
  simp [hgap, hquiet, Gap.warnings]

/-- A text gives its first lexeme and then the tokens of the rest. -/
theorem scanFrom_lexeme (hslash : c ≠ '/') (hl : lexeme c cs = some l) (hquiet : l.problems = []) :
    (scanFrom ⟨c :: cs, line⟩).tokens = l.token line :: (scanFrom ⟨l.rest, line⟩).tokens ∧
      (scanFrom ⟨c :: cs, line⟩).diagnostics = (scanFrom ⟨l.rest, line⟩).diagnostics := by
  have hgap : skipGap line (c :: cs) = _ := skipGap_stays (lexeme_not_blank hl) hslash
  have hnext := next_token hgap hl hquiet
  rw [scanFrom_token (by rw [hnext]; exact (lexeme_regular hl).kind), hnext]
  exact ⟨rfl, rfl⟩

/-- The end of the call is scanned to three tokens. -/
theorem scan_close : (scanFrom ⟨[')', ';'], 1⟩).tokens =
      [⟨.rightParen, ")", 1, .nothing⟩, ⟨.semi, ";", 1, .nothing⟩, endOfText 1] ∧
    (scanFrom ⟨[')', ';'], 1⟩).diagnostics = [] := by
  decide +kernel

end Lexer

namespace Printing

open Lexer

def program (text : String) : String := "println(" ++ text ++ ");"

def tree (lit : Literal) : List Stmt := [.expr (.call ⟨"println", 1⟩ [.literal lit])]

/-- A text is the argument of the call: it is scanned without complaint where the call is closed
behind it, and its tokens are an operand that is one literal. -/
structure Argument (text : String) (tokens : List Token) (lit : Literal) : Prop where
  scanned : (scanFrom ⟨text.toList ++ [')', ';'], 1⟩).tokens =
    tokens ++ (scanFrom ⟨[')', ';'], 1⟩).tokens
  quiet : (scanFrom ⟨text.toList ++ [')', ';'], 1⟩).diagnostics = []
  operand : Grammar.Unary tokens (.literal lit)

/-- What is checked to a constant is printed as some text. -/
structure Prints (lit : Literal) (t : Ty) (constant : Checked.Constant) (out : String) : Prop where
  checked : Checked.checkLiteral lit = (.literal t (some constant), [])
  value : t ≠ .void
  printed : Checked.Meaning.execs 0 [.expr (.call (some (Method.printing "println" [t]))
      [.literal t (some constant)])] .start =
    .done .normal { Checked.Meaning.World.start with printed := [out ++ "\n"] }

section Phases

variable {text : String} {tokens : List Token} {lit : Literal}

/-- The call is scanned to its name, the argument in parentheses, and a semicolon. -/
theorem Argument.scan_program (h : Argument text tokens lit) :
    (scan (program text)).tokens =
        ⟨.identifier, "println", 1, .nothing⟩ :: ⟨.leftParen, "(", 1, .nothing⟩ ::
          (tokens ++ [⟨.rightParen, ")", 1, .nothing⟩, ⟨.semi, ";", 1, .nothing⟩, endOfText 1]) ∧
      (scan (program text)).diagnostics = [] := by
  have hscanned := h.scanned
  have hquiet := h.quiet
  rw [scan_close.1] at hscanned
  have hchars : (program text).toList = 'p' :: 'r' :: 'i' :: 'n' :: 't' :: 'l' :: 'n' :: '(' ::
      (text.toList ++ [')', ';']) := by
    simp [program]
  rw [scan, hchars, Cursor.start]
  generalize text.toList ++ [')', ';'] = more at hscanned hquiet ⊢
  have hword : lexeme 'p' ('r' :: 'i' :: 'n' :: 't' :: 'l' :: 'n' :: '(' :: more) =
      some ⟨.identifier, "println".toList, '(' :: more, .nothing, []⟩ := rfl
  have hparen : lexeme '(' more = some ⟨.leftParen, ['('], more, .nothing, []⟩ := rfl
  obtain ⟨hfirst, hsame⟩ := @scanFrom_lexeme 1 'p' _ _ (by decide) hword rfl
  obtain ⟨hsecond, hsame'⟩ := @scanFrom_lexeme 1 '(' _ _ (by decide) hparen rfl
  exact ⟨hfirst.trans (congrArg _ (hsecond.trans (congrArg _ hscanned))),
    hsame.trans (hsame'.trans hquiet)⟩

/-- Those tokens are parsed to one call. -/
theorem Argument.read_program (h : Argument text tokens lit) :
    Parser.program (scan (program text)).tokens = (tree lit, []) := by
  have hcall : Grammar.Primary (⟨.identifier, "println", 1, .nothing⟩ ::
      ⟨.leftParen, "(", 1, .nothing⟩ :: tokens ++ [⟨.rightParen, ")", 1, .nothing⟩])
        (.call ⟨"println", 1⟩ [.literal lit]) :=
    .call rfl rfl (.some (.one (.conditional h.operand.conditional))) rfl
  have hstmt : Grammar.Statements _ (tree lit) :=
    .cons (.statement (.expr (.conditional hcall.conditional)
      (show (⟨.semi, ";", 1, .nothing⟩ : Token).kind = .semi from rfl))) .nil
  have hread := hstmt.program (show (endOfText 1).kind = .eof from rfl)
  rw [h.scan_program.1]
  simpa using hread

variable {t : Ty} {constant : Checked.Constant} {out : String}

/-- A call that prints a literal is checked as the literal is. -/
theorem check_tree {e : Checked.Expr} {ds : List Diagnostic}
    (h : Checked.checkLiteral lit = (e, ds)) (htype : e.type = t) (hvoid : t ≠ .void) :
    Checked.check (tree lit) =
      .ok ⟨[.expr (.call (some (Method.printing "println" [t])) [e])], 0, ds⟩ := by
  have hresolve : Method.resolve "println" [t] = .ok (Method.printing "println" [t]) := by
    simp [Method.resolve, Method.resolve.unlessVoid, hvoid.symm]
  have hexpr : Checked.checkExpr {} (.call ⟨"println", 1⟩ [.literal lit]) =
      (.call (some (Method.printing "println" [t])) [e], ds) := by
    simp only [Checked.checkExpr, Checked.checkExprs, h, List.map_cons, List.map_nil, htype,
      hresolve, List.append_nil]
  have hcheck : Checked.check (tree lit) =
      .ok ⟨[.expr (Checked.checkExpr {} (.call ⟨"println", 1⟩ [.literal lit])).1], 0,
        (Checked.checkExpr {} (.call ⟨"println", 1⟩ [.literal lit])).2⟩ := rfl
  rw [hcheck, hexpr]

/-- A text that is scanned and read without complaint has the reports of its analysis. -/
theorem compile_analyzed (file : String) {source : String} {stmts : List Stmt}
    {program : Checked.Program} (hscan : (Lexer.scan source).diagnostics = [])
    (hread : Parser.program (Lexer.scan source).tokens = (stmts, []))
    (hcheck : Checked.check stmts = .ok program) :
    (compile file source).diagnostics = program.diagnostics ∧
      (compile file source).stmts = stmts := by
  have hfailed : (Lexer.scan source).failed = false := by
    rw [Lexer.scan_failed, hscan]
    rfl
  have hkeeps : ∀ c : Compilation, (c.generate program).diagnostics = c.diagnostics ∧
      (c.generate program).stmts = c.stmts := by
    intro c
    rw [Compilation.generate]
    split <;> exact ⟨rfl, rfl⟩
  have hanalyzed : ∀ c : Compilation, c.stmts = stmts → c.diagnostics = [] →
      c.analyze.diagnostics = program.diagnostics ∧ c.analyze.stmts = stmts := by
    rintro c rfl hc
    rw [Compilation.analyze, hcheck]
    dsimp only
    split
    · rw [(hkeeps _).1, (hkeeps _).2, Compilation.after, hc]
      exact ⟨rfl, rfl⟩
    · rw [Compilation.after, hc]
      exact ⟨rfl, rfl⟩
  rw [compile]
  simp only [hfailed, Bool.false_eq_true, if_false, Compilation.parse, hread, hscan]
  rw [if_pos (by rfl)]
  exact hanalyzed _ rfl rfl

/-- A program that prints a literal with a value compiles. -/
theorem Argument.compiles (h : Argument text tokens lit) (file : String)
    (hprints : Prints lit t constant out) :
    ∃ exe, (compile file (program text)).result = .ok exe ∧
      Compiled (compile file (program text))
        ⟨[.expr (.call (some (Method.printing "println" [t])) [.literal t (some constant)])], 0, []⟩
        exe := by
  have htree := check_tree hprints.checked rfl hprints.value
  obtain ⟨hdiagnostics, hstmts⟩ := compile_analyzed file h.scan_program.2 h.read_program htree
  have hvalid : (compile file (program text)).valid = true := by
    rw [Compilation.valid, hdiagnostics]
    rfl
  cases compile_came file (program text) with
  | scanned _ _ herrors | parsed _ herrors | analyzed _ herrors => cases hvalid.symm.trans herrors
  | generated _ checked exe hok hcompiled =>
    have hcheck := hcompiled.analyzed
    rw [hstmts, htree] at hcheck
    cases hcheck
    exact ⟨exe, hok, hcompiled⟩

/-- A run prints the literal and a line break, and ends. -/
theorem Argument.run_prints (h : Argument text tokens lit) (file : String)
    (hprints : Prints lit t constant out) :
    ∃ fuel r, (compile file (program text)).run 0 fuel = some r ∧ r.failure? = none ∧
      r.output = out ++ "\n" := by
  obtain ⟨exe, hok, hcompiled⟩ := h.compiles file hprints
  obtain ⟨slots, hlength, hsound⟩ := hcompiled.sound
  obtain ⟨code, m, hcode, hholds⟩ := hcompiled.code
  obtain ⟨fuel, stop, m', hrun, hprinted, hstop, _⟩ :=
    Checked.Meaning.run_of_done hsound hcode hholds hprints.printed
  rw [hlength] at hrun
  let r : Run := ⟨stop.failure? m', m'.printed, runLog (compile file (program text)).file stop m'⟩
  have hended : r.Ended .finished := (ended_iff rfl).2 hstop
  refine ⟨fuel, r, ?_, hended, ?_⟩
  · rw [Compilation.run_ok hok, Executable.run, hrun]
    rfl
  · have hpieces : r.printed = [out ++ "\n"] := hprinted
    rw [Run.output, hpieces]
    simp

end Phases

end Printing

end Jminus
