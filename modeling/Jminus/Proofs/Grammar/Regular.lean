import Jminus.Proofs.Grammar.Sound
import Jminus.Proofs.Typing.Stmt
import Mathlib

/-!
Whatever the parser reads is regular: its for loops start with declarations and expressions only.
-/
namespace Jminus

theorem Stmt.allRegular_append {ss ss' : List Stmt} :
    Stmt.AllRegular (ss ++ ss') ↔ Stmt.AllRegular ss ∧ Stmt.AllRegular ss' := by
  induction ss with
  | nil => simp [Stmt.AllRegular]
  | cons s ss ih => simp [Stmt.AllRegular, ih, and_assoc]

namespace Grammar

/-- A declaration is a list of variables. -/
theorem Declarators.simple {type : Name} {ts : List Token} {decls : List Stmt}
    (h : Declarators type ts decls) : decls.all Stmt.isSimple = true := by
  induction h with
  | one => rfl
  | more _ _ _ _ ih => simpa [Stmt.isSimple] using ih

theorem Declaration.simple {ts : List Token} {decls : List Stmt} (h : Declaration ts decls) :
    decls.all Stmt.isSimple = true := by
  cases h with
  | mk _ hdecls => exact hdecls.simple

/-- A for loop starts with declarations and expressions only. -/
theorem ForHeader.simple {ts : List Token} {init : List Stmt} {cond : Option Expr}
    {update : List Expr} (h : ForHeader ts init cond update) : init.all Stmt.isSimple = true := by
  obtain ⟨_, hinit, _⟩ := h
  cases hinit with
  | none => rfl
  | declaration h => exact h.simple
  | expressions => simp [List.all_map, Function.comp_def, Stmt.isSimple]

mutual

/-- Every statement of the grammar is regular, part by part. -/
theorem Statement.regular : ∀ {ts s}, Statement ts s → s.Regular
  | _, _, .block h => Block.regular h
  | _, _, .ifThen _ _ hs => by simpa [Stmt.Regular] using Statement.regular hs
  | _, _, .ifElse _ _ hs _ _ hs' => ⟨Statement.regular hs, Statement.regular hs'⟩
  | _, _, .whileLoop _ _ hs => by simpa [Stmt.Regular] using Statement.regular hs
  | _, _, .doLoop _ hs _ _ _ => by simpa [Stmt.Regular] using Statement.regular hs
  | _, _, .forLoop _ hheader hs => ⟨hheader.simple, Statement.regular hs⟩
  | _, _, .switch _ _ _ hgs _ => Groups.regular hgs
  | _, _, .tryCatch _ hbody hcs .absent _ => ⟨Block.regular hbody, Catches.regular hcs⟩
  | _, _, .tryCatch _ hbody hcs (.present _ hf) _ =>
    ⟨Block.regular hbody, Catches.regular hcs, Block.regular hf⟩
  | _, _, .brk _ _ | _, _, .cont _ _ | _, _, .ret _ _ _ | _, _, .throw _ _ _ => trivial
  | _, _, .empty _ | _, _, .expr _ _ => trivial

theorem Block.regular : ∀ {ts ss}, Block ts ss → Stmt.AllRegular ss
  | _, _, .mk _ hss _ => Statements.regular hss

theorem BlockStatement.regular : ∀ {ts ss}, BlockStatement ts ss → Stmt.AllRegular ss
  | _, _, .declaration h _ => Stmt.allRegular_of_simple h.simple
  | _, _, .statement h => ⟨Statement.regular h, trivial⟩

theorem Statements.regular : ∀ {ts ss}, Statements ts ss → Stmt.AllRegular ss
  | _, _, .nil => trivial
  | _, _, .cons h hss => Stmt.allRegular_append.2 ⟨BlockStatement.regular h, Statements.regular hss⟩

theorem Groups.regular : ∀ {ts gs}, Groups ts gs → SwitchGroup.AllRegular gs
  | _, _, .nil => trivial
  | _, _, .cons _ hss hgs _ => ⟨Statements.regular hss, Groups.regular hgs⟩

theorem Catches.regular : ∀ {ts cs}, Catches ts cs → CatchClause.AllRegular cs
  | _, _, .nil => trivial
  | _, _, .cons _ _ hbody hcs => ⟨Block.regular hbody, Catches.regular hcs⟩

end

end Grammar

/-- Programs are regular, also where parts of them could not be read. -/
theorem Parser.program_regular (ts : List Token) : Stmt.AllRegular (program ts).1 := by
  fun_induction program ts with
  | case1 => trivial
  | case2 t rest _ first rest' hless hfirst more diagnostics hmore ih =>
    rw [hmore] at ih
    obtain ⟨_, _, hread⟩ := Grammar.blockStatement_sound ⟨hless, hfirst⟩
    exact Stmt.allRegular_append.2 ⟨hread.regular, ih⟩
  | case3 t rest _ f hfirst more diagnostics hmore ih =>
    rw [hmore] at ih
    exact ih
  | case4 => trivial

end Jminus
