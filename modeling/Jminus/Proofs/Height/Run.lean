import Jminus.Proofs.Compilation
import Jminus.Proofs.Height.Stmt
import Mathlib

/-!
Heights for the code of accepted texts.

Whenever a run comes to an instruction, its operand stack is as high as it is whenever any run comes
there. Where a statement starts the stack is empty, and where an exception is caught it holds nothing
but the exception.
-/
namespace Jminus

namespace Checked

open Code

/-- Statements directly inside others. The updates of a for loop count as statements. -/
inductive Portion : List Stmt → List Stmt → Prop
  | part {ss outer} (h : Part ss outer) : Portion ss outer
  | updates {frame init cond update body ss} :
      Portion (update.map .expr) (.forLoop frame init cond update body :: ss)

def Stmt.Stands (program : List Stmt) (s : Stmt) : Prop :=
  ∃ rest, Relation.ReflTransGen (fun outer inner => Portion inner outer) program (s :: rest)

/-- A statement of a program has its code at a place of a listing. One that is part of a finally
clause has it at several. -/
def Stmt.StartsAt (prog : Listing) (program : List Stmt) (s : Stmt) (p : Nat) : Prop :=
  ∃ rest exits n, Spot.Among program ⟨s :: rest, exits, n, p⟩ ∧
    ∃ code n', stmtCode s exits n = .ok (code, n') ∧ code.At prog p

theorem Stmt.AllSound.exprs {slots : Slots} {frames : List Frame} {vs : List Local} {es : List Expr}
    (h : Expr.AllSound vs es) : Stmt.AllSound slots frames vs (es.map .expr) := by
  induction es with
  | nil => trivial
  | cons e es ih => exact ⟨h.1, ih h.2⟩

section Spots

variable {prog : Listing} {σ τ : Spot}

/-- What is inside a good spot is one. -/
theorem Spot.Within.good (h : Within τ σ) (hσ : σ.Good prog) : τ.Good prog := by
  cases h with
  | inside h => exact h.good hσ
  | @updates frame init cond update body ss exits n m₁ m₂ m₃ lo i a b hi ha hb =>
    obtain ⟨⟨code, n', hcode, hsits⟩, slots, frames, vs, hvs, hexits, hs⟩ := hσ.head
    obtain ⟨i', m₁', hi', a', m₂', ha', b', m₃', hb', u, hu, rfl⟩ := for_ok.1 hcode
    cases hi.symm.trans hi'
    cases ha.symm.trans ha'
    cases hb.symm.trans hb'
    simp only [List.append_assoc, List.cons_append, List.nil_append] at hsits
    have hbody := ((stmts_behind hi hsits).skip rfl).right (.quiet (Meaning.forTest_quiet cond _ ha))
    have hupdate := (stmt_behind hb hbody).skip rfl
    rw [← stmtsCode_exprs update (loopExit frame n :: exits)] at hu
    exact ⟨⟨u, n', hu, hupdate.left (.quiet rfl)⟩, slots, _, _, holds_inSight hvs hs.2.2.1,
      .cons (loop_serves frame _ _) hexits, .exprs hs.2.2.2.2.1⟩

theorem Spot.Good.exists_within (hσ : σ.Good prog) {ss : List Stmt} (h : Portion ss σ.stmts) :
    ∃ τ : Spot, τ.Within σ ∧ τ.stmts = ss := by
  obtain ⟨stmts, exits, n, lo⟩ := σ
  cases h with
  | part h =>
    obtain ⟨τ, hτ, hstmts⟩ := hσ.exists_inside h
    exact ⟨τ, .inside hτ, hstmts⟩
  | updates =>
    obtain ⟨⟨code, n', hcode, _⟩, _⟩ := hσ.head
    obtain ⟨i, m₁, hi, a, m₂, ha, b, m₃, hb, _⟩ := for_ok.1 hcode
    exact ⟨_, .updates hi ha hb, rfl⟩

end Spots

section Program

variable {prog : Listing} {slots : Slots} {program : List Stmt} {code : Code} {n : Nat}

/-- All spots of a program are good. -/
theorem Spot.Among.good (hsound : Stmt.AllSound slots [] [] program)
    (hcode : stmtsCode program [] 0 = .ok (code, n)) (hholds : prog.Holds (code ++ [op .ret]))
    {σ : Spot} (h : σ.Among program) : σ.Good prog := by
  induction h with
  | refl => exact Spot.Of.good hsound hcode hholds .refl
  | tail _ hwithin ih => exact hwithin.good ih

/-- Every statement of a program has its code somewhere. -/
theorem Stmt.Stands.exists_startsAt (hsound : Stmt.AllSound slots [] [] program)
    (hcode : stmtsCode program [] 0 = .ok (code, n)) (hholds : prog.Holds (code ++ [op .ret]))
    {s : Stmt} (h : s.Stands program) : ∃ p, s.StartsAt prog program p := by
  have hspot : ∀ {ss}, Relation.ReflTransGen (fun outer inner => Portion inner outer) program ss →
      ∃ σ : Spot, σ.Among program ∧ σ.stmts = ss := by
    intro ss h
    induction h with
    | refl => exact ⟨_, .refl, rfl⟩
    | tail _ hportion ih =>
      obtain ⟨σ, hσ, rfl⟩ := ih
      obtain ⟨τ, hτ, hstmts⟩ := (hσ.good hsound hcode hholds).exists_within hportion
      exact ⟨τ, .tail hσ hτ, hstmts⟩
  obtain ⟨rest, h⟩ := h
  obtain ⟨⟨_, exits, k, p⟩, hσ, rfl⟩ := hspot h
  obtain ⟨⟨c, k', hc, hsits⟩, _⟩ := (hσ.good hsound hcode hholds).head
  exact ⟨p, rest, exits, k, hσ, c, k', hc, hsits.placed⟩

/-- Code that needs no labels from outside has heights. -/
theorem Levels.exists_level {lo n' h h' : Nat} {Q : (Nat → Nat) → Prop}
    (hc : Levels lo n n' (fun _ => True) Q h h' code) :
    ∃ L H, H lo = h ∧ code.Level L H lo ∧ Q H := by
  obtain ⟨ls, hs, _, hhs, hlevel⟩ := hc
  obtain ⟨f, hf⟩ := exists_takes (n + 1) ls
  obtain ⟨H, hH⟩ := exists_takes lo (hs ++ [h'])
  obtain ⟨hH, hend⟩ := takes_append hH
  refine ⟨fun l => f l.number.toNat, H, hlevel _ H hf hH trivial ?_⟩
  rw [hhs]
  exact (takes_cons hend).1

/-- The code of a sound program has heights, which are zero where statements start. -/
theorem program_levels (hsound : Stmt.AllSound slots [] [] program)
    (hcode : stmtsCode program [] 0 = .ok (code, n)) :
    ∃ L H, H 0 = 0 ∧ Level L H 0 (code ++ [op .ret]) ∧ Rests H ⟨program, [], 0, 0⟩ := by
  have hstmts := stmts_settle (List.forall_mem_nil _) hsound [] hcode (fun _ => True) 0
    fun L _ l hl => by cases hl
  have hret : Even (0 + code.size) n n (fun _ => True) 0 0 [op .ret] := .plain 0 rfl rfl nofun
  obtain ⟨L, H, hstart, hlevel, hrests, _⟩ := (hstmts.append hret).exists_level
  exact ⟨L, H, hstart, hlevel, hrests⟩

end Program

end Checked

/-- An exception is caught at an instruction, where the height is one. -/
theorem Leveled.entered {prog : Listing} {L : Label → Nat} {H : Nat → Nat} {code : Code}
    (h : Leveled prog L H (code ++ [Code.op .ret])) {k : Handler} (hk : k ∈ prog.handlers) :
    ∃ p, prog.place? k.handler = some p ∧ p < prog.code.size ∧ H p = 1 := by
  rw [h.holds.handlers] at hk
  have hrange := Code.mem_ranges hk k.handler (by simp)
  obtain ⟨n, n', hlaid⟩ := h.laid
  have hplaced := hlaid.placed ((hlaid.ranges _ hrange).resolve_right List.not_mem_nil)
  -- the last instruction stands behind all labels
  rw [Code.placed_append] at hplaced
  have hcode := (List.mem_append.1 hplaced).resolve_right List.not_mem_nil
  obtain ⟨p, hp, _, hle⟩ := (Code.at_append.1 h.holds.placed).1.range hcode
  refine ⟨p, hp, ?_, ?_⟩
  · rw [h.holds.size, Code.size_append, Code.size_cons, Item.size_op]
    omega
  · rw [← h.lands (.inr hrange) hp, h.level.handler hk]

open Machine (Leads)

/-- There is one height for each instruction of an accepted text: whenever a run has come to the
instruction and is about to perform it, there are as many operands on the stack. Where a statement
starts, in any of its places, there are none, and where an exception is caught there is one. -/
theorem stack_height {file source : String} {exe : Executable}
    (h : (compile file source).result = .ok exe) :
    ∃ program, Checked.check (compile file source).stmts = .ok program ∧ ∃ height : Nat → Nat,
      (∀ limit m, Leads exe.listing limit (.start exe.slots) m → m.pc < exe.listing.code.size →
        m.stack.length = height m.pc) ∧
      (∀ s : Checked.Stmt, s.Stands program.stmts →
        ∃ p, s.StartsAt exe.listing program.stmts p) ∧
      (∀ (s : Checked.Stmt) p, s.StartsAt exe.listing program.stmts p → height p = 0) ∧
      ∀ k ∈ exe.listing.handlers, ∃ p, exe.listing.place? k.handler = some p ∧
        p < exe.listing.code.size ∧ height p = 1 := by
  obtain ⟨program, hcompiled⟩ := compile_accepted h
  obtain ⟨slots, _, hsound⟩ := hcompiled.sound
  obtain ⟨code, n, hcode, hholds⟩ := hcompiled.code
  obtain ⟨L, H, hstart, hlevel, hrests⟩ := Checked.program_levels hsound hcode
  have hlaid := (Checked.programCode_lays hsound).laid (Checked.program_ok.2 ⟨code, hcode, rfl⟩)
  have hleveled : Leveled exe.listing L H _ := ⟨hholds, ⟨0, n, hlaid⟩, hlevel⟩
  refine ⟨program, hcompiled.analyzed, H, ?_, ?_, ?_, ?_⟩
  · intro limit m hleads
    exact hleveled.run hleads fun _ => hstart.symm
  · intro s hs
    exact hs.exists_startsAt hsound hcode hholds
  · rintro s p ⟨rest, exits, k, hamong, _⟩
    exact hrests _ hamong
  · intro k hk
    exact hleveled.entered hk

theorem stack_height_retrying :
    ∃ exe, (compile "" retrying).result = .ok exe ∧
      ∃ program, Checked.check (compile "" retrying).stmts = .ok program ∧ ∃ height : Nat → Nat,
        (∀ limit m, Leads exe.listing limit (.start exe.slots) m → m.pc < exe.listing.code.size →
          m.stack.length = height m.pc) ∧
        (∀ s : Checked.Stmt, s.Stands program.stmts →
          ∃ p, s.StartsAt exe.listing program.stmts p) ∧
        (∀ (s : Checked.Stmt) p, s.StartsAt exe.listing program.stmts p → height p = 0) ∧
        ∀ k ∈ exe.listing.handlers, ∃ p, exe.listing.place? k.handler = some p ∧
          p < exe.listing.code.size ∧ height p = 1 := by
  obtain ⟨exe, h⟩ := Compilation.result_of_failure? retrying_accepted
  exact ⟨exe, h, stack_height h⟩

end Jminus
