import Jminus.Proofs.Simulation.Stmt
import Mathlib

/-!
The code of loops does what they mean.
-/
namespace Jminus.Checked.Meaning

open Code
open Machine (Memory Config Goes)

variable {n m m' pc hi start : Nat} {frame : Frame} {cond : Expr} {body : Stmt} {env : Env}
  {slots : Slots} {frames : List Frame} {vs : List Local} {update : List Expr} {w : World}
  {mem : Memory}

/-- A loop follows if its body does, round by round. -/
theorem while_follows (ih : StmtFollows n body) : StmtFollows n (.whileLoop frame cond body) := by
  intro env slots frames vs w mem m code m' pc hi fit ⟨_, hc, hs⟩ hw hagrees hgen hat hhi hguard
  obtain ⟨a, m₁, ha, b, hb, rfl⟩ := while_ok.1 hgen
  simp only [at_append, at_cons, Code.size_append, Code.size_cons, Code.size_nil, Item.size_label,
    Item.size_goto, Nat.add_zero, ← Nat.add_assoc] at hat hhi
  obtain ⟨⟨⟨⟨hstart, _⟩, hata⟩, hatb⟩, hcont, hgoto, hend, _⟩ := hat
  subst hhi
  have fit' := fit.inside (loop_serves frame (.nth (m + 3)) (.nth (m + 2)))
  have hquiet := (forms_quiet cond).cond _ _ ha
  have hconf := fit'.confined hs hb hatb
  have hfront : Guarded env.prog env.out pc (a ++ b) := by
    simpa using (hguard.left (.quiet rfl)).right (a := [.label _]) (.quiet rfl)
  refine rounds_follow (fun w hw => while_safe fit.vars hc (fun w hw => fit'.safe n hs hw) hw) ?_
    le_rfl hw hagrees
  intro w mem hw hagrees
  refine test_follows ((fit.simulates hc.1).cond hc.2 hw ha hend hata rfl hagrees)
    ((hfront.left hconf).quiet hquiet) ?_ fun _ => rfl
  intro w' mem' heq hagrees'
  have hw' := hw.keeps fit.vars ((condition_ends fit.vars hc hw).value heq).1
  refine (ih fit' hs hw' hagrees' hb hatb rfl (hfront.right (.quiet hquiet))).inLoop hend hcont
    ?_ ?_
  · exact fun w mem _ hagrees => ⟨mem, hagrees, Machine.goes_goto hgoto hstart⟩
  · exact fun w mem _ hagrees =>
      ⟨mem, hagrees, (Machine.goes_goto hgoto hstart).weaken (Nat.zero_le 1)⟩

theorem do_follows (ih : StmtFollows n body) : StmtFollows n (.doLoop frame body cond) := by
  intro env slots frames vs w mem m code m' pc hi fit ⟨_, hs, hc⟩ hw hagrees hgen hat hhi hguard
  obtain ⟨b, m₁, hb, a, ha, rfl⟩ := do_ok.1 hgen
  simp only [at_append, at_cons, Code.size_append, Code.size_cons, Code.size_nil, Item.size_label,
    Nat.add_zero, ← Nat.add_assoc] at hat hhi
  obtain ⟨⟨⟨⟨hstart, hcont, _⟩, hatb⟩, hata⟩, hend, _⟩ := hat
  subst hhi
  have fit' := fit.inside (loop_serves frame (.nth (m + 3)) (.nth (m + 2)))
  have hquiet := (forms_quiet cond).cond _ _ ha
  have hconf := fit'.confined hs hb hatb
  have hfront : Guarded env.prog env.out pc (b ++ a) := by
    simpa using (hguard.left (.quiet rfl)).right (a := [.label _, .label _]) (.quiet rfl)
  refine rounds_follow (fun w hw => do_safe fit.vars hc (fun w hw => fit'.safe n hs hw) hw) ?_
    le_rfl hw hagrees
  intro w mem hw hagrees
  refine (ih fit' hs hw hagrees hb hatb rfl (hfront.left (.quiet hquiet))).inLoop hend hcont
    ?_ ?_
  · intro w' mem' heq hagrees'
    have hsafe := fit'.safe n hs hw
    rw [heq] at hsafe
    have hw' := hw.keeps fit.vars hsafe.1
    refine test_follows ((fit.simulates hc.1).cond hc.2 hw' ha hstart hata rfl hagrees')
      ((hfront.right hconf).quiet hquiet) ?_ fun _ => rfl
    exact fun w mem _ hagrees => ⟨mem, hagrees, .refl _ _⟩
  · exact fun w mem _ hagrees => ⟨mem, hagrees, .refl _ _⟩

/-- Declarations and expressions do not jump, so their code does not look at the exits. -/
theorem stmtsCode_of_simple {ss : List Stmt} (h : ss.all Stmt.isSimple = true)
    (exits exits' : Exits) : stmtsCode ss exits = stmtsCode ss exits' := by
  induction ss with
  | nil => rfl
  | cons s ss ih =>
    rw [List.all_cons, Bool.and_eq_true] at h
    have hs : stmtCode s exits = stmtCode s exits' := by
      cases s with
      | expr => rfl
      | var v init => cases init <;> rfl
      | _ => cases h.1
    rw [stmtsCode, stmtsCode, hs, ih h.2]

/-- Between two rounds the updates are run. -/
theorem advance_follows (fit : env.Fits slots frames vs) (hu : Expr.AllSound vs update)
    (hw : w.Typed vs) (hagrees : env.Agrees w mem) {u : Code} {again : Label}
    (hgen : Checked.effects update m = .ok (u, m')) (hat : u.At env.prog pc)
    (hguard : Guarded env.prog env.out pc u) (hgoto : (goto again).At env.prog (pc + u.size))
    (hagain : env.prog.place? again = some start) :
    (advance update w).Follows env n 1 start hi ⟨pc, [], mem⟩ := by
  have hfollows := effects_follow fit hu hw hagrees hgen hat rfl
  simp only [advance]
  rcases heq : effects update w with _ | ⟨x | _, w'⟩
  · trivial
  · rw [heq] at hfollows
    obtain ⟨mem', hagrees', hthrows⟩ := hfollows
    exact ⟨mem', hagrees', hthrows.raises fun p =>
      hguard.quiet (effects_quiet update hgen) p _⟩
  · rw [heq] at hfollows
    obtain ⟨mem', hagrees', hgoes⟩ := hfollows
    exact ⟨mem', hagrees', (hgoes.trans (Machine.goes_goto hgoto hagain)).weaken (by omega)⟩

theorem testOr_follows (fit : env.Fits slots frames vs) {cond : Option Expr}
    (hc : ∀ c ∈ cond, c.Condition vs) (hw : w.Typed vs) (hagrees : env.Agrees w mem) {a : Code}
    {out : Label} (hgen : forTest cond out m = .ok (a, m')) (hat : a.At env.prog pc)
    (hguard : Guarded env.prog env.out pc a) (hout : env.prog.place? out = some hi)
    {yes : World → Round} (hyes : ∀ w mem, w.Typed vs → env.Agrees w mem →
      (yes w).Follows env n 1 start hi ⟨pc + a.size, [], mem⟩) :
    (testOr cond yes w).Follows env n 1 start hi ⟨pc, [], mem⟩ := by
  cases cond with
  | none =>
    cases hgen
    exact hyes w mem hw hagrees
  | some c =>
    have hcond := hc c rfl
    refine test_follows ((fit.simulates hcond.1).cond hcond.2 hw hgen hout hat rfl hagrees)
      (hguard.quiet ((forms_quiet c).cond _ _ hgen)) ?_ fun _ => rfl
    intro w' mem' heq hagrees'
    exact hyes w' mem'
      (hw.keeps fit.vars ((condition_ends fit.vars hcond hw).value heq).1) hagrees'

theorem forTest_quiet (cond : Option Expr) (out : Label) : Quiet (forTest cond out) := by
  cases cond with
  | none => exact .pure rfl
  | some c => exact (forms_quiet c).cond out false

/-- What a for loop declares stays in its slots for all rounds. -/
theorem for_follows {init : List Stmt} {cond : Option Expr} (ihi : StmtsFollow n init)
    (ih : StmtFollows n body) : StmtFollows n (.forLoop frame init cond update body) := by
  intro env slots frames vs w mem m code m' pc hi fit ⟨_, hsimple, hi', hc, hu, hs⟩ hw hagrees hgen
    hat hhi hguard
  obtain ⟨i, m₁, hgi, a, m₂, ha, b, m₃, hb, u, hgu, rfl⟩ := for_ok.1 hgen
  simp only [at_append, at_cons, Code.size_append, Code.size_cons, Code.size_nil, Item.size_label,
    Item.size_goto, Nat.add_zero, ← Nat.add_assoc] at hat hhi
  obtain ⟨⟨⟨⟨⟨⟨hati, hstart, _⟩, hata⟩, hatb⟩, hcont, _⟩, hatu⟩, hgoto, hend, _⟩ := hat
  subst hhi
  rw [stmtsCode_of_simple hsimple _ env.exits] at hgi
  have hinit : Stmt.AllSound slots frames vs init := .of_simple hsimple hi'
  have fit₁ := fit.with_vars (holds_inSight fit.vars (fit.sounds hinit))
  have fit₂ := fit₁.inside (loop_serves frame (.nth (m + 3)) (.nth (m + 2)))
  have hqa := forTest_quiet cond _ ha
  have hconfi := fit.confineds hinit hgi hati
  have hconfb : Confined env.prog (pc + i.size + a.size) b := fit₂.confined hs hb hatb
  have hconfa : Confined env.prog pc (i ++ [.label (.nth (m + 1))] ++ a) :=
    (hconfi.append (.quiet rfl)).append (.quiet hqa)
  have g₁ := hguard.left (.quiet rfl)
  have g₂ := (g₁.left (.quiet (effects_quiet update hgu))).left (.quiet rfl)
  have g₃ := g₂.left (by simpa [Nat.add_assoc] using hconfb)
  have ga : Guarded env.prog env.out (pc + i.size) a := by
    simpa using g₃.right (hconfi.append (.quiet rfl))
  have gb : Guarded env.prog env.out (pc + i.size + a.size) b := by
    simpa [Nat.add_assoc] using g₂.right hconfa
  have gu : Guarded env.prog env.out (pc + i.size + a.size + b.size) u := by
    simpa [Nat.add_assoc] using
      g₁.right ((hconfa.append (by simpa [Nat.add_assoc] using hconfb)).append (.quiet rfl))
  refine .andThen (ihi fit hinit hw hagrees hgi hati rfl ((g₃.left (.quiet hqa)).left (.quiet rfl)))
    ?_
  intro w₀ mem₀ heq₀ hagrees₀
  have hsafe₀ := fit.safes n hinit hw
  rw [heq₀] at hsafe₀
  refine rounds_follow (fun w hw => for_safe fit₁.vars hc hu (fun w hw => fit₂.safe n hs hw) hw) ?_
    le_rfl (hsafe₀.2.2 rfl) hagrees₀
  intro w₁ mem₁ hw₁ hagrees₁
  refine testOr_follows fit₁ hc hw₁ hagrees₁ ha hata ga hend ?_
  intro w₂ mem₂ hw₂ hagrees₂
  have hnext : ∀ w₃ mem₃ c, exec n body w₂ = .done c w₃ → env.Agrees w₃ mem₃ →
      (advance update w₃).Follows env n 1 (pc + i.size)
        (pc + i.size + a.size + b.size + u.size + 1)
        ⟨pc + i.size + a.size + b.size, [], mem₃⟩ := by
    intro w₃ mem₃ c heq hagrees₃
    have hsafe := fit₂.safe n hs hw₂
    rw [heq] at hsafe
    exact advance_follows fit₁ hu (hw₂.keeps fit₁.vars hsafe.1) hagrees₃ hgu hatu gu hgoto hstart
  refine (ih fit₂ hs hw₂ hagrees₂ hb hatb rfl gb).inLoop hend hcont
    (fun w₃ mem₃ heq => hnext w₃ mem₃ _ heq) ?_
  exact fun w₃ mem₃ heq hagrees₃ => (hnext w₃ mem₃ _ heq hagrees₃).weaken (Nat.zero_le 1)

end Jminus.Checked.Meaning
