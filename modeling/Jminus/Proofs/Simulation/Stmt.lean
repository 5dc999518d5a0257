import Jminus.Proofs.Layout.Stmt
import Jminus.Proofs.Simulation.Result
import Mathlib

/-!
The code of statements does what the statements mean.
-/
namespace Jminus.Checked.Meaning

open Code
open Machine (Memory Config Goes Throws Runs)

variable {env : Env} {slots : Slots} {frames : List Frame} {vs : List Local} {w : World}

/-- Code is run where its variables have their slots and its jumps their exits. What is kept for
later is in slots that are no variable's, behind those that the code is given. -/
structure Env.Fits (env : Env) (slots : Slots) (frames : List Frame) (vs : List Local) : Prop where
  resolved : env.prog.Resolved
  below : slots <+: env.slots
  vars : ∀ v ∈ vs, env.slots.Holds v
  exits : env.exits.Serve frames
  held : ∀ p ∈ env.held, slots.length ≤ p.1 ∧ env.slots[p.1]? = some none

namespace Env.Fits

/-- Nothing is kept for later in the slot of a variable. -/
theorem free (h : env.Fits slots frames vs) {v : Local} (hv : env.slots.Holds v) :
    ∀ p ∈ env.held, p.1 ≠ v.slot := by
  intro p hp heq
  have hslot := (h.held p hp).2
  rw [heq, hv.1] at hslot
  cases hslot

/-- Sound expressions do what they mean here. -/
theorem simulates (h : env.Fits slots frames vs) {e : Expr} (he : e.Sound vs) :
    Simulates env.prog env.slots env.held vs e :=
  forms_simulate h.vars (fun v hv => h.free (h.vars v hv)) he

theorem with_vars (h : env.Fits slots frames vs) {us : List Local}
    (hus : ∀ v ∈ us, env.slots.Holds v) : env.Fits slots frames us := { h with vars := hus }

theorem inside (h : env.Fits slots frames vs) {e : Exit} {f : Frame} (hserves : e.Serves f) :
    (env.inside e).Fits slots (f :: frames) vs :=
  { h with exits := .cons hserves h.exits }

variable {s : Stmt} {ss : List Stmt} {m m' pc : Nat} {code : Code}

/-- What is sound with fewer slots is sound with those around it. -/
theorem sound (h : env.Fits slots frames vs) (hs : s.Sound slots frames vs) :
    s.Sound env.slots frames vs := hs.mono h.below (.refl frames)

theorem sounds (h : env.Fits slots frames vs) (hs : Stmt.AllSound slots frames vs ss) :
    Stmt.AllSound env.slots frames vs ss :=
  hs.mono h.below (.refl frames)

theorem safe (h : env.Fits slots frames vs) (n : Nat) (hs : s.Sound slots frames vs)
    (hw : w.Typed vs) : (exec n s w).Safe env.slots frames (s.declares ++ vs) w :=
  exec_safe n h.vars (h.sound hs) hw

theorem safes (h : env.Fits slots frames vs) (n : Nat) (hs : Stmt.AllSound slots frames vs ss)
    (hw : w.Typed vs) : (execs n ss w).Safe env.slots frames (Stmt.inSight vs ss) w :=
  execs_safe n h.vars (h.sounds hs) hw

theorem confined (h : env.Fits slots frames vs) (hs : s.Sound slots frames vs)
    (hgen : stmtCode s env.exits m = .ok (code, m')) (hat : code.At env.prog pc) :
    Confined env.prog pc code :=
  (stmtCode_lays h.vars h.exits (h.sound hs)).confined hgen hat

theorem confineds (h : env.Fits slots frames vs) (hs : Stmt.AllSound slots frames vs ss)
    (hgen : stmtsCode ss env.exits m = .ok (code, m')) (hat : code.At env.prog pc) :
    Confined env.prog pc code :=
  (stmtsCode_lays h.vars h.exits (h.sounds hs)).confined hgen hat

end Env.Fits

/-- The code of a statement does what the statement means, each loop in it for less than `n`
rounds. -/
def StmtFollows (n : Nat) (s : Stmt) : Prop :=
  ∀ ⦃env slots frames vs w mem m code m' pc hi⦄, Env.Fits env slots frames vs →
    s.Sound slots frames vs → World.Typed vs w → env.Agrees w mem →
    stmtCode s env.exits m = .ok (code, m') → code.At env.prog pc → hi = pc + code.size →
    Guarded env.prog env.out pc code → (exec n s w).Follows env n hi ⟨pc, [], mem⟩

def StmtsFollow (n : Nat) (ss : List Stmt) : Prop :=
  ∀ ⦃env slots frames vs w mem m code m' pc hi⦄, Env.Fits env slots frames vs →
    Stmt.AllSound slots frames vs ss → World.Typed vs w → env.Agrees w mem →
    stmtsCode ss env.exits m = .ok (code, m') → code.At env.prog pc → hi = pc + code.size →
    Guarded env.prog env.out pc code → (execs n ss w).Follows env n hi ⟨pc, [], mem⟩

section Expressions

variable {m m' pc hi : Nat} {code : Code} {mem : Memory}

/-- An expression leaves nothing on the stack. -/
theorem effect_follows (fit : env.Fits slots frames vs) {e : Expr} (he : e.Sound vs)
    (hw : w.Typed vs) (hagrees : env.Agrees w mem) (hgen : effect e m = .ok (code, m'))
    (hat : code.At env.prog pc) (hhi : hi = pc + code.size) :
    Follows env.prog env.slots env.held pc hi ⟨pc, [], mem⟩ (eval e w) (fun _ => 0)
      fun _ mem' => ⟨hi, [], mem'⟩ := by
  obtain ⟨c, hc, rfl⟩ := effect_ok.1 hgen
  have hends := eval_ends fit.vars he hw
  have hpushes := (fit.simulates he).value hw
  by_cases hvoid : e.type = .void
  · rw [if_pos hvoid] at hat hhi
    refine .before hends (hpushes hc hat hhi hagrees) fun d mem' hd => ?_
    rw [hvoid] at hd
    cases d with
    | void => exact .refl _ _
    | _ => cases hd
  · rw [if_neg hvoid] at hat hhi
    obtain ⟨hat, hpop, _⟩ := at_append.1 hat
    obtain rfl : hi = pc + c.size + 1 := by simpa [Nat.add_assoc] using hhi
    refine .before hends ((hpushes hc hat rfl hagrees).widen le_rfl (by omega)) fun d mem' hd => ?_
    rw [hd.pushed hvoid]
    exact (Machine.goes_pop hpop).weaken (Nat.zero_le 1)

theorem effects_follow (fit : env.Fits slots frames vs) {es : List Expr}
    (hes : Expr.AllSound vs es) (hw : w.Typed vs) (hagrees : env.Agrees w mem)
    (hgen : Checked.effects es m = .ok (code, m')) (hat : code.At env.prog pc)
    (hhi : hi = pc + code.size) :
    Follows env.prog env.slots env.held pc hi ⟨pc, [], mem⟩ (effects es w) (fun _ => 0)
      fun _ mem' => ⟨hi, [], mem'⟩ := by
  induction es generalizing w m code pc mem with
  | nil =>
    cases hgen
    subst hhi
    exact .pure hagrees (.refl _ _)
  | cons e es ih =>
    obtain ⟨a, m₁, ha, b, hb, rfl⟩ := effects_cons_ok.1 hgen
    obtain ⟨hata, hatb⟩ := at_append.1 hat
    rw [Code.size_append, ← Nat.add_assoc] at hhi
    refine .bind (eval_ends fit.vars hes.1 hw)
      ((effect_follows fit hes.1 hw hagrees ha hata rfl).widen le_rfl (by omega)) ?_
    intro d w' mem' _ hkeeps hagrees'
    exact (ih hes.2 (hw.keeps fit.vars hkeeps) hagrees' hb hatb hhi).widen (by omega) le_rfl

end Expressions

section Simple

theorem expr_follows (n : Nat) (e : Expr) : StmtFollows n (.expr e) := by
  intro env slots frames vs w mem m code m' pc hi fit hs hw hagrees hgen hat hhi hguard
  subst hhi
  refine .withValue (effect_follows fit hs hw hagrees hgen hat rfl)
    (hguard.quiet (effect_quiet e hgen)) ?_
  exact fun d w' mem' _ hagrees' => ⟨mem', hagrees', .refl _ _⟩

variable {prog : Listing} {pc : Nat}

/-- A variable without a value gets zero. -/
theorem zero_goes {t : Ty} {stack : List Value} {mem : Memory} (hat : (Checked.zero t).At prog pc) :
    Goes prog 1 ⟨pc, stack, mem⟩ ⟨pc + 1, (zero t).value :: stack, mem⟩ := by
  cases t with
  | int | long | double | boolean | char => exact Machine.goes_ldc hat
  | _ => exact Machine.goes_null hat

theorem declare_follows (n : Nat) (v : Local) : StmtFollows n (.var v none) := by
  intro env slots frames vs w mem m code m' pc hi fit hv _ hagrees hgen hat hhi _
  have hv' := Slots.Holds.mono hv fit.below
  cases hgen
  obtain ⟨hzero, hstore, _⟩ := hat
  rw [(zero_ordinary v.type).size] at hstore
  obtain rfl : hi = pc + 1 + 1 := by simpa [(zero_ordinary v.type).size] using hhi
  refine ⟨_, hagrees.set hv' (fit.free hv') _, ?_⟩
  exact ((zero_goes hzero).trans (Machine.goes_store hstore (hagrees.lt_size hv'.1))).weaken
    (Nat.zero_le _)

theorem initialize_follows (n : Nat) (v : Local) (init : Expr) :
    StmtFollows n (.var v (some init)) := by
  intro env slots frames vs w mem m code m' pc hi fit ⟨hv, hinit, hassign⟩ hw hagrees hgen hat
    hhi hguard
  obtain ⟨c, hc, rfl⟩ := var_ok.1 hgen
  obtain ⟨hat, hstore, _⟩ := at_append.1 hat
  obtain rfl : hi = pc + c.size + 1 := by simpa [Nat.add_assoc] using hhi
  have hv' := hv.mono fit.below
  have hpart := (hguard.left (.quiet rfl)).quiet ((forms_quiet init).value hc)
  refine .withValue ((fit.simulates hinit).value hw hc hat rfl hagrees) hpart ?_
  intro d w' mem' heq hagrees'
  have hd := ((eval_ends fit.vars hinit hw).value heq).2.assignable hassign
    (hinit.type_ne_any (storable_of_holds fit.vars)) (ne_any_of_storable hv.2)
  refine ⟨_, hagrees'.set hv' (fit.free hv') d, ?_⟩
  rw [hd.pushed (ne_void_of_storable hv.2)]
  exact (Machine.goes_store hstore (hagrees'.lt_size hv'.1)).weaken (Nat.zero_le 1)

theorem throw_follows (n : Nat) (value : Expr) : StmtFollows n (.throw value) := by
  intro env slots frames vs w mem m code m' pc hi fit ⟨hv, ht⟩ hw hagrees hgen hat hhi hguard
  obtain ⟨c, hc, rfl⟩ := throw_code_ok.1 hgen
  obtain ⟨hat, hthrow, _⟩ := at_append.1 hat
  have hquiet := (forms_quiet value).value hc
  have hout : ∀ p cls, pc + c.size ≤ p → p < pc + c.size + 1 →
      env.prog.handler? env.prog.handlers cls p = env.out cls := by
    intro p cls hlo hp
    exact (hguard.right (.quiet hquiet)).quiet rfl p cls hlo hp
  refine .withValue ((fit.simulates hv).value hw hc hat rfl hagrees)
    ((hguard.left (.quiet rfl)).quiet hquiet) ?_
  intro d w' mem' heq hagrees'
  rcases ((eval_ends fit.vars hv hw).value heq).2.thrown ht with rfl | ⟨id, cls, rfl, _⟩
  · refine ⟨_, hagrees'.create, ?_⟩
    have hthrows : Raises env.prog env.out ⟨pc + c.size, [.null], mem'⟩ _ _ :=
      (Machine.throws_null hthrow).raises fun p => hout p _
    rw [hagrees'.made] at hthrows ⊢
    exact hthrows
  · have hthrows : Raises env.prog env.out
        ⟨pc + c.size, [(Raised.thrown ⟨id, cls⟩).value], mem'⟩ (Raised.thrown ⟨id, cls⟩) mem' :=
      (Machine.throws_object hthrow).raises fun p => hout p _
    exact ⟨mem', hagrees', hthrows⟩

/-- A jump in a listing has a place to go to. -/
theorem goto_place (hres : prog.Resolved) {l : Label} (hat : (goto l).At prog pc) :
    ∃ q, prog.place? l = some q :=
  Listing.exists_place? (hres.code _ (Array.mem_of_getElem? hat) l (by simp [Instruction.labels]))

/-- A break goes to the exit of its frame. -/
theorem brk_follows (n line : Nat) (target : Option Nat) : StmtFollows n (.brk line target) := by
  intro env slots frames vs w mem m code m' pc hi fit ⟨f, hf, hbrk⟩ _ hagrees hgen hat _ _
  obtain ⟨e, he, hserves, _⟩ := fit.exits.ofFrame? hf
  obtain ⟨l, hl⟩ := Option.isSome_iff_exists.1 (hserves.brk hbrk)
  cases target with
  | none => cases hf
  | some id =>
    obtain ⟨rfl, _⟩ : code = [goto l] ∧ m' = m := by simpa [stmtCode, he, hl, pure_ok] using hgen
    obtain ⟨q, hq⟩ := goto_place fit.resolved hat.1
    exact ⟨mem, hagrees, l, q, by rw [he]; exact hl, hq, Machine.goes_goto hat.1 hq⟩

theorem cont_follows (n line : Nat) (target : Option Nat) : StmtFollows n (.cont line target) := by
  intro env slots frames vs w mem m code m' pc hi fit ⟨f, hf, hloop⟩ _ hagrees hgen hat _ _
  obtain ⟨e, he, hserves, _⟩ := fit.exits.ofFrame? hf
  obtain ⟨l, hl⟩ := Option.isSome_iff_exists.1 (hserves.cont hloop)
  cases target with
  | none => cases hf
  | some id =>
    obtain ⟨rfl, _⟩ : code = [goto l] ∧ m' = m := by simpa [stmtCode, he, hl, pure_ok] using hgen
    obtain ⟨q, hq⟩ := goto_place fit.resolved hat.1
    exact ⟨mem, hagrees, l, q, by rw [he]; exact hl, hq, Machine.goes_goto hat.1 hq⟩

/-- A return goes to the end of the program. -/
theorem ret_follows (n : Nat) : StmtFollows n .ret := by
  intro env slots frames vs w mem m code m' pc hi _ _ _ hagrees hgen hat _ _
  cases hgen
  exact ⟨mem, hagrees, (Machine.goes_ret hat.1).weaken (Nat.zero_le 1)⟩

theorem empty_follows (n : Nat) : StmtFollows n .empty := by
  intro env slots frames vs w mem m code m' pc hi _ _ _ hagrees hgen _ hhi _
  cases hgen
  subst hhi
  exact ⟨mem, hagrees, .refl _ _⟩

end Simple

theorem nil_follow (n : Nat) : StmtsFollow n [] := by
  intro env slots frames vs w mem m code m' pc hi _ _ _ hagrees hgen _ hhi _
  cases hgen
  subst hhi
  exact ⟨mem, hagrees, .refl _ _⟩

variable {n : Nat} {cond : Expr} {thenBranch : Stmt}

/-- Statements follow one behind the other. -/
theorem cons_follow {s : Stmt} {ss : List Stmt} (ihs : StmtFollows n s) (ihss : StmtsFollow n ss) :
    StmtsFollow n (s :: ss) := by
  intro env slots frames vs w mem m code m' pc hi fit ⟨hs, hss⟩ hw hagrees hgen hat hhi hguard
  obtain ⟨a, m₁, ha, b, hb, rfl⟩ := stmts_cons_ok.1 hgen
  obtain ⟨hata, hatb⟩ := at_append.1 hat
  rw [Code.size_append, ← Nat.add_assoc] at hhi
  have fit' := fit.with_vars (holds_declares fit.vars (fit.sound hs))
  refine .andThen (ihs fit hs hw hagrees ha hata rfl (hguard.left (fit'.confineds hss hb hatb))) ?_
  intro w' mem' heq hagrees'
  have hsafe := fit.safe n hs hw
  rw [heq] at hsafe
  exact ihss fit' hss (hsafe.2.2 rfl) hagrees' hb hatb hhi (hguard.right (fit.confined hs ha hata))

theorem block_follows {body : List Stmt} (ih : StmtsFollow n body) :
    StmtFollows n (.block body) := ih

theorem if_follows (ih : StmtFollows n thenBranch) :
    StmtFollows n (.ifElse cond thenBranch none) := by
  intro env slots frames vs w mem m code m' pc hi fit ⟨hc, ht⟩ hw hagrees hgen hat hhi hguard
  obtain ⟨a, m₁, ha, b, hb, rfl⟩ := if_ok.1 hgen
  simp only [at_append, at_cons, Code.size_append, Code.size_cons, Code.size_nil, Item.size_label,
    Nat.add_zero, ← Nat.add_assoc] at hat hhi
  obtain ⟨⟨hata, hatb⟩, hend, _⟩ := hat
  subst hhi
  have hfront := hguard.left (.quiet rfl)
  have hquiet := (forms_quiet cond).cond _ _ ha
  refine .withValue ((fit.simulates hc.1).cond hc.2 hw ha hend hata rfl hagrees)
    ((hfront.left (fit.confined ht hb hatb)).quiet hquiet) ?_
  intro p w' mem' heq hagrees'
  have hkeeps := ((condition_ends fit.vars hc hw).value heq).1
  cases p with
  | true =>
    exact ih fit ht (hw.keeps fit.vars hkeeps) hagrees' hb hatb rfl
      (hfront.right (.quiet hquiet))
  | false => exact ⟨mem', hagrees', .refl _ _⟩

theorem ifElse_follows {elseBranch : Stmt} (iht : StmtFollows n thenBranch)
    (ihe : StmtFollows n elseBranch) :
    StmtFollows n (.ifElse cond thenBranch (some elseBranch)) := by
  intro env slots frames vs w mem m code m' pc hi fit ⟨hc, ht, he⟩ hw hagrees hgen hat hhi hguard
  obtain ⟨a, m₁, ha, b, m₂, hb, c, hc', rfl⟩ := ifElse_ok.1 hgen
  simp only [at_append, at_cons, Code.size_append, Code.size_cons, Code.size_nil, Item.size_label,
    Item.size_goto, Nat.add_zero, ← Nat.add_assoc] at hat hhi
  obtain ⟨⟨⟨⟨hata, hatb⟩, hgoto, helse, _⟩, hatc⟩, hend, _⟩ := hat
  subst hhi
  have hquiet := (forms_quiet cond).cond _ _ ha
  have hconft := fit.confined ht hb hatb
  have hfront := hguard.left (.quiet rfl)
  have hthen : Guarded env.prog env.out pc (a ++ b) :=
    (hfront.left (by simpa [Nat.add_assoc] using fit.confined he hc' hatc)).left (.quiet rfl)
  have helse' : Guarded env.prog env.out (pc + a.size + b.size + 1) c := by
    simpa [Nat.add_assoc] using hfront.right (((Confined.quiet hquiet).append hconft).append
      (.quiet rfl))
  refine .withValue ((fit.simulates hc.1).cond hc.2 hw ha helse hata rfl hagrees)
    ((hthen.left hconft).quiet hquiet) ?_
  intro p w' mem' heq hagrees'
  have hw' := hw.keeps fit.vars ((condition_ends fit.vars hc hw).value heq).1
  cases p with
  | true =>
    have hbranch := iht fit ht hw' hagrees' hb hatb rfl (hthen.right (.quiet hquiet))
    exact hbranch.before fun mem => Machine.goes_goto hgoto hend
  | false => exact ihe fit he hw' hagrees' hc' hatc rfl helse'

end Jminus.Checked.Meaning
