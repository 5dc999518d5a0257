import Jminus.Proofs.Height.Expr
import Jminus.Proofs.Spots
import Mathlib

/-!
Heights for the code of sound statements.

A statement starts and ends with an empty stack, and so does every statement inside it. All its labels
stand where the stack is empty, but for those of its handlers, which find an exception there.
-/
namespace Jminus.Checked

open Code

/-- A spot directly inside another, where the updates of a for loop are statements too. -/
inductive Spot.Within : Spot → Spot → Prop
  | inside {τ σ : Spot} (h : τ.Inside σ) : Within τ σ
  | updates {frame init cond update body ss exits n m₁ m₂ m₃ lo i a b} :
      stmtsCode init (loopExit frame n :: exits) (n + 3) = .ok (i, m₁) →
      forTest cond (.nth (n + 3)) m₁ = .ok (a, m₂) →
      stmtCode body (loopExit frame n :: exits) m₂ = .ok (b, m₃) →
      Within ⟨update.map .expr, loopExit frame n :: exits, m₃, lo + i.size + a.size + b.size⟩
        ⟨.forLoop frame init cond update body :: ss, exits, n, lo⟩

abbrev Spot.Among (program : List Stmt) (σ : Spot) : Prop :=
  Relation.ReflTransGen (fun outer inner => Within inner outer) ⟨program, [], 0, 0⟩ σ

/-- The updates of a for loop have the code of statements. -/
theorem stmtsCode_exprs (es : List Expr) (exits : Exits) :
    stmtsCode (es.map .expr) exits = effects es := by
  induction es with
  | nil => rw [List.map_nil, stmtsCode, effects]
  | cons e es ih => rw [List.map_cons, stmtsCode, effects, stmtCode, ih]

/-- Every statement in a spot starts where the height is zero. -/
def Rests (H : Nat → Nat) (σ : Spot) : Prop :=
  ∀ τ, Relation.ReflTransGen (fun outer inner => Spot.Within inner outer) σ τ → H τ.place = 0

theorem rests_iff {H : Nat → Nat} {σ : Spot} :
    Rests H σ ↔ H σ.place = 0 ∧ ∀ τ : Spot, τ.Within σ → Rests H τ := by
  constructor
  · intro h
    exact ⟨h σ .refl, fun τ hτ υ hυ => h υ (.head hτ hυ)⟩
  · rintro ⟨hstart, hrest⟩ τ hτ
    rcases Relation.ReflTransGen.cases_head hτ with rfl | ⟨υ, hυ, hτ⟩
    · exact hstart
    · exact hrest υ hυ τ hτ

/-- Statements start where the height is zero, if those behind them do. -/
def RestsBefore (H : Nat → Nat) (s : Stmt) (exits : Exits) (n lo n' hi : Nat) : Prop :=
  ∀ ss, Rests H ⟨ss, exits, n', hi⟩ → Rests H ⟨s :: ss, exits, n, lo⟩

section Rests

variable {H : Nat → Nat} {exits : Exits} {n n' lo : Nat} {s : Stmt} {code : Code}

/-- Nothing starts in an empty spot but what is behind it. -/
theorem rests_nil (h : H lo = 0) : Rests H ⟨[], exits, n, lo⟩ := by
  refine rests_iff.2 ⟨h, ?_⟩
  intro τ hτ
  cases hτ with
  | inside hτ => cases hτ

/-- It is enough to look at the parts of a statement. -/
theorem rests_before (hcode : stmtCode s exits n = .ok (code, n')) (hstart : H lo = 0)
    (hparts : ∀ ss (τ : Spot), τ.Within ⟨s :: ss, exits, n, lo⟩ →
      (∃ a m, stmtCode s exits n = .ok (a, m) ∧ τ = ⟨ss, exits, m, lo + a.size⟩) ∨ Rests H τ) :
    RestsBefore H s exits n lo n' (lo + code.size) := by
  intro ss hss
  refine rests_iff.2 ⟨hstart, ?_⟩
  intro τ hτ
  rcases hparts ss τ hτ with ⟨a, m, ha, rfl⟩ | hrests
  · cases hcode.symm.trans ha
    exact hss
  · exact hrests

end Rests

def Exits.Ground (L : Label → Nat) (exits : Exits) : Prop := ∀ l ∈ exits.labels, L l = 0

variable {L : Label → Nat} {s : Stmt}

theorem Exits.Ground.cons {exits : Exits} {e : Exit} (h : exits.Ground L)
    (hbrk : ∀ l ∈ e.brk, L l = 0) (hcont : ∀ l ∈ e.cont, L l = 0) :
    Exits.Ground L (e :: exits) := by
  intro l hl
  rw [Exits.labels_cons, Exit.labels, List.mem_append, List.mem_append, Option.mem_toList,
    Option.mem_toList] at hl
  rcases hl with (hl | hl) | hl
  · exact hbrk l hl
  · exact hcont l hl
  · exact h l hl

/-- A loop adds exits with an empty stack. -/
theorem Exits.Ground.loop {exits : Exits} (h : exits.Ground L) (frame : Frame) {n : Nat}
    (hbrk : L (.nth (n + 3)) = 0) (hcont : L (.nth (n + 2)) = 0) :
    Exits.Ground L (loopExit frame n :: exits) := by
  apply h.cons
  · rintro l ⟨⟩
    exact hbrk
  · rintro l ⟨⟩
    exact hcont

def Settles (s : Stmt) (exits : Exits) : Prop :=
  ∀ ⦃n code n'⦄, stmtCode s exits n = .ok (code, n') → ∀ P lo, (∀ L, P L → exits.Ground L) →
    Levels lo n n' P (fun H => RestsBefore H s exits n lo n' (lo + code.size)) 0 0 code

def AllSettle (ss : List Stmt) (exits : Exits) : Prop :=
  ∀ ⦃n code n'⦄, stmtsCode ss exits n = .ok (code, n') → ∀ P lo, (∀ L, P L → exits.Ground L) →
    Levels lo n n' P (fun H => Rests H ⟨ss, exits, n, lo⟩) 0 0 code

def Stmt.isLeaf : Stmt → Bool
  | .expr _ | .var .. | .brk .. | .cont .. | .ret | .throw _ | .empty => true
  | _ => false

/-- A statement that holds no others rests where it starts. -/
theorem Settles.leaf (hs : s.isLeaf = true) {exits : Exits}
    (h : ∀ ⦃n code n'⦄, stmtCode s exits n = .ok (code, n') → ∀ P lo,
      (∀ L, P L → exits.Ground L) → Even lo n n' P 0 0 code) : Settles s exits := by
  intro n code n' hcode P lo hP
  refine (h hcode P lo hP).mono ?_
  intro H hstart _ _
  apply rests_before hcode hstart
  intro ss τ hτ
  cases hτ with
  | inside hτ =>
    cases hτ with
    | rest ha => exact .inl ⟨_, _, ha, rfl⟩
    | _ => cases hs
  | updates => cases hs

theorem Settles.single {exits : Exits} (hs : Settles s exits) {n n' : Nat} {code : Code}
    (hcode : stmtCode s exits n = .ok (code, n')) {P : (Label → Nat) → Prop} {lo : Nat}
    (hP : ∀ L, P L → exits.Ground L) :
    Levels lo n n' P (fun H => Rests H ⟨[s], exits, n, lo⟩) 0 0 code :=
  (hs hcode P lo hP).mono fun _ _ hend hq => hq [] (rests_nil hend)

/-- Three new labels where the stack is empty. -/
theorem Levels.fresh₃ {lo n n' h h' : Nat} {P : (Label → Nat) → Prop} {Q : (Nat → Nat) → Prop}
    {code : Code} (hc : Levels lo (n + 3) n' (fun L => L (.nth (n + 3)) = 0 ∧ L (.nth (n + 2)) = 0 ∧
      L (.nth (n + 1)) = 0 ∧ P L) Q h h' code) : Levels lo n n' P Q h h' code :=
  .fresh 0 (.fresh 0 (.fresh 0 hc))

section Statements

variable {vs : List Local} {exits : Exits}

theorem condition_tests (hvs : Storable vs) {c : Expr} (hc : c.Condition vs) : Tests c.cond :=
  ((forms_even hvs hc.1).one (by rw [hc.2]; rfl)).cond rfl

variable {e cond : Expr} {thenBranch body : Stmt} {frame : Frame} {groups : List SwitchGroup}
  {cleanup : List Stmt} {start : Label}

/-- An expression that is not void leaves one operand. -/
theorem value_leaves (hvs : Storable vs) (he : e.Sound vs) (hne : e.type ≠ .void) :
    Leaves 1 e.value :=
  ((forms_even hvs he).one (Ty.width_eq_one hne)).value

theorem Settles.expr (hvs : Storable vs) (he : e.Sound vs) : Settles (.expr e) exits := by
  apply Settles.leaf rfl
  intro n code n' hcode P lo _
  obtain ⟨c, hc, rfl⟩ := effect_ok.1 hcode
  have hvalue := (forms_even hvs he).value hc P lo 0
  by_cases hvoid : e.type = .void
  · rw [hvoid] at hvalue
    rw [if_pos hvoid]
    exact hvalue
  · rw [Ty.width_eq_one hvoid] at hvalue
    rw [if_neg hvoid]
    exact hvalue.append .pop

theorem Settles.declared (v : Local) : Settles (.var v none) exits := by
  apply Settles.leaf rfl
  intro n code n' hcode P lo _
  cases pure_ok.1 hcode
  have hzero : Even lo n n P 0 1 [zero v.type] := by
    unfold zero
    split <;> exact .plain 0 rfl rfl fun _ => rfl
  exact hzero.append (.store _ _)

theorem Settles.initialized {v : Local} {init : Expr} (hinit : Leaves 1 init.value) :
    Settles (.var v (some init)) exits := by
  apply Settles.leaf rfl
  intro n code n' hcode P lo _
  obtain ⟨c, hc, rfl⟩ := var_ok.1 hcode
  exact (hinit hc P lo 0).append (.store _ _)

theorem Settles.throw {value : Expr} (hvalue : Leaves 1 value.value) :
    Settles (.throw value) exits := by
  apply Settles.leaf rfl
  intro n code n' hcode P lo _
  obtain ⟨c, hc, rfl⟩ := throw_code_ok.1 hcode
  exact (hvalue hc P lo 0).append (.plain 0 rfl rfl fun _ => rfl)

theorem Settles.brk (line : Nat) (target : Option Nat) : Settles (.brk line target) exits := by
  apply Settles.leaf rfl
  intro n code n' hcode P lo hP
  obtain ⟨l, hl, rfl, rfl⟩ := brk_ok.1 hcode
  obtain ⟨e, he, hl⟩ := Option.bind_eq_some_iff.1 hl
  exact .goto fun L hp => hP L hp l (Exits.brk_mem_labels (Exits.ofFrame?_mem he) hl)

theorem Settles.cont (line : Nat) (target : Option Nat) : Settles (.cont line target) exits := by
  apply Settles.leaf rfl
  intro n code n' hcode P lo hP
  obtain ⟨l, hl, rfl, rfl⟩ := cont_ok.1 hcode
  obtain ⟨e, he, hl⟩ := Option.bind_eq_some_iff.1 hl
  exact .goto fun L hp => hP L hp l (Exits.cont_mem_labels (Exits.ofFrame?_mem he) hl)

theorem Settles.ret : Settles .ret exits := by
  apply Settles.leaf rfl
  intro n code n' hcode P lo _
  cases pure_ok.1 hcode
  exact .plain 0 rfl rfl fun _ => rfl

theorem Settles.empty : Settles .empty exits := by
  apply Settles.leaf rfl
  intro n code n' hcode P lo _
  cases pure_ok.1 hcode
  exact .nil

theorem AllSettle.nil : AllSettle [] exits := by
  intro n code n' hcode P lo _
  cases pure_ok.1 hcode
  exact Even.nil.mono fun _ hstart _ _ => rests_nil hstart

/-- Statements settle one behind the other. -/
theorem AllSettle.cons {s : Stmt} {ss : List Stmt} (hs : Settles s exits)
    (hss : AllSettle ss exits) : AllSettle (s :: ss) exits := by
  intro n code n' hcode P lo hP
  obtain ⟨a, m, ha, b, hb, rfl⟩ := stmts_cons_ok.1 hcode
  exact ((hs ha P lo hP).append (hss hb P _ hP)).mono fun _ _ _ hq => hq.1 ss hq.2

theorem AllSettle.exprs (hvs : Storable vs) {es : List Expr} (hes : Expr.AllSound vs es) :
    AllSettle (es.map .expr) exits := by
  induction es with
  | nil => exact .nil
  | cons e es ih => exact .cons (.expr hvs hes.1) (ih hes.2)

theorem Settles.block {body : List Stmt} (hbody : AllSettle body exits) :
    Settles (.block body) exits := by
  intro n code n' hcode P lo hP
  have hcode' : stmtsCode body exits n = .ok (code, n') := hcode
  refine (hbody hcode' P lo hP).mono ?_
  intro H hstart _ hrests
  apply rests_before hcode hstart
  intro ss τ hτ
  cases hτ with
  | inside hτ =>
    cases hτ with
    | rest ha => exact .inl ⟨_, _, ha, rfl⟩
    | block => exact .inr hrests

/-- Both ways through a branch settle. -/
theorem Settles.ifThen (hcond : Tests cond.cond) (hthen : Settles thenBranch exits) :
    Settles (.ifElse cond thenBranch none) exits := by
  intro n code n' hcode P lo hP
  obtain ⟨a, m, ha, b, hb, rfl⟩ := if_ok.1 hcode
  apply Levels.fresh 0
  refine Levels.mono (.append (.append
    (hcond _ _ ha _ _ _ fun L hp => hp.1)
    (hthen.single hb fun L hp => hP L hp.2))
    (Even.label fun L hp => hp.1)) ?_
  rintro H hstart _ ⟨⟨_, hrests⟩, _⟩
  apply rests_before hcode hstart
  intro ss τ hτ
  cases hτ with
  | inside hτ =>
    cases hτ with
    | rest ha' => exact .inl ⟨_, _, ha', rfl⟩
    | thenBranch ha' =>
      cases ha.symm.trans ha'
      exact .inr hrests

theorem Settles.ifElse {elseBranch : Stmt} (hcond : Tests cond.cond)
    (hthen : Settles thenBranch exits) (helse : Settles elseBranch exits) :
    Settles (.ifElse cond thenBranch (some elseBranch)) exits := by
  intro n code n' hcode P lo hP
  obtain ⟨a, m, ha, b, m', hb, c, hc, rfl⟩ := ifElse_ok.1 hcode
  apply Levels.fresh 0
  -- the label behind the statement is made after those of the first branch
  have hrest : Levels (lo + Code.size (a ++ b)) m' n' (fun L => L (.nth (n + 1)) = 0 ∧ P L)
      (fun H => Rests H ⟨[elseBranch], exits, m' + 1, lo + a.size + b.size + 1⟩) 0 0
      ([goto (.nth (m' + 1)), .label (.nth (n + 1))] ++ c ++ [.label (.nth (m' + 1))]) := by
    apply Levels.fresh 0
    refine Levels.mono (.append (.append
      (Even.cons (.goto fun L hp => hp.1) (.label fun L hp => hp.2.1))
      (helse.single hc fun L hp => hP L hp.2.2))
      (Even.label fun L hp => hp.1)) ?_
    rintro H _ _ ⟨⟨_, hrests⟩, _⟩
    simpa [Nat.add_assoc] using hrests
  have hall := Levels.append (Levels.append
    (hcond _ _ ha (fun L => L (.nth (n + 1)) = 0 ∧ P L) lo 0 fun L hp => hp.1)
    (hthen.single hb fun L hp => hP L hp.2)) hrest
  simp only [← List.append_assoc] at hall
  refine hall.mono ?_
  rintro H hstart _ ⟨⟨_, hthen⟩, helse⟩
  apply rests_before hcode hstart
  intro ss τ hτ
  cases hτ with
  | inside hτ =>
    cases hτ with
    | rest ha' => exact .inl ⟨_, _, ha', rfl⟩
    | thenBranch ha' =>
      cases ha.symm.trans ha'
      exact .inr hthen
    | elseBranch ha' hb' =>
      cases ha.symm.trans ha'
      cases hb.symm.trans hb'
      exact .inr helse

/-- The labels of a loop stand where the stack is empty. -/
theorem Settles.whileLoop (hcond : Tests cond.cond) (hbody : ∀ exits, Settles body exits) :
    Settles (.whileLoop frame cond body) exits := by
  intro n code n' hcode P lo hP
  obtain ⟨a, m, ha, b, hb, rfl⟩ := while_ok.1 hcode
  apply Levels.fresh₃
  refine Levels.mono (.append (.append (.append
    (Even.label fun L hp => hp.2.2.1)
    (hcond _ _ ha _ _ _ fun L hp => hp.1))
    ((hbody _).single hb fun L hp => (hP L hp.2.2.2).loop frame hp.1 hp.2.1))
    (Even.cons (.label fun L hp => hp.2.1) (.cons (.goto fun L hp => hp.2.2.1)
      (.label fun L hp => hp.1)))) ?_
  rintro H hstart _ ⟨⟨_, hrests⟩, _⟩
  apply rests_before hcode hstart
  intro ss τ hτ
  cases hτ with
  | inside hτ =>
    cases hτ with
    | rest ha' => exact .inl ⟨_, _, ha', rfl⟩
    | whileBody ha' =>
      cases ha.symm.trans ha'
      exact .inr (by simpa using hrests)

theorem Settles.doLoop (hcond : Tests cond.cond) (hbody : ∀ exits, Settles body exits) :
    Settles (.doLoop frame body cond) exits := by
  intro n code n' hcode P lo hP
  obtain ⟨b, m, hb, a, ha, rfl⟩ := do_ok.1 hcode
  apply Levels.fresh₃
  refine Levels.mono (.append (.append (.append
    (Even.cons (.label fun L hp => hp.2.2.1) (.label fun L hp => hp.2.1))
    ((hbody _).single hb fun L hp => (hP L hp.2.2.2).loop frame hp.1 hp.2.1))
    (hcond _ _ ha _ _ _ fun L hp => hp.2.2.1))
    (Even.label fun L hp => hp.1)) ?_
  rintro H hstart _ ⟨⟨⟨_, hrests⟩, _⟩, _⟩
  apply rests_before hcode hstart
  intro ss τ hτ
  cases hτ with
  | inside hτ =>
    cases hτ with
    | rest ha' => exact .inl ⟨_, _, ha', rfl⟩
    | doBody => exact .inr (by simpa using hrests)

/-- A test that is missing leaves the stack too. -/
theorem forTest_even {cond : Option Expr} (hcond : ∀ c ∈ cond, Tests c.cond) {target : Label}
    {n n' : Nat} {code : Code} (hcode : forTest cond target n = .ok (code, n'))
    {P : (Label → Nat) → Prop} {lo h : Nat} (htarget : ∀ L, P L → L target = h) :
    Even lo n n' P h h code := by
  cases cond with
  | none =>
    cases pure_ok.1 hcode
    exact .nil
  | some c => exact hcond c rfl _ _ hcode P lo h htarget

/-- The updates of a for loop settle as statements. -/
theorem Settles.forLoop {init : List Stmt} {cond : Option Expr} {update : List Expr}
    (hinit : ∀ exits, AllSettle init exits) (hcond : ∀ c ∈ cond, Tests c.cond)
    (hupdate : ∀ exits, AllSettle (update.map .expr) exits) (hbody : ∀ exits, Settles body exits) :
    Settles (.forLoop frame init cond update body) exits := by
  intro n code n' hcode P lo hP
  obtain ⟨i, m₁, hi, a, m₂, ha, b, m₃, hb, u, hu, rfl⟩ := for_ok.1 hcode
  rw [← stmtsCode_exprs update (loopExit frame n :: exits)] at hu
  apply Levels.fresh₃
  refine Levels.mono (.append (.append (.append (.append (.append (.append
    (hinit _ hi _ _ fun L hp => (hP L hp.2.2.2).loop frame hp.1 hp.2.1)
    (Even.label fun L hp => hp.2.2.1))
    (forTest_even hcond ha fun L hp => hp.1))
    ((hbody _).single hb fun L hp => (hP L hp.2.2.2).loop frame hp.1 hp.2.1))
    (Even.label fun L hp => hp.2.1))
    (hupdate _ hu _ _ fun L hp => (hP L hp.2.2.2).loop frame hp.1 hp.2.1))
    (Even.cons (.goto fun L hp => hp.2.2.1) (.label fun L hp => hp.1))) ?_
  rintro H hstart _ ⟨⟨⟨⟨⟨⟨hinit, _⟩, _⟩, hbody⟩, _⟩, hupdate⟩, _⟩
  apply rests_before hcode hstart
  intro ss τ hτ
  cases hτ with
  | inside hτ =>
    cases hτ with
    | rest ha' => exact .inl ⟨_, _, ha', rfl⟩
    | forInit => exact .inr hinit
    | forBody hi' ha' =>
      cases hi.symm.trans hi'
      cases ha.symm.trans ha'
      exact .inr (by simpa [Nat.add_assoc] using hbody)
  | updates hi' ha' hb' =>
    cases hi.symm.trans hi'
    cases ha.symm.trans ha'
    cases hb.symm.trans hb'
    exact .inr (by simpa [Nat.add_assoc] using hupdate)

section Switch

variable {lo n n' h h' : Nat} {P : (Label → Nat) → Prop} {Q : (Nat → Nat) → Prop} {code : Code}

variable {base k : Nat} {groups : List SwitchGroup} {frame : Frame}

/-- Whatever a switch does if no case fits, it goes on with an empty stack. -/
theorem Levels.fallback (hP : ∀ L, P L → ∀ l, Between base (base + groups.length) l → L l = 0)
    (hc : Levels lo (fallback base groups n).2.2 n'
      (fun L => L (fallback base groups n).1 = 0 ∧ P L) Q h h' code) :
    Levels lo n n' P Q h h' code := by
  unfold Checked.fallback at hc
  cases hdflt : defaultLabel? base groups with
  | none =>
    rw [hdflt] at hc
    exact hc.fresh
  | some l =>
    rw [hdflt] at hc
    exact hc.imp (fun L hp => ⟨hP L hp l (defaultLabel?_between hdflt), hp⟩) fun _ _ _ hq => hq

theorem Levels.wayOut
    (hc : Levels lo (wayOut frame n).2.2 n' (fun L => (∀ l ∈ (wayOut frame n).1, L l = 0) ∧ P L)
      Q h h' code) : Levels lo n n' P Q h h' code := by
  unfold Checked.wayOut at hc
  cases hbreak : frame.hasBreak with
  | false =>
    rw [hbreak] at hc
    refine hc.imp (fun L hp => ⟨?_, hp⟩) fun _ _ _ hq => hq
    rintro l ⟨⟩
  | true =>
    rw [hbreak] at hc
    apply Levels.fresh 0
    refine hc.imp (fun L hp => ⟨?_, hp.2⟩) fun _ _ _ hq => hq
    rintro l ⟨⟩
    exact hp.1

theorem fallback_even (hP : ∀ L, P L → L (fallback base groups k).1 = h) :
    Even lo n n P h h (fallback base groups k).2.1 := by
  unfold fallback at hP ⊢
  cases hdflt : defaultLabel? base groups with
  | none =>
    rw [hdflt] at hP
    exact .label hP
  | some l => exact .nil

theorem wayOut_even (hP : ∀ L, P L → ∀ l ∈ (wayOut frame k).1, L l = h) :
    Even lo n n P h h (wayOut frame k).2.1 := by
  unfold wayOut at hP ⊢
  cases hbreak : frame.hasBreak with
  | false => exact .nil
  | true =>
    rw [hbreak] at hP
    exact .label fun L hp => hP L hp _ rfl

/-- The subject of a switch is taken from the stack, and nothing goes on behind the dispatch. -/
theorem dispatch_even {line : Nat} {pairs : List (Int32 × Label)} {dflt : Label}
    (hdflt : ∀ L, P L → L dflt = h) (hpairs : ∀ L, P L → ∀ p ∈ pairs, L p.2 = h) :
    Even lo n n P (h + 1) h' [.dispatch line pairs dflt] := by
  have htraffic : ((Item.plan pairs).instruction pairs dflt).traffic = (1, 0) := by
    unfold Plan.instruction
    split <;> rfl
  have hfalls : ((Item.plan pairs).instruction pairs dflt).fallsThrough = false := by
    unfold Plan.instruction
    split <;> rfl
  refine .instruction h rfl ?_ ?_ ?_
  · rw [htraffic]
  · rw [hfalls]
    nofun
  · intro L hp l hl
    rw [htraffic]
    rcases List.mem_cons.1 (Plan.labels_instruction _ hl) with rfl | hl
    · exact hdflt L hp
    · obtain ⟨p, hmem, rfl⟩ := List.mem_map.1 hl
      exact hpairs L hp p hmem

end Switch

/-- Code of the groups of a switch, whose labels stand where the stack is empty. -/
def GroupsSettle (groups : List SwitchGroup) (exits : Exits) : Prop :=
  ∀ ⦃base n code n'⦄, groupsCode groups base exits n = .ok (code, n') → ∀ P lo,
    (∀ L, P L → exits.Ground L) → (∀ L, P L → ∀ i < groups.length, L (groupLabel base i) = 0) →
    Levels lo n n' P (fun H => ∀ τ : Spot, τ.InGroups groups exits n lo → Rests H τ) 0 0 code

theorem GroupsSettle.nil : GroupsSettle [] exits := by
  intro base n code n' hcode P lo _ _
  cases pure_ok.1 hcode
  refine Levels.mono Even.nil ?_
  intro H _ _ _ τ hτ
  cases hτ

/-- A group starts with an empty stack, wherever it is entered. -/
theorem GroupsSettle.cons {values : List Int32} {isDefault : Bool} {body : List Stmt}
    (hbody : AllSettle body exits) (hgroups : GroupsSettle groups exits) :
    GroupsSettle (.mk values isDefault body :: groups) exits := by
  intro base n code n' hcode P lo hP hlabels
  obtain ⟨a, m, ha, b, hb, rfl⟩ := groups_cons_ok.1 hcode
  refine Levels.mono (.append (.append (a := [.label (groupLabel base 0)])
    (Even.label fun L hp => hlabels L hp 0 (Nat.succ_pos _))
    (hbody ha _ _ hP))
    (hgroups hb _ _ hP fun L hp i hi => ?_)) ?_
  · rw [← groupLabel_succ]
    exact hlabels L hp (i + 1) (Nat.succ_lt_succ hi)
  · rintro H _ _ ⟨⟨_, hfirst⟩, hrest⟩ τ hτ
    cases hτ with
    | head => exact hfirst
    | tail ha' hτ =>
      cases ha.symm.trans ha'
      exact hrest τ (by simpa using hτ)

/-- The subject of a switch is taken by its instruction. -/
theorem Settles.switch {line : Nat} {subject : Expr} (hsubject : Leaves 1 subject.value)
    (hgroups : ∀ exits, GroupsSettle groups exits) :
    Settles (.switch line frame subject groups) exits := by
  intro n code n' hcode P lo hP
  obtain ⟨a, m, ha, d, rfl, o, rfl, b, hb, rfl⟩ := switch_ok.1 hcode
  -- the labels of the groups and of the ways out are made after those of the subject
  have hrest : Levels (lo + a.size) m n' P (fun H => ∀ τ : Spot, τ.InGroups groups
      ((switchExit frame groups m).1 :: exits) (switchExit frame groups m).2 (lo + a.size + 1) →
        Rests H τ) 1 0
      ([.dispatch line (casePairs m groups) (fallback m groups (m + groups.length)).1] ++ b ++
        (fallback m groups (m + groups.length)).2.1 ++
        (wayOut frame (fallback m groups (m + groups.length)).2.2).2.1) := by
    apply Levels.reserve 0 groups.length
    apply Levels.fallback fun L hp => hp.1
    apply Levels.wayOut
    refine Levels.mono (.append (.append (.append
      (dispatch_even (fun L hp => hp.2.1) fun L hp p hmem => hp.2.2.1 _ (casePairs_labels hmem))
      (hgroups _ hb _ _ (fun L hp => (hP L hp.2.2.2).cons hp.1 nofun)
        fun L hp i hi => hp.2.2.1 _ (groupLabel_between hi)))
      (fallback_even fun L hp => hp.2.1))
      (wayOut_even fun L hp => hp.1)) ?_
    rintro H _ _ ⟨⟨⟨_, hrests⟩, _⟩, _⟩
    exact hrests
  have hall := Levels.append (hsubject ha P lo 0) hrest
  simp only [← List.append_assoc] at hall
  refine hall.mono ?_
  rintro H hstart _ ⟨_, hrests⟩
  apply rests_before hcode hstart
  intro ss τ hτ
  cases hτ with
  | inside hτ =>
    cases hτ with
    | rest ha' => exact .inl ⟨_, _, ha', rfl⟩
    | group ha' hτ =>
      cases ha.symm.trans ha'
      exact .inr (hrests τ hτ)

/-- The height where catch clauses start: that of an exception, if there are any. -/
def entryOfCatches (h : Nat) : List CatchClause → Nat
  | [] => h
  | _ :: _ => 1

def entryOfCleanup (h : Nat) : Cleanup → Nat
  | .absent => h
  | .mk .. => 1

/-- Code of catch clauses. Each of them ends with a jump, so behind them there is any height. -/
def CatchesSettle (catches : List CatchClause) (cleanup : List Stmt) (exits : Exits) : Prop :=
  ∀ ⦃last start stop n code caught n'⦄, catchesCode catches exits (stmtsCode cleanup exits) last
      start stop n = .ok ((code, caught), n') → ∀ P lo h, (∀ L, P L → exits.Ground L) →
    (∀ L, P L → L last = 0) → Levels lo n n' P
      (fun H => ∀ τ, Spot.InCatches cleanup τ catches exits n lo → Rests H τ)
      (entryOfCatches h catches) h code

theorem CatchesSettle.nil : CatchesSettle [] cleanup exits := by
  intro last start stop n code caught n' hcode P lo h _ _
  cases pure_ok.1 hcode
  refine Levels.mono Even.nil ?_
  intro H _ _ _ τ hτ
  cases hτ

/-- A clause starts with the exception and stores it. -/
theorem CatchesSettle.cons {param : Local} {body : List Stmt} {clauses : List CatchClause}
    (hbody : AllSettle body exits) (hcleanup : AllSettle cleanup exits)
    (hclauses : CatchesSettle clauses cleanup exits) :
    CatchesSettle (.mk param body :: clauses) cleanup exits := by
  intro last start stop n code caught n' hcode P lo h hP hlast
  obtain ⟨a, m₁, ha, f, m₂, hf, c, more, hc, rfl, rfl⟩ := catches_cons_ok.1 hcode
  apply Levels.fresh 1
  apply Levels.fresh 0
  refine Levels.mono (.append (.append (.append (.append (.append
    (Even.cons (.label fun L hp => hp.2.1) (.store _ _))
    (hbody ha _ _ fun L hp => hP L hp.2.2))
    (Even.label fun L hp => hp.1))
    (hcleanup hf _ _ fun L hp => hP L hp.2.2))
    (Even.cons (.goto fun L hp => hlast L hp.2.2) (.handler fun L hp => hp.2.1)))
    (hclauses hc _ _ h (fun L hp => hP L hp.2.2) fun L hp => hlast L hp.2.2)) ?_
  rintro H _ _ ⟨⟨⟨⟨⟨_, hfirst⟩, _⟩, hcopy⟩, _⟩, hrest⟩ τ hτ
  cases hτ with
  | body => simpa using hfirst
  | copy ha' =>
    cases ha.symm.trans ha'
    simpa [Nat.add_assoc] using hcopy
  | tail ha' hf' hτ =>
    cases ha.symm.trans ha'
    cases hf.symm.trans hf'
    exact hrest τ (by simpa [Nat.add_assoc] using hτ)

theorem delays_even {lo n h : Nat} {P : (Label → Nat) → Prop} (hstart : ∀ L, P L → L start = 1)
    (rs : List Caught) : Even lo n n P h h (rs.map (delays start)) := by
  induction rs with
  | nil => exact .nil
  | cons r rs ih => exact .cons (.handler hstart) ih

/-- The handler of a finally clause throws again at its end. -/
theorem delayed_levels {cleanup : Cleanup} (hcleanup : AllSettle cleanup.stmts exits) {stop : Label}
    {caught : List Caught} {n n' : Nat} {code : Code}
    (hcode : delayed cleanup exits start stop caught n = .ok (code, n')) {P : (Label → Nat) → Prop}
    {lo h : Nat} (hP : ∀ L, P L → exits.Ground L) :
    Levels lo n n' P (fun H => ∀ slot body, cleanup = .mk slot body →
      Rests H ⟨body, exits, n + 2, lo + 1⟩) (entryOfCleanup h cleanup) h code := by
  cases cleanup with
  | absent =>
    cases pure_ok.1 hcode
    exact Levels.mono Even.nil nofun
  | mk slot body =>
    obtain ⟨f, hf, rfl⟩ := delay_ok.1 hcode
    rw [cleanupCode_eq] at hf
    apply Levels.fresh 1
    apply Levels.fresh 0
    refine Levels.mono (.append (.append (.append
      (Even.cons (.label fun L hp => hp.2.1) (.cons (.store _ _) (.label fun L hp => hp.1)))
      (hcleanup hf _ _ fun L hp => hP L hp.2.2))
      (Even.cons (.load _ _) (.plain 0 rfl rfl nofun)))
      (delays_even (fun L hp => hp.2.1) _)) ?_
    rintro H _ _ ⟨⟨⟨_, hrests⟩, _⟩, _⟩ slot body ⟨⟩
    simpa [Cleanup.stmts] using hrests

/-- A handler starts with the exception, the rest of the statement with nothing. -/
theorem Settles.tryCatch {body : List Stmt} {catches : List CatchClause} {cleanup : Cleanup}
    (hbody : AllSettle body exits) (hcatches : CatchesSettle catches cleanup.stmts exits)
    (hcleanup : AllSettle cleanup.stmts exits) :
    Settles (.tryCatch body catches cleanup) exits := by
  intro n code n' hcode P lo hP
  obtain ⟨a, m₁, ha, f, m₂, hf, c, caught, m₃, hc, d, hd, rfl⟩ := try_ok.1 hcode
  rw [cleanupCode_eq] at hf hc
  apply Levels.fresh₃
  refine Levels.mono (.append (.append (.append (.append (.append (.append (.append
    (Even.label fun L hp => hp.2.2.1)
    (hbody ha _ _ fun L hp => hP L hp.2.2.2))
    (Even.label fun L hp => hp.2.1))
    (hcleanup hf _ _ fun L hp => hP L hp.2.2.2))
    (Even.goto fun L hp => hp.1))
    (hcatches hc _ _ _ (fun L hp => hP L hp.2.2.2) fun L hp => hp.1))
    (delayed_levels hcleanup hd fun L hp => hP L hp.2.2.2))
    (Even.label fun L hp => hp.1)) ?_
  rintro H hstart _ ⟨⟨⟨⟨⟨⟨⟨_, hbody⟩, _⟩, hcopy⟩, _⟩, hclauses⟩, hdelayed⟩, _⟩
  apply rests_before hcode hstart
  intro ss τ hτ
  cases hτ with
  | inside hτ =>
    cases hτ with
    | rest ha' => exact .inl ⟨_, _, ha', rfl⟩
    | tryBody => exact .inr (by simpa using hbody)
    | tryCopy ha' =>
      cases ha.symm.trans ha'
      exact .inr (by simpa using hcopy)
    | clause ha' hf' hτ =>
      cases ha.symm.trans ha'
      cases hf.symm.trans hf'
      exact .inr (hclauses τ (by simpa [Nat.add_assoc] using hτ))
    | delayed ha' hf' hcs =>
      cases ha.symm.trans ha'
      cases hf.symm.trans hf'
      obtain ⟨cs, hcs', rfl, rfl⟩ := catchesCode_parts.1 hc
      cases hcs.symm.trans hcs'
      exact .inr (by simpa [size_catches, Nat.add_assoc] using hdelayed _ _ rfl)

end Statements

mutual

/-- Every sound statement settles. -/
theorem stmt_settles {slots : Slots} : ∀ {s : Stmt} {frames : List Frame} {vs : List Local},
    Storable vs → s.Sound slots frames vs → ∀ exits, Settles s exits
  | .expr _, _, _, hvs, h, _ => .expr hvs h
  | .var v none, _, _, _, _, _ => .declared v
  | .var _ (some _), _, _, hvs, ⟨hv, h, ht⟩, _ =>
    .initialized (value_leaves hvs h (ne_void_of_assignable ht hv.2))
  | .block _, _, _, hvs, h, exits => .block (stmts_settle hvs h exits)
  | .ifElse _ _ none, _, _, hvs, ⟨hc, ht⟩, exits =>
    .ifThen (condition_tests hvs hc) (stmt_settles hvs ht exits)
  | .ifElse _ _ (some _), _, _, hvs, ⟨hc, ht, he⟩, exits =>
    .ifElse (condition_tests hvs hc) (stmt_settles hvs ht exits) (stmt_settles hvs he exits)
  | .whileLoop _ _ _, _, _, hvs, ⟨_, hc, hb⟩, _ =>
    .whileLoop (condition_tests hvs hc) (stmt_settles hvs hb)
  | .doLoop _ _ _, _, _, hvs, ⟨_, hb, hc⟩, _ =>
    .doLoop (condition_tests hvs hc) (stmt_settles hvs hb)
  | .forLoop _ _ _ _ _, _, _, hvs, ⟨_, _, hi, hc, hu, hb⟩, _ =>
    have hvs' := forall_inSight (fun _ hv => hv.2) hvs hi
    .forLoop (stmts_settle hvs hi) (fun c hmem => condition_tests hvs' (hc c hmem))
      (fun _ => .exprs hvs' hu) (stmt_settles hvs' hb)
  | .switch _ _ _ _, _, _, hvs, ⟨_, hs, ht, _, _, hg⟩, _ =>
    .switch (value_leaves hvs hs (by rw [ht]; nofun)) (groups_settle hvs hg)
  | .brk line target, _, _, _, _, _ => .brk line target
  | .cont line target, _, _, _, _, _ => .cont line target
  | .ret, _, _, _, _, _ => .ret
  | .throw _, _, _, hvs, ⟨h, ht⟩, _ => .throw (value_leaves hvs h (by
      rintro hvoid
      rw [hvoid] at ht
      rcases ht with ht | ht <;> cases ht))
  | .tryCatch _ _ _, _, _, hvs, ⟨hb, hc, hf⟩, exits =>
    have hcleanup := cleanup_settles hvs hf exits
    .tryCatch (stmts_settle hvs hb exits) (catches_settle hvs hcleanup hc) hcleanup
  | .empty, _, _, _, _, _ => .empty

theorem stmts_settle {slots : Slots} : ∀ {ss : List Stmt} {frames : List Frame} {vs : List Local},
    Storable vs → Stmt.AllSound slots frames vs ss → ∀ exits, AllSettle ss exits
  | [], _, _, _, _, _ => .nil
  | _ :: _, _, _, hvs, ⟨hs, hss⟩, exits =>
    .cons (stmt_settles hvs hs exits)
      (stmts_settle (forall_declares (fun _ hv => hv.2) hvs hs) hss exits)

theorem groups_settle {slots : Slots} : ∀ {gs : List SwitchGroup} {frames : List Frame}
    {vs : List Local}, Storable vs → SwitchGroup.AllSound slots frames vs gs →
    ∀ exits, GroupsSettle gs exits
  | [], _, _, _, _, _ => .nil
  | .mk _ _ _ :: _, _, _, hvs, ⟨hb, hgs⟩, exits =>
    .cons (stmts_settle hvs hb exits) (groups_settle hvs hgs exits)

theorem catches_settle {slots : Slots} : ∀ {cs : List CatchClause} {frames : List Frame}
    {vs : List Local} {cleanup : List Stmt} {exits : Exits}, Storable vs →
    AllSettle cleanup exits → CatchClause.AllSound slots frames vs cs →
    CatchesSettle cs cleanup exits
  | [], _, _, _, _, _, _, _ => .nil
  | .mk _ _ :: _, _, _, _, exits, hvs, hcleanup, ⟨hp, _, hb, hcs⟩ =>
    .cons (stmts_settle (List.forall_mem_cons.2 ⟨hp.2, hvs⟩) hb exits) hcleanup
      (catches_settle hvs hcleanup hcs)

theorem cleanup_settles {slots : Slots} : ∀ {c : Cleanup} {frames : List Frame}
    {vs : List Local}, Storable vs → c.Sound slots frames vs → ∀ exits, AllSettle c.stmts exits
  | .absent, _, _, _, _, _ => .nil
  | .mk _ _, _, _, hvs, ⟨_, hb⟩, exits =>
    stmts_settle hvs (.mono (List.take_prefix _ _) (.refl _) hb) exits

end

end Jminus.Checked
