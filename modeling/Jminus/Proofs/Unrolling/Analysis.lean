import Jminus.Proofs.Scoping
import Jminus.Proofs.Unrolling
import Mathlib

/-!
Analysis of unrolled statements, side by side with that of the statements themselves.

The two states agree on the names in sight and not on slots and frames, of which the unrolled
statements take more. The body of a do loop that is unrolled is analyzed twice on one side and once on
the other: what is known about the one state before its body is compared with two states.
-/
namespace Jminus.Checked

open Analysis

/-- Two states with the same names in sight. -/
structure State.Alike (ρ : Pairing) (φ : FramePairs) (st st' : State) : Prop where
  pairs : ρ.Exact
  sees : ρ.Sees st.env st'.env
  slots : ∀ p ∈ ρ, p.1.slot < st.env.slots ∧ p.2.slot < st'.env.slots
  frames : ∀ p ∈ φ.breaks ++ φ.continues, p.1 < st.frames ∧ p.2 < st'.frames

/-- Jumps of the given kinds would be bound to frames that make a pair. -/
structure State.Bridges (φ : FramePairs) (jumps : Jump → Bool) (st st' : State) : Prop where
  brk : jumps .brk = true → ∀ x ∈ st.around.head?, ∃ x' ∈ st'.around.head?,
    (x.1, x'.1) ∈ φ.breaks
  cont : jumps .cont = true → ∀ x ∈ st.around.find? (·.2 = .loop),
    ∃ x' ∈ st'.around.find? (·.2 = .loop), (x.1, x'.1) ∈ φ.continues

/-- The pairs are those of `φ` and one more. -/
structure FramePairs.Extends (ψ φ : FramePairs) (i i' : Nat) : Prop where
  new : ∀ p ∈ ψ.breaks ++ ψ.continues, p = (i, i') ∨ p ∈ φ.breaks ++ φ.continues
  old : ∀ p ∈ φ.breaks ++ φ.continues, p ∈ ψ.breaks ++ ψ.continues

theorem FramePairs.extends_loop (φ : FramePairs) (i i' : Nat) : (φ.loop i i').Extends φ i i' := by
  constructor <;> simp only [FramePairs.loop, List.mem_append, List.mem_cons] <;> tauto

theorem FramePairs.extends_switch (φ : FramePairs) (i i' : Nat) :
    (φ.switch i i').Extends φ i i' := by
  constructor <;> simp only [FramePairs.switch, List.mem_append, List.mem_cons] <;> tauto

/-- Statements do not change what is around them. -/
theorem State.around_of_flows {st st' : State}
    (hflows : Frame.AllLe st.flows.frames st'.flows.frames) : st'.around = st.around := by
  unfold State.around
  generalize st.flows.frames = fs, st'.flows.frames = gs at hflows ⊢
  induction hflows with
  | nil => rfl
  | cons hle _ ih => rw [List.map_cons, List.map_cons, ih, Frame.tag, Frame.tag, hle.id, hle.kind]

section

variable {ρ σ : Pairing} {φ : FramePairs} {st st' st₁ st₁' : State} {jumps : Jump → Bool}

namespace State.Bridges

theorem mono (h : State.Bridges φ jumps st st') (jumps' : Jump → Bool)
    (himp : ∀ j, jumps' j = true → jumps j = true) : State.Bridges φ jumps' st st' :=
  ⟨fun hj => h.brk (himp _ hj), fun hj => h.cont (himp _ hj)⟩

/-- The frames are still there further on. -/
theorem behind (h : State.Bridges φ jumps st st')
    (hflows : Frame.AllLe st.flows.frames st₁.flows.frames)
    (hflows' : Frame.AllLe st'.flows.frames st₁'.flows.frames) :
    State.Bridges φ jumps st₁ st₁' := by
  constructor
  · rw [State.around_of_flows hflows, State.around_of_flows hflows']
    exact h.brk
  · rw [State.around_of_flows hflows, State.around_of_flows hflows']
    exact h.cont

theorem entered (h : State.Bridges φ jumps st st') :
    State.Bridges φ jumps st.entered st'.entered :=
  ⟨h.brk, h.cont⟩

theorem none (φ : FramePairs) (st st' : State) (h : ∀ j, jumps j = false) :
    State.Bridges φ jumps st st' :=
  ⟨fun hj => absurd hj (by simp [h]), fun hj => absurd hj (by simp [h])⟩

/-- A loop takes all jumps. -/
theorem loop (φ : FramePairs) (st st' : State) (jumps : Jump → Bool) :
    State.Bridges (φ.loop st.frames st'.frames) jumps (st.opened .loop) (st'.opened .loop) := by
  constructor
  · rintro _ x ⟨⟩
    exact ⟨_, rfl, List.mem_cons_self⟩
  · rintro _ x ⟨⟩
    exact ⟨_, rfl, List.mem_cons_self⟩

/-- A switch takes breaks. -/
theorem switch (h : State.Bridges φ (fun j => j = .cont && jumps j) st st') :
    State.Bridges (φ.switch st.frames st'.frames) jumps (st.opened .switch)
      (st'.opened .switch) := by
  constructor
  · rintro _ x ⟨⟩
    exact ⟨_, rfl, List.mem_cons_self⟩
  · intro hj
    exact h.cont (by simpa using hj)

end State.Bridges

namespace State.Alike

theorem adds (h : State.Alike ρ φ st st') : φ.Adds st.frames st'.frames :=
  ⟨fun p hp => (h.frames p hp).1.ne, fun p hp => (h.frames p hp).2.ne⟩

/-- Each state is compared with the pairs alone. -/
theorem mix (h : State.Alike ρ φ st st') (h₁ : State.Alike ρ φ st₁ st₁') :
    State.Alike ρ φ st st₁' :=
  { pairs := h.pairs
    sees := ⟨h.sees.left, h₁.sees.right, h.sees.name⟩
    slots := fun p hp => ⟨(h.slots p hp).1, (h₁.slots p hp).2⟩
    frames := fun p hp => ⟨(h.frames p hp).1, (h₁.frames p hp).2⟩ }

/-- The same names in sight, with more slots taken and more frames opened. -/
theorem later (h : State.Alike ρ φ st st') (hsight : st₁.inSight = st.inSight)
    (hslots : st.env.slots ≤ st₁.env.slots) (hframes : st.frames ≤ st₁.frames)
    (hsight' : st₁'.inSight = st'.inSight) (hslots' : st'.env.slots ≤ st₁'.env.slots)
    (hframes' : st'.frames ≤ st₁'.frames) : State.Alike ρ φ st₁ st₁' where
  pairs := h.pairs
  sees := ⟨hsight.trans h.sees.left, hsight'.trans h.sees.right, h.sees.name⟩
  slots p hp := ⟨(h.slots p hp).1.trans_le hslots, (h.slots p hp).2.trans_le hslots'⟩
  frames p hp := ⟨(h.frames p hp).1.trans_le hframes, (h.frames p hp).2.trans_le hframes'⟩

theorem entered (h : State.Alike ρ φ st st') : State.Alike ρ φ st.entered st'.entered :=
  h.later rfl le_rfl le_rfl rfl le_rfl le_rfl

/-- What a scope declares is out of sight behind it. -/
theorem left (h : State.Alike ρ φ st st') (hbehind : State.Alike σ φ st₁ st₁') (hsub : ρ ⊆ σ)
    (houter : st₁.env.scopes.tail = st.env.scopes)
    (houter' : st₁'.env.scopes.tail = st'.env.scopes) :
    State.Alike ρ φ st₁.left st₁'.left where
  pairs := h.pairs
  sees :=
    ⟨(congrArg List.flatten houter).trans h.sees.left,
      (congrArg List.flatten houter').trans h.sees.right, h.sees.name⟩
  slots p hp := hbehind.slots p (hsub hp)
  frames := hbehind.frames

/-- A frame more on both sides. -/
theorem opened (h : State.Alike ρ φ st st') (kind : FrameKind) {ψ : FramePairs}
    (hψ : ψ.Extends φ st.frames st'.frames) :
    State.Alike ρ ψ (st.opened kind) (st'.opened kind) where
  pairs := h.pairs
  sees := h.sees
  slots := h.slots
  frames p hp := by
    rcases hψ.new p hp with rfl | hp
    · exact ⟨Nat.lt_succ_self _, Nat.lt_succ_self _⟩
    · exact ⟨(h.frames p hp).1.trans (Nat.lt_succ_self _),
        (h.frames p hp).2.trans (Nat.lt_succ_self _)⟩

/-- A loop on both sides makes a pair. -/
theorem openedLoop (h : State.Alike ρ φ st st') :
    State.Alike ρ (φ.loop st.frames st'.frames) (st.opened .loop) (st'.opened .loop) :=
  h.opened .loop (φ.extends_loop _ _)

/-- Other pairs of frames that were open before. -/
theorem reframe (h : State.Alike ρ φ st st') (ψ : FramePairs)
    (hψ : ∀ p ∈ ψ.breaks ++ ψ.continues, p.1 < st.frames ∧ p.2 < st'.frames) :
    State.Alike ρ ψ st st' :=
  ⟨h.pairs, h.sees, h.slots, hψ⟩

theorem flows (h : State.Alike ρ φ st st') (fs fs' : FlowStack) :
    State.Alike ρ φ { st with flows := fs } { st' with flows := fs' } :=
  h.later rfl le_rfl le_rfl rfl le_rfl le_rfl

/-- A frame less on both sides. -/
theorem closed {ψ : FramePairs} {kind : FrameKind} {st₀ st₀' : State} {frame frame' : Frame}
    (h : State.Alike ρ ψ st st')
    (hψ : ∀ p ∈ φ.breaks ++ φ.continues, p ∈ ψ.breaks ++ ψ.continues)
    (hclose : st₀.Closes kind st frame st₁) (hclose' : st₀'.Closes kind st' frame' st₁') :
    State.Alike ρ φ st₁ st₁' := by
  rw [hclose.same, hclose'.same]
  exact (h.reframe φ fun p hp => h.frames p (hψ p hp)).flows _ _

end State.Alike

/-- A frame can be closed behind its body. -/
theorem State.closes_of_flows {kind : FrameKind}
    (hflows : Frame.AllLe (st.opened kind).flows.frames st₁.flows.frames) :
    ∃ frame st', st.Closes kind st₁ frame st' := by
  obtain ⟨frame, rest, hle, _, hframes⟩ := List.forall₂_cons_left_iff.1 hflows
  exact ⟨frame, { st₁ with flows := { frames := rest } }, hle, hframes, rfl⟩

variable {e e' : Jminus.Expr} {a : Expr} {name name' : Name} {frame : Frame} {seen : Labels}

/-- Expressions of alike states are checked alike. -/
theorem expr_unrolled (h : State.Alike ρ φ st st') (he : e.unlined = e'.unlined)
    (hrun : checkExpr st.env e = (a, [])) :
    ∃ a', checkExpr st'.env e' = (a', []) ∧ a.Alike ρ a' := by
  obtain ⟨halike, hquiet⟩ := checkExpr_unrolled h.pairs h.sees he (congrArg Prod.snd hrun)
  rw [hrun] at halike
  exact ⟨_, Prod.ext rfl hquiet, halike⟩

theorem exprs_unrolled (h : State.Alike ρ φ st st') {es es' : List Jminus.Expr} {as : List Expr}
    (hes : es.map Expr.unlined = es'.map Expr.unlined) (hrun : checkExprs st.env es = (as, [])) :
    ∃ as', checkExprs st'.env es' = (as', []) ∧ Expr.AllAlike ρ as as' := by
  obtain ⟨halike, hquiet⟩ := checkExprs_unrolled h.pairs h.sees hes (congrArg Prod.snd hrun)
  rw [hrun] at halike
  exact ⟨_, Prod.ext rfl hquiet, halike⟩

theorem condition_unrolled (h : State.Alike ρ φ st st') (he : e.unlined = e'.unlined)
    (hrun : ConditionIn st.env e a) : ∃ a', ConditionIn st'.env e' a' ∧ a.Alike ρ a' := by
  obtain ⟨a', hrun', halike⟩ := expr_unrolled h he hrun.1
  exact ⟨a', ⟨hrun', halike.type h.pairs ▸ hrun.2⟩, halike⟩

theorem conditions_unrolled (h : State.Alike ρ φ st st') {c c' : Option Jminus.Expr}
    {a : Option Expr} (hc : c.map Expr.unlined = c'.map Expr.unlined)
    (hrun : Option.Rel (ConditionIn st.env) c a) :
    ∃ a', Option.Rel (ConditionIn st'.env) c' a' ∧ Option.Rel (Expr.Alike ρ) a a' := by
  cases hrun with
  | none =>
    obtain rfl : c' = none := Option.map_eq_none_iff.1 hc.symm
    exact ⟨none, .none, .none⟩
  | some hrun =>
    obtain ⟨e', rfl, he⟩ := Option.map_eq_some_iff.1 hc.symm
    obtain ⟨a', hrun', halike⟩ := condition_unrolled h he.symm hrun
    exact ⟨some a', .some hrun', .some halike⟩

/-- A new variable on both sides. -/
theorem State.Alike.add (h : State.Alike ρ φ st st') (hname : name.text = name'.text) (type : Ty) :
    ρ.Adds (st.env.add name.text type).1 (st'.env.add name'.text type).1 ∧
      State.Alike (((st.env.add name.text type).1, (st'.env.add name'.text type).1) :: ρ) φ
        (st.adds name type) (st'.adds name' type) := by
  have hadds : ρ.Adds (st.env.add name.text type).1 (st'.env.add name'.text type).1 :=
    ⟨rfl, fun p hp => (h.slots p hp).1.ne, fun p hp => (h.slots p hp).2.ne⟩
  refine ⟨hadds, h.pairs.cons hadds, ⟨?_, ?_, ?_⟩, ?_, h.frames⟩
  · rw [State.adds, add_inSight, h.sees.left]
    rfl
  · rw [State.adds, add_inSight, h.sees.right]
    rfl
  · exact List.forall_mem_cons.2 ⟨hname, h.sees.name⟩
  · refine List.forall_mem_cons.2 ⟨⟨Nat.lt_succ_self _, Nat.lt_succ_self _⟩, fun p hp => ?_⟩
    exact ⟨(h.slots p hp).1.trans (Nat.lt_succ_self _), (h.slots p hp).2.trans (Nat.lt_succ_self _)⟩

/-- A name is new on both sides. -/
theorem State.Alike.get?_none (h : State.Alike ρ φ st st') (hname : name.text = name'.text)
    (hnew : st.env.get? name.text = none) : st'.env.get? name'.text = none := by
  obtain ⟨hleft, hright⟩ := h.sees.get? name'.text
  rw [hright, Option.map_eq_none_iff]
  exact Option.map_eq_none_iff.1 (hleft.symm.trans (hname ▸ hnew))

theorem State.around_head? (st : State) :
    st.around.head? = st.flows.breakTarget?.map Frame.tag := by
  rw [State.around, List.head?_map]
  rfl

theorem State.around_loop? (st : State) :
    st.around.find? (·.2 = .loop) = st.flows.continueTarget?.map Frame.tag := by
  rw [State.around, List.find?_map]
  rfl

/-- A break is bound to frames that are a pair. -/
theorem break_unrolled (hjumps : State.Bridges φ jumps st st') (hbrk : jumps .brk = true)
    (hframe : st.flows.breakTarget? = some frame) :
    ∃ frame', st'.flows.breakTarget? = some frame' ∧ (frame.id, frame'.id) ∈ φ.breaks := by
  have hhead : frame.tag ∈ st.around.head? := by
    rw [State.around_head?, hframe]
    rfl
  obtain ⟨x', hx', hmem⟩ := hjumps.brk hbrk _ hhead
  rw [State.around_head?] at hx'
  obtain ⟨frame', hframe', rfl⟩ := Option.map_eq_some_iff.1 hx'
  exact ⟨frame', hframe', hmem⟩

theorem continue_unrolled (hjumps : State.Bridges φ jumps st st') (hcont : jumps .cont = true)
    (hframe : st.flows.continueTarget? = some frame) :
    ∃ frame', st'.flows.continueTarget? = some frame' ∧ (frame.id, frame'.id) ∈ φ.continues := by
  have hfirst : frame.tag ∈ st.around.find? (·.2 = .loop) := by
    rw [State.around_loop?, hframe]
    rfl
  obtain ⟨x', hx', hmem⟩ := hjumps.cont hcont _ hfirst
  rw [State.around_loop?] at hx'
  obtain ⟨frame', hframe', rfl⟩ := Option.map_eq_some_iff.1 hx'
  exact ⟨frame', hframe', hmem⟩

theorem LabelRead.unrolled {l l' : Option Jminus.Expr} {r : Option Int32 × Labels}
    (h : LabelRead seen l r) (hl : l.map Expr.unlined = l'.map Expr.unlined) :
    LabelRead seen l' r := by
  cases h with
  | default hseen =>
    obtain rfl : l' = none := Option.map_eq_none_iff.1 hl.symm
    exact .default hseen
  | @value lexeme own v hread hnew =>
    obtain ⟨e', rfl, he⟩ := Option.map_eq_some_iff.1 hl.symm
    cases e' with
    | literal lit =>
      have hleft := checkLiteral_unlined ⟨.int, lexeme, own⟩
      obtain ⟨form', lexeme', own'⟩ := lit
      cases he
      have hright := checkLiteral_unlined ⟨.int, lexeme, own'⟩
      rw [hread] at hleft
      exact .value (Prod.ext (hright.value.symm.trans hleft.value)
        (hright.quiet.1 (hleft.quiet.2 rfl))) hnew
    | _ => cases he

/-- Labels do not depend on lines. -/
theorem LabelsRead.unrolled {ls ls' : List (Option Jminus.Expr)} {r : List Int32 × Labels}
    (h : LabelsRead seen ls r)
    (hls : ls.map (Option.map Expr.unlined) = ls'.map (Option.map Expr.unlined)) :
    LabelsRead seen ls' r := by
  induction h generalizing ls' with
  | nil =>
    obtain rfl : ls' = [] := List.map_eq_nil_iff.1 hls.symm
    exact .nil
  | cons hread _ ih =>
    obtain ⟨l', ls', rfl, hl, hls⟩ := List.map_eq_cons_iff.1 hls.symm
    exact .cons (hread.unrolled hl.symm) (ih hls.symm)

end

/-- Without reports on the one side there are none on the other, and both are checked to alike
statements. -/
def StmtUnrolls (s s' : Jminus.Stmt) : Prop :=
  ∀ ⦃ρ φ st st' st₁ a⦄, s.Regular → State.Alike ρ φ st st' →
    State.Bridges φ (s.hasJump ·) st st' → Silent (checkStmt s) st a st₁ →
    ∃ a' st₁', Silent (checkStmt s') st' a' st₁' ∧
      ∃ σ, Stmt.Alike ρ φ a a' σ ∧ State.Alike σ φ st₁ st₁'

def StmtsUnroll (ss ss' : List Jminus.Stmt) : Prop :=
  ∀ ⦃ρ φ st st' st₁ as⦄, Stmt.AllRegular ss → State.Alike ρ φ st st' →
    State.Bridges φ (Stmt.haveJump · ss) st st' → Silent (checkStmts ss) st as st₁ →
    ∃ as' st₁', Silent (checkStmts ss') st' as' st₁' ∧
      ∃ σ, Stmt.AllAlike ρ φ as as' σ ∧ State.Alike σ φ st₁ st₁'

def GroupsUnroll (gs gs' : List Jminus.SwitchGroup) : Prop :=
  ∀ ⦃ρ φ line line' seen st st' st₁ as⦄, SwitchGroup.AllRegular gs →
    State.Alike ρ φ st st' → State.Bridges φ (SwitchGroup.haveJump · gs) st st' →
    Silent (checkGroups line seen gs) st as st₁ →
    ∃ as' st₁', Silent (checkGroups line' seen gs') st' as' st₁' ∧
      SwitchGroup.AllAlike ρ φ as as' ∧ State.Alike ρ φ st₁ st₁'

def CatchesUnroll (cs cs' : List Jminus.CatchClause) : Prop :=
  ∀ ⦃ρ φ st st' st₁ as⦄, CatchClause.AllRegular cs → State.Alike ρ φ st st' →
    State.Bridges φ (CatchClause.haveJump · cs) st st' → Silent (checkCatches cs) st as st₁ →
    ∃ as' st₁', Silent (checkCatches cs') st' as' st₁' ∧
      CatchClause.AllAlike ρ φ as as' ∧ State.Alike ρ φ st₁ st₁'

section

variable {ρ : Pairing} {φ : FramePairs} {st st' st₁ : State}

/-- What unrolls in a scope unrolls around it. -/
theorem StmtUnrolls.inScope {s s' : Jminus.Stmt} (hs : StmtUnrolls s s') {a : Stmt}
    (hregular : s.Regular) (h : State.Alike ρ φ st st')
    (hjumps : State.Bridges φ (s.hasJump ·) st st')
    (hrun : Silent (inScope (checkStmt s)) st a st₁) :
    ∃ a' st₁', Silent (inScope (checkStmt s')) st' a' st₁' ∧
      (∃ σ, Stmt.Alike ρ φ a a' σ) ∧ State.Alike ρ φ st₁ st₁' := by
  obtain ⟨st₂, hin, rfl⟩ := (Acts.self (checkStmt_total s)).inScope.silent.1 hrun
  obtain ⟨a', st₂', hin', σ, halike, hbehind⟩ := hs hregular h.entered hjumps.entered hin
  refine ⟨a', _, (Acts.self (checkStmt_total s')).inScope.silent.2 ⟨st₂', hin', rfl⟩, ⟨σ, halike⟩, ?_⟩
  exact h.left hbehind (halike.grows h.pairs).1 (hin.grows (checkStmt_total s)).outer
    (hin'.grows (checkStmt_total s')).outer

theorem StmtsUnroll.inScope {ss ss' : List Jminus.Stmt} (hss : StmtsUnroll ss ss')
    {as : List Stmt} (hregular : Stmt.AllRegular ss) (h : State.Alike ρ φ st st')
    (hjumps : State.Bridges φ (Stmt.haveJump · ss) st st')
    (hrun : Silent (inScope (checkStmts ss)) st as st₁) :
    ∃ as' st₁', Silent (inScope (checkStmts ss')) st' as' st₁' ∧
      (∃ σ, Stmt.AllAlike ρ φ as as' σ) ∧ State.Alike ρ φ st₁ st₁' := by
  obtain ⟨st₂, hin, rfl⟩ := (Acts.self (checkStmts_total ss)).inScope.silent.1 hrun
  obtain ⟨as', st₂', hin', σ, halike, hbehind⟩ := hss hregular h.entered hjumps.entered hin
  refine ⟨as', _, (Acts.self (checkStmts_total ss')).inScope.silent.2 ⟨st₂', hin', rfl⟩,
    ⟨σ, halike⟩, ?_⟩
  exact h.left hbehind (halike.grows h.pairs).1 (hin.grows (checkStmts_total ss)).outer
    (hin'.grows (checkStmts_total ss')).outer

/-- The body of a loop. -/
theorem StmtUnrolls.inLoop {s s' : Jminus.Stmt} (hs : StmtUnrolls s s') {a : Stmt}
    (hregular : s.Regular) (h : State.Alike ρ φ st st')
    (hrun : Silent (Analysis.inScope (checkStmt s)) (st.opened .loop) a st₁) :
    ∃ a' st₁', Silent (Analysis.inScope (checkStmt s')) (st'.opened .loop) a' st₁' ∧
      (∃ σ, Stmt.Alike ρ (φ.loop st.frames st'.frames) a a' σ) ∧
      State.Alike ρ (φ.loop st.frames st'.frames) st₁ st₁' :=
  hs.inScope hregular h.openedLoop (.loop φ st st' _) hrun

end

section

variable {s s' t t' : Jminus.Stmt} {ss ss' : List Jminus.Stmt} {line line' : Nat}
  {e e' c c' : Jminus.Expr}

theorem expr_unrolls (he : e.unlined = e'.unlined) : StmtUnrolls (.expr e) (.expr e') := by
  intro ρ φ st st' st₁ a _ h _ hrun
  obtain ⟨_, hexpr, rfl, rfl⟩ := silent_expr.1 hrun
  obtain ⟨_, hexpr', halike⟩ := expr_unrolled h he hexpr
  exact ⟨_, _, silent_expr.2 ⟨_, hexpr', rfl, rfl⟩, ρ, .expr halike, h⟩

variable {type type' name name' : Name} {gs gs' : List Jminus.SwitchGroup}
  {cs cs' : List Jminus.CatchClause}

theorem var_unrolls {init init' : Option Jminus.Expr} (htype : type.text = type'.text)
    (hname : name.text = name'.text) (hinit : init.map Expr.unlined = init'.map Expr.unlined) :
    StmtUnrolls (.var type name init) (.var type' name' init') := by
  intro ρ φ st st' st₁ a _ h _ hrun
  cases init with
  | none =>
    obtain rfl : init' = none := Option.map_eq_none_iff.1 hinit.symm
    obtain ⟨t, ht, hnew, rfl, rfl⟩ := silent_var.1 hrun
    obtain ⟨hadds, hbehind⟩ := h.add hname t
    rw [Written, htype] at ht
    exact ⟨_, _, silent_var.2 ⟨t, ht, h.get?_none hname hnew, rfl, rfl⟩, _, .declare hadds, hbehind⟩
  | some e =>
    obtain ⟨e', rfl, he⟩ := Option.map_eq_some_iff.1 hinit.symm
    obtain ⟨t, ht, _, hexpr, hfits, hnew, rfl, rfl⟩ := silent_varInit.1 hrun
    obtain ⟨_, hexpr', halike⟩ := expr_unrolled h he.symm hexpr
    obtain ⟨hadds, hbehind⟩ := h.add hname t
    rw [Written, htype] at ht
    rw [halike.type h.pairs] at hfits
    exact ⟨_, _, silent_varInit.2 ⟨t, ht, _, hexpr', hfits, h.get?_none hname hnew, rfl, rfl⟩, _,
      .declareWith hadds halike, hbehind⟩

theorem block_unrolls (hss : StmtsUnroll ss ss') : StmtUnrolls (.block ss) (.block ss') := by
  intro ρ φ st st' st₁ a hregular h hjumps hrun
  obtain ⟨_, hbody, rfl⟩ := silent_block.1 hrun
  obtain ⟨_, _, hbody', ⟨σ, halike⟩, hbehind⟩ := hss.inScope hregular h hjumps hbody
  exact ⟨_, _, silent_block.2 ⟨_, hbody', rfl⟩, ρ, .block halike, hbehind⟩

theorem ifThen_unrolls (hc : c.unlined = c'.unlined) (hs : StmtUnrolls s s') :
    StmtUnrolls (.ifElse line c s none) (.ifElse line' c' s' none) := by
  intro ρ φ st st' st₁ a hregular h hjumps hrun
  obtain ⟨_, hcond, _, hthen, rfl⟩ := silent_ifThen.1 hrun
  obtain ⟨_, hcond', hcond⟩ := condition_unrolled h hc hcond
  obtain ⟨_, _, hthen', ⟨σ, hthen⟩, hbehind⟩ := hs.inScope hregular h hjumps hthen
  exact ⟨_, _, silent_ifThen.2 ⟨_, hcond', _, hthen', rfl⟩, ρ, .ifThen hcond hthen, hbehind⟩

theorem ifElse_unrolls (hc : c.unlined = c'.unlined) (hs : StmtUnrolls s s')
    (ht : StmtUnrolls t t') :
    StmtUnrolls (.ifElse line c s (some t)) (.ifElse line' c' s' (some t')) := by
  intro ρ φ st st' st₁ a hregular h hjumps hrun
  obtain ⟨_, hcond, _, _, hthen, _, helse, rfl⟩ := silent_ifElse.1 hrun
  have hgrow := hthen.grows (checkStmt_total s).inScope
  have hjumpsThen := hjumps.mono (s.hasJump ·) fun j hj => by simp [Stmt.hasJump, hj]
  have hjumpsElse := hjumps.mono (t.hasJump ·) fun j hj => by simp [Stmt.hasJump, hj]
  obtain ⟨_, hcond', hcond⟩ := condition_unrolled h hc hcond
  obtain ⟨_, _, hthen', ⟨σ, hthen⟩, hmiddle⟩ := hs.inScope hregular.1 h hjumpsThen hthen
  obtain ⟨_, _, helse', ⟨τ, helse⟩, hbehind⟩ := ht.inScope hregular.2 hmiddle
    (hjumpsElse.behind hgrow.flows (hthen'.grows (checkStmt_total s').inScope).flows) helse
  exact ⟨_, _, silent_ifElse.2 ⟨_, hcond', _, _, hthen', _, helse', rfl⟩, ρ,
    .ifElse hcond hthen helse, hbehind⟩

theorem while_unrolls (hc : c.unlined = c'.unlined) (hs : StmtUnrolls s s') :
    StmtUnrolls (.whileLoop line c s) (.whileLoop line' c' s') := by
  intro ρ φ st st' st₁ a hregular h _ hrun
  obtain ⟨frame, _, hcond, _, ⟨_, hbody, hclose⟩, rfl⟩ := silent_while.1 hrun
  obtain ⟨_, hcond', hcond⟩ := condition_unrolled h.openedLoop hc hcond
  obtain ⟨_, _, hbody', ⟨σ, hbody⟩, hinner⟩ := hs.inLoop hregular h hbody
  obtain ⟨frame', _, hclose'⟩ :=
    State.closes_of_flows (hbody'.grows (checkStmt_total s').inScope).flows
  have hadds := h.adds
  have hbehind := hinner.closed (φ.extends_loop _ _).old hclose hclose'
  rw [← hclose.id, ← hclose'.id] at hadds hbody
  exact ⟨_, _, silent_while.2 ⟨frame', _, hcond', _, ⟨_, hbody', hclose'⟩, rfl⟩, ρ,
    .whileLoop hadds hcond hbody, hbehind⟩

theorem do_unrolls (hs : StmtUnrolls s s') (hc : c.unlined = c'.unlined) :
    StmtUnrolls (.doLoop line s c) (.doLoop line' s' c') := by
  intro ρ φ st st' st₁ a hregular h _ hrun
  obtain ⟨frame, _, _, ⟨_, hbody, hcond, hclose⟩, rfl⟩ := silent_do.1 hrun
  obtain ⟨_, _, hbody', ⟨σ, hbody⟩, hinner⟩ := hs.inLoop hregular h hbody
  obtain ⟨_, hcond', hcond⟩ := condition_unrolled hinner hc hcond
  obtain ⟨frame', _, hclose'⟩ :=
    State.closes_of_flows (hbody'.grows (checkStmt_total s').inScope).flows
  have hadds := h.adds
  have hbehind := hinner.closed (φ.extends_loop _ _).old hclose hclose'
  rw [← hclose.id, ← hclose'.id] at hadds hbody
  exact ⟨_, _, silent_do.2 ⟨frame', _, _, ⟨_, hbody', hcond', hclose'⟩, rfl⟩, ρ,
    .doLoop hadds hbody hcond, hbehind⟩

/-- The head of a for loop has no jumps. -/
theorem haveJump_of_simple (j : Jump) (h : ss.all Jminus.Stmt.isSimple = true) :
    Stmt.haveJump j ss = false := by
  induction ss with
  | nil => rfl
  | cons s ss ih =>
    rw [List.all_cons, Bool.and_eq_true] at h
    rw [Stmt.haveJump, ih h.2, Bool.or_false]
    cases s with
    | expr | var => rfl
    | _ => cases h.1

/-- Declarations of a for loop are in sight of all its parts. -/
theorem for_unrolls {is is' : List Jminus.Stmt} {c c' : Option Jminus.Expr}
    {us us' : List Jminus.Expr} (his : StmtsUnroll is is')
    (hc : c.map Expr.unlined = c'.map Expr.unlined)
    (hus : us.map Expr.unlined = us'.map Expr.unlined) (hs : StmtUnrolls s s') :
    StmtUnrolls (.forLoop line is c us s) (.forLoop line' is' c' us' s') := by
  intro ρ φ st st' st₁ a hregular h _ hrun
  obtain ⟨frame, _, _, hinit, _, hcond, _, hupdate, _, st₂, hbody, hclose, rfl⟩ := silent_for.1 hrun
  have hgrow := hinit.grows (checkStmts_total is)
  have hgrowBody := hbody.grows (checkStmt_total s).inScope
  obtain ⟨_, _, hinit', σ, hinit, hhead⟩ := his (Stmt.allRegular_of_simple hregular.1)
    (h.openedLoop.entered.reframe {} (by simp))
    (.none _ _ _ fun j => haveJump_of_simple j hregular.1) hinit
  have hgrow' := hinit'.grows (checkStmts_total is')
  have hhead := hhead.reframe (φ.loop st.frames st'.frames) fun p hp =>
    ⟨(h.openedLoop.frames p hp).1.trans_le hgrow.frames,
      (h.openedLoop.frames p hp).2.trans_le hgrow'.frames⟩
  obtain ⟨_, hcond', hcond⟩ := conditions_unrolled hhead hc hcond
  obtain ⟨_, hupdate', hupdate⟩ := exprs_unrolled hhead hus hupdate
  have hjumps := State.Bridges.loop φ st st' (s.hasJump ·)
  obtain ⟨_, st₂', hbody', ⟨τ, hbody⟩, hinner⟩ :=
    hs.inScope hregular.2 hhead (hjumps.entered.behind hgrow.flows hgrow'.flows) hbody
  have hgrowBody' := hbody'.grows (checkStmt_total s').inScope
  have hleft := h.openedLoop.left hinner (hinit.grows h.pairs).1 (hgrowBody.outer.trans hgrow.outer)
    (hgrowBody'.outer.trans hgrow'.outer)
  have hflows' : Frame.AllLe (st'.opened .loop).flows.frames st₂'.left.flows.frames :=
    hgrow'.flows.trans hgrowBody'.flows
  obtain ⟨frame', _, hclose'⟩ := State.closes_of_flows hflows'
  have hadds := h.adds
  have hbehind := hleft.closed (φ.extends_loop _ _).old hclose hclose'
  rw [← hclose.id, ← hclose'.id] at hadds hbody
  exact ⟨_, _, silent_for.2 ⟨frame', _, _, hinit', _, hcond', _, hupdate', _, _, hbody', hclose', rfl⟩,
    ρ, .forLoop hadds hinit hcond hupdate hbody, hbehind⟩

/-- A switch is a frame for its breaks only. -/
theorem switch_unrolls (he : e.unlined = e'.unlined) (hgs : GroupsUnroll gs gs') :
    StmtUnrolls (.switch line e gs) (.switch line' e' gs') := by
  intro ρ φ st st' st₁ a hregular h hjumps hrun
  obtain ⟨frame, _, hsubject, htype, _, _, hgroups, hclose, rfl⟩ := silent_switch.1 hrun
  obtain ⟨_, hsubject', hsubject⟩ := expr_unrolled h he hsubject
  obtain ⟨_, _, hgroups', hgroups, hinner⟩ :=
    hgs hregular (h.opened .switch (φ.extends_switch _ _)) hjumps.switch hgroups
  obtain ⟨frame', _, hclose'⟩ :=
    State.closes_of_flows (hgroups'.grows (checkGroups_total line' {} gs')).flows
  have hadds := h.adds
  have hbehind := hinner.closed (φ.extends_switch _ _).old hclose hclose'
  rw [← hclose.id, ← hclose'.id] at hadds hgroups
  rw [hsubject.type h.pairs] at htype
  exact ⟨_, _, silent_switch.2 ⟨frame', _, hsubject', htype, _, _, hgroups', hclose', rfl⟩, ρ,
    .switch hadds hsubject hgroups, hbehind⟩

theorem brk_unrolls : StmtUnrolls (.brk line) (.brk line') := by
  intro ρ φ st st' st₁ a _ h hjumps hrun
  obtain ⟨_, htarget, rfl, rfl⟩ := silent_brk.1 hrun
  obtain ⟨_, htarget', hmem⟩ := break_unrolled hjumps rfl htarget
  exact ⟨_, _, silent_brk.2 ⟨_, htarget', rfl, rfl⟩, ρ, .brk hmem, h.flows _ _⟩

theorem cont_unrolls : StmtUnrolls (.cont line) (.cont line') := by
  intro ρ φ st st' st₁ a _ h hjumps hrun
  obtain ⟨_, htarget, rfl, rfl⟩ := silent_cont.1 hrun
  obtain ⟨_, htarget', hmem⟩ := continue_unrolled hjumps rfl htarget
  exact ⟨_, _, silent_cont.2 ⟨_, htarget', rfl, rfl⟩, ρ, .cont hmem, h.flows _ _⟩

theorem ret_unrolls {e e' : Option Jminus.Expr} (he : e.map Expr.unlined = e'.map Expr.unlined) :
    StmtUnrolls (.ret line e) (.ret line' e') := by
  intro ρ φ st st' st₁ a _ h _ hrun
  obtain ⟨rfl, rfl, rfl⟩ := silent_ret.1 hrun
  obtain rfl : e' = none := Option.map_eq_none_iff.1 he.symm
  exact ⟨_, _, silent_ret.2 ⟨rfl, rfl, rfl⟩, ρ, .ret, h⟩

theorem throw_unrolls (he : e.unlined = e'.unlined) :
    StmtUnrolls (.throw line e) (.throw line' e') := by
  intro ρ φ st st' st₁ a _ h _ hrun
  obtain ⟨_, hexpr, hthrown, rfl, rfl⟩ := silent_throw.1 hrun
  obtain ⟨_, hexpr', halike⟩ := expr_unrolled h he hexpr
  rw [halike.type h.pairs] at hthrown
  exact ⟨_, _, silent_throw.2 ⟨_, hexpr', hthrown, rfl, rfl⟩, ρ, .throw halike, h⟩

theorem try_unrolls (hss : StmtsUnroll ss ss') (hcs : CatchesUnroll cs cs') :
    StmtUnrolls (.tryCatch ss cs none) (.tryCatch ss' cs' none) := by
  intro ρ φ st st' st₁ a hregular h hjumps hrun
  obtain ⟨_, _, hbody, _, hcatches, rfl⟩ := silent_tryCatch.1 hrun
  have hgrow := hbody.grows (checkStmts_total ss).inScope
  have hjumpsBody := hjumps.mono (Stmt.haveJump · ss) fun j hj => by simp [Stmt.hasJump, hj]
  have hjumpsCatch := hjumps.mono (CatchClause.haveJump · cs) fun j hj => by
    simp [Stmt.hasJump, hj]
  obtain ⟨_, _, hbody', ⟨σ, hbody⟩, hmiddle⟩ := hss.inScope hregular.1 h hjumpsBody hbody
  obtain ⟨_, _, hcatches', hcatches, hbehind⟩ := hcs hregular.2 hmiddle
    (hjumpsCatch.behind hgrow.flows (hbody'.grows (checkStmts_total ss').inScope).flows) hcatches
  exact ⟨_, _, silent_tryCatch.2 ⟨_, _, hbody', _, hcatches', rfl⟩, ρ,
    .tryCatch hbody hcatches .absent, hbehind⟩

/-- The slot of a finally clause comes behind those of its statements. -/
theorem tryFinally_unrolls {fs fs' : List Jminus.Stmt} (hss : StmtsUnroll ss ss')
    (hcs : CatchesUnroll cs cs') (hfs : StmtsUnroll fs fs') :
    StmtUnrolls (.tryCatch ss cs (some fs)) (.tryCatch ss' cs' (some fs')) := by
  intro ρ φ st st' st₁ a hregular h hjumps hrun
  obtain ⟨_, _, hbody, _, _, hcatches, _, _, hcleanup, rfl, rfl⟩ := silent_tryFinally.1 hrun
  have hgrow := hbody.grows (checkStmts_total ss).inScope
  have hgrowCatch := hcatches.grows (checkCatches_total cs)
  have hjumpsBody := hjumps.mono (Stmt.haveJump · ss) fun j hj => by simp [Stmt.hasJump, hj]
  have hjumpsCatch := hjumps.mono (CatchClause.haveJump · cs) fun j hj => by
    simp [Stmt.hasJump, hj]
  have hjumpsCleanup := hjumps.mono (Stmt.haveJump · fs) fun j hj => by simp [Stmt.hasJump, hj]
  obtain ⟨_, _, hbody', ⟨σ, hbody⟩, hmiddle⟩ := hss.inScope hregular.1 h hjumpsBody hbody
  have hgrow' := hbody'.grows (checkStmts_total ss').inScope
  obtain ⟨_, _, hcatches', hcatches, hlast⟩ :=
    hcs hregular.2.1 hmiddle (hjumpsCatch.behind hgrow.flows hgrow'.flows) hcatches
  have hgrowCatch' := hcatches'.grows (checkCatches_total cs')
  obtain ⟨_, _, hcleanup', ⟨τ, hcleanup⟩, hbehind⟩ := hfs.inScope hregular.2.2 hlast
    ((hjumpsCleanup.behind hgrow.flows hgrow'.flows).behind hgrowCatch.flows hgrowCatch'.flows) hcleanup
  exact ⟨_, _, silent_tryFinally.2 ⟨_, _, hbody', _, _, hcatches', _, _, hcleanup', rfl, rfl⟩, ρ,
    .tryCatch hbody hcatches (.mk hcleanup),
    hbehind.later rfl (Nat.le_succ _) le_rfl rfl (Nat.le_succ _) le_rfl⟩

theorem empty_unrolls : StmtUnrolls .empty .empty := by
  intro ρ φ st st' st₁ a _ h _ hrun
  obtain ⟨rfl, rfl⟩ := silent_empty.1 hrun
  exact ⟨_, _, silent_empty.2 ⟨rfl, rfl⟩, ρ, .empty, h⟩

/-- The body of a do loop is compared with its first copy, then with the second. -/
theorem doLoop_unrolls {ss₁ ss₂ : List Jminus.Stmt} (hnone : ∀ j, Stmt.haveJump j ss = false)
    (h₁ : StmtsUnroll ss ss₁) (h₂ : StmtsUnroll ss ss₂) (hc : c.unlined = c'.unlined) :
    StmtUnrolls (.doLoop line (.block ss) c)
      (.block [.block ss₁, .whileLoop line' c' (.block ss₂)]) := by
  intro ρ φ st st' st₁ a hregular h _ hrun
  obtain ⟨frame, _, _, ⟨_, hbody, hcond, hclose⟩, rfl⟩ := silent_do.1 hrun
  obtain ⟨st₂, hblock, rfl⟩ := (Acts.self (checkStmt_total _)).inScope.silent.1 hbody
  obtain ⟨_, hstmts, rfl⟩ := silent_block.1 hblock
  have hopen : State.Alike ρ φ (st.opened .loop) st' :=
    h.later rfl le_rfl (Nat.le_succ _) rfl le_rfl le_rfl
  -- The first copy stands in the scope of the block, the body in the frame of the loop.
  obtain ⟨_, st₂', hstmts', ⟨σ, hfirst⟩, hcopied⟩ :=
    h₁.inScope hregular hopen.entered (.none _ _ _ hnone) hstmts
  have hsight : st₂.left.inSight = st.inSight :=
    congrArg List.flatten (hblock.grows (checkStmt_total _)).outer
  have hmiddle : State.Alike ρ φ st₂.left (st₂'.opened .loop) :=
    hcopied.later (hsight.trans (h.sees.left.trans hcopied.sees.left.symm)) le_rfl le_rfl rfl le_rfl
      (Nat.le_succ _)
  obtain ⟨cond, hcond', hcond⟩ := condition_unrolled hmiddle hc hcond
  -- The second copy is compared with the body once more.
  obtain ⟨second, _, hbody', ⟨τ, hsecond⟩, hlast⟩ := (block_unrolls h₂).inScope hregular
    (hopen.mix hmiddle) (.none _ _ _ hnone) hbody
  obtain ⟨frame', st₃', hclose'⟩ :=
    State.closes_of_flows (hbody'.grows (checkStmt_total _).inScope).flows
  have hadds : φ.Adds frame.id frame'.id := by
    rw [hclose.id, hclose'.id]
    exact ⟨fun p hp => (h.frames p hp).1.ne, fun p hp => (hcopied.frames p hp).2.ne⟩
  have hwhile : Silent (checkStmt (.whileLoop line' c' (.block ss₂))) st₂'
      (.whileLoop frame' cond second) st₃' :=
    silent_while.2 ⟨frame', _, hcond', _, ⟨_, hbody', hclose'⟩, rfl⟩
  have hnil : Silent (checkStmts []) st₃' [] st₃' := ⟨rfl, rfl⟩
  have hcopies := silent_cons.2 ⟨_, _, silent_block.2 ⟨_, hstmts', rfl⟩, _,
    silent_cons.2 ⟨_, _, hwhile, _, hnil, rfl⟩, rfl⟩
  have hsight' : st₃'.left.inSight = st'.inSight :=
    congrArg List.flatten (hcopies.grows (checkStmts_total _)).outer
  refine ⟨_, _, silent_block.2 ⟨_, (Acts.self (checkStmts_total _)).inScope.silent.2
    ⟨_, hcopies, rfl⟩, rfl⟩, ρ, .unroll hadds (.block hfirst) hsecond hcond, ?_⟩
  have hbehind : State.Alike ρ φ st₁ st₃' := hlast.closed (fun _ hp => hp) hclose hclose'
  exact hbehind.later rfl le_rfl le_rfl
    (hsight'.trans (h.sees.right.trans hbehind.sees.right.symm)) le_rfl le_rfl

theorem nil_unroll : StmtsUnroll [] [] := by
  intro ρ φ st st' st₁ as _ h _ hrun
  cases pure_ok.1 hrun.1
  exact ⟨[], st', ⟨rfl, rfl⟩, ρ, .nil, h⟩

/-- Statements unroll one after the other. -/
theorem cons_unroll (hs : StmtUnrolls s s') (hss : StmtsUnroll ss ss') :
    StmtsUnroll (s :: ss) (s' :: ss') := by
  intro ρ φ st st' st₁ as hregular h hjumps hrun
  obtain ⟨_, _, hfirst, _, hrest, rfl⟩ := silent_cons.1 hrun
  have hgrow := hfirst.grows (checkStmt_total s)
  have hjumpsFirst := hjumps.mono (s.hasJump ·) fun j hj => by simp [Stmt.haveJump, hj]
  have hjumpsRest := hjumps.mono (Stmt.haveJump · ss) fun j hj => by simp [Stmt.haveJump, hj]
  obtain ⟨_, _, hfirst', σ, hfirst, hmiddle⟩ := hs hregular.1 h hjumpsFirst hfirst
  obtain ⟨_, _, hrest', τ, hrest, hbehind⟩ := hss hregular.2 hmiddle
    (hjumpsRest.behind hgrow.flows (hfirst'.grows (checkStmt_total s')).flows) hrest
  exact ⟨_, _, silent_cons.2 ⟨_, _, hfirst', _, hrest', rfl⟩, τ, .cons hfirst hrest, hbehind⟩

theorem nil_groups_unroll : GroupsUnroll [] [] := by
  intro ρ φ line line' seen st st' st₁ as _ h _ hrun
  cases pure_ok.1 hrun.1
  exact ⟨[], st', ⟨rfl, rfl⟩, .nil, h⟩

theorem cons_groups_unroll {ls ls' : List (Option Jminus.Expr)}
    (hls : ls.map (Option.map Expr.unlined) = ls'.map (Option.map Expr.unlined))
    (hss : StmtsUnroll ss ss') (hgs : GroupsUnroll gs gs') :
    GroupsUnroll (.mk ls ss :: gs) (.mk ls' ss' :: gs') := by
  intro ρ φ line line' seen st st' st₁ as hregular h hjumps hrun
  obtain ⟨_, hlabels, _, _, hbody, _, hrest, rfl⟩ := silent_groups.1 hrun
  have hgrow := hbody.grows (checkStmts_total ss).inScope
  have hdefault : ls'.any (·.isNone) = ls.any (·.isNone) := by
    have hnone := congrArg (List.any · Option.isNone) hls
    simpa [List.any_map, Function.comp_def] using hnone.symm
  have hjumpsBody := hjumps.mono (Stmt.haveJump · ss) fun j hj => by simp [SwitchGroup.haveJump, hj]
  have hjumpsRest := hjumps.mono (SwitchGroup.haveJump · gs) fun j hj => by
    simp [SwitchGroup.haveJump, hj]
  obtain ⟨_, _, hbody', ⟨σ, hbody⟩, hmiddle⟩ := hss.inScope hregular.1 h hjumpsBody hbody
  obtain ⟨_, _, hrest', hrest, hbehind⟩ := hgs hregular.2 hmiddle
    (hjumpsRest.behind hgrow.flows (hbody'.grows (checkStmts_total ss').inScope).flows) hrest
  refine ⟨_, _, silent_groups.2 ⟨_, hlabels.unrolled hls, _, _, hbody', _, hrest', rfl⟩, ?_, hbehind⟩
  rw [hdefault]
  exact .cons hbody hrest

theorem nil_catches_unroll : CatchesUnroll [] [] := by
  intro ρ φ st st' st₁ as _ h _ hrun
  cases pure_ok.1 hrun.1
  exact ⟨[], st', ⟨rfl, rfl⟩, .nil, h⟩

theorem cons_catches_unroll (htype : type.text = type'.text) (hname : name.text = name'.text)
    (hss : StmtsUnroll ss ss') (hcs : CatchesUnroll cs cs') :
    CatchesUnroll (.mk type name ss :: cs) (.mk type' name' ss' :: cs') := by
  intro ρ φ st st' st₁ as hregular h hjumps hrun
  obtain ⟨t, ht, hnew, _, st₂, hbody, _, hrest, rfl⟩ := silent_catches.1 hrun
  have hgrow := hbody.grows (checkStmts_total ss).inScope
  have hjumpsBody := hjumps.mono (Stmt.haveJump · ss) fun j hj => by simp [CatchClause.haveJump, hj]
  have hjumpsRest := hjumps.mono (CatchClause.haveJump · cs) fun j hj => by
    simp [CatchClause.haveJump, hj]
  obtain ⟨hadds, hdeclared⟩ := h.entered.add hname t
  obtain ⟨_, st₂', hbody', ⟨τ, hbody⟩, hinner⟩ :=
    hss.inScope hregular.1 hdeclared ⟨hjumpsBody.brk, hjumpsBody.cont⟩ hbody
  have hgrow' := hbody'.grows (checkStmts_total ss').inScope
  have hmiddle : State.Alike ρ φ st₂.left st₂'.left :=
    h.left hinner (List.subset_cons_self _ _) hgrow.outer hgrow'.outer
  obtain ⟨_, _, hrest', hrest, hbehind⟩ :=
    hcs hregular.2 hmiddle (hjumpsRest.behind hgrow.flows hgrow'.flows) hrest
  rw [Catchable, htype] at ht
  exact ⟨_, _, silent_catches.2 ⟨t, ht, h.get?_none hname hnew, _, _, hbody', _, hrest', rfl⟩,
    .cons hadds hbody hrest, hbehind⟩

end

mutual

/-- Unrolled statements are accepted, and checked to alike ones. -/
theorem checkStmt_unrolled : ∀ {s s'}, s.Unrolled s' → StmtUnrolls s s'
  | _, _, .expr he => expr_unrolls he
  | _, _, .var htype hname hinit => var_unrolls htype hname hinit
  | _, _, .block hss => block_unrolls (checkStmts_unrolled hss)
  | _, _, .ifThen hc hs => ifThen_unrolls hc (checkStmt_unrolled hs)
  | _, _, .ifElse hc hs ht => ifElse_unrolls hc (checkStmt_unrolled hs) (checkStmt_unrolled ht)
  | _, _, .whileLoop hc hs => while_unrolls hc (checkStmt_unrolled hs)
  | _, _, .doLoop hs hc => do_unrolls (checkStmt_unrolled hs) hc
  | _, _, .forLoop his hc hus hs =>
    for_unrolls (checkStmts_unrolled his) hc hus (checkStmt_unrolled hs)
  | _, _, .switch he hgs => switch_unrolls he (checkGroups_unrolled hgs)
  | _, _, .brk => brk_unrolls
  | _, _, .cont => cont_unrolls
  | _, _, .ret he => ret_unrolls he
  | _, _, .throw he => throw_unrolls he
  | _, _, .tryCatch hss hcs => try_unrolls (checkStmts_unrolled hss) (checkCatches_unrolled hcs)
  | _, _, .tryFinally hss hcs hfs =>
    tryFinally_unrolls (checkStmts_unrolled hss) (checkCatches_unrolled hcs)
      (checkStmts_unrolled hfs)
  | _, _, .empty => empty_unrolls
  | _, _, .unroll hnone h₁ h₂ hc =>
    doLoop_unrolls hnone (checkStmts_unrolled h₁) (checkStmts_unrolled h₂) hc

theorem checkStmts_unrolled : ∀ {ss ss'}, Stmt.AllUnrolled ss ss' → StmtsUnroll ss ss'
  | _, _, .nil => nil_unroll
  | _, _, .cons hs hss => cons_unroll (checkStmt_unrolled hs) (checkStmts_unrolled hss)

theorem checkGroups_unrolled : ∀ {gs gs'}, SwitchGroup.AllUnrolled gs gs' → GroupsUnroll gs gs'
  | _, _, .nil => nil_groups_unroll
  | _, _, .cons hls hss hgs =>
    cons_groups_unroll hls (checkStmts_unrolled hss) (checkGroups_unrolled hgs)

theorem checkCatches_unrolled : ∀ {cs cs'}, CatchClause.AllUnrolled cs cs' → CatchesUnroll cs cs'
  | _, _, .nil => nil_catches_unroll
  | _, _, .cons htype hname hss hcs =>
    cons_catches_unroll htype hname (checkStmts_unrolled hss) (checkCatches_unrolled hcs)

end

/-- If there is nothing to report about a program, there is nothing to report about what it is
unrolled to, and the two are checked to alike trees. -/
theorem check_unrolled {program program' : List Jminus.Stmt} {checked : Program}
    (h : Stmt.AllUnrolled program program') (hregular : Stmt.AllRegular program)
    (hcheck : check program = .ok checked) (hd : checked.diagnostics = []) :
    ∃ checked' σ, check program' = .ok checked' ∧ checked'.diagnostics = [] ∧
      Stmt.AllAlike [] {} checked.stmts checked'.stmts σ := by
  obtain ⟨stmts, st, hrun, _, heq⟩ := check_run program
  obtain ⟨stmts', st', hrun', _, heq'⟩ := check_run program'
  cases hcheck.symm.trans heq
  have hstart : State.Alike [] {} {} {} := ⟨.nil, ⟨rfl, rfl, by simp⟩, by simp, by simp⟩
  have hjumps : State.Bridges {} (Stmt.haveJump · program) {} {} := by
    constructor
    · rintro _ x ⟨⟩
    · rintro _ x ⟨⟩
  obtain ⟨_, _, hsilent, σ, halike, _⟩ := checkStmts_unrolled h hregular hstart hjumps ⟨hrun, hd⟩
  cases hrun'.symm.trans hsilent.1
  exact ⟨_, σ, heq', hsilent.2, halike⟩

end Jminus.Checked
