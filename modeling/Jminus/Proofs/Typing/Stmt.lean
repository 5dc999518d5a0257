import Jminus.Proofs.Typing.Silent
import Mathlib

/-!
Statements about which analysis has nothing to report are sound.

The one thing that analysis does not look at is what stands at the head of a for loop; there the
parser puts declarations and expressions only.
-/
namespace Jminus

def Stmt.isSimple : Stmt → Bool
  | .expr _ | .var .. => true
  | _ => false

mutual

/-- Every for loop starts with declarations and expressions only. -/
def Stmt.Regular : Stmt → Prop
  | .block body => Stmt.AllRegular body
  | .ifElse _ _ thenBranch none => thenBranch.Regular
  | .ifElse _ _ thenBranch (some elseBranch) => thenBranch.Regular ∧ elseBranch.Regular
  | .whileLoop _ _ body | .doLoop _ body _ => body.Regular
  | .forLoop _ init _ _ body => init.all Stmt.isSimple = true ∧ body.Regular
  | .switch _ _ groups => SwitchGroup.AllRegular groups
  | .tryCatch body catches none => Stmt.AllRegular body ∧ CatchClause.AllRegular catches
  | .tryCatch body catches (some cleanup) =>
    Stmt.AllRegular body ∧ CatchClause.AllRegular catches ∧ Stmt.AllRegular cleanup
  | .expr _ | .var .. | .brk _ | .cont _ | .ret .. | .throw .. | .empty => True

def Stmt.AllRegular : List Stmt → Prop
  | [] => True
  | s :: ss => s.Regular ∧ Stmt.AllRegular ss

def SwitchGroup.AllRegular : List SwitchGroup → Prop
  | [] => True
  | .mk _ body :: groups => Stmt.AllRegular body ∧ SwitchGroup.AllRegular groups

def CatchClause.AllRegular : List CatchClause → Prop
  | [] => True
  | .mk _ _ body :: clauses => Stmt.AllRegular body ∧ CatchClause.AllRegular clauses

end

theorem Stmt.regular_of_simple {s : Stmt} (h : s.isSimple = true) : s.Regular := by
  cases s with
  | expr _ | var _ _ _ => trivial
  | _ => cases h

theorem Stmt.allRegular_of_simple {ss : List Stmt} (h : ss.all Stmt.isSimple = true) :
    Stmt.AllRegular ss := by
  induction ss with
  | nil => trivial
  | cons s ss ih =>
    rw [List.all_cons, Bool.and_eq_true] at h
    exact ⟨Stmt.regular_of_simple h.1, ih h.2⟩

namespace Checked

open Analysis

theorem add_inSight (env : Env) (name : String) (type : Ty) :
    (env.add name type).2.scopes.flatten = (env.add name type).1 :: env.scopes.flatten := by
  simp only [Env.add, Env.bind, Env.allocate]
  cases env.scopes <;> rfl

namespace State

structure Ok (slots : Slots) (st : State) : Prop where
  size : st.env.slots = slots.length
  vars : ∀ v ∈ st.inSight, slots.Holds v
  ids : (st.flows.frames.map (·.id)).Nodup
  fresh : ∀ id ∈ st.flows.frames.map (·.id), id < st.frames

namespace Ok

variable {slots slots' : Slots} {st st' : State}

theorem storable (h : st.Ok slots) : Storable st.env.scopes.flatten :=
  fun v hv => (h.vars v hv).2

theorem enter (h : st.Ok slots) : st.entered.Ok slots := ⟨h.size, h.vars, h.ids, h.fresh⟩

/-- Variables go out of sight with their scope and keep their slots. -/
theorem leave (h : st.Ok slots) : st.left.Ok slots := by
  refine ⟨h.size, fun v hv => h.vars v ?_, h.ids, h.fresh⟩
  exact ((List.tail_sublist st.env.scopes).flatten).subset hv

/-- A new frame has a number of its own. -/
theorem openFrame (h : st.Ok slots) (kind : FrameKind) : (st.opened kind).Ok slots := by
  refine ⟨h.size, h.vars, ?_, ?_⟩
  · exact List.nodup_cons.2 ⟨fun hmem => absurd rfl (h.fresh _ hmem).ne, h.ids⟩
  · rintro id (_ | ⟨_, hid⟩)
    · exact Nat.lt_succ_self _
    · exact (h.fresh id hid).trans (Nat.lt_succ_self _)

/-- Frames around the one that is closed stay. -/
theorem closed {kind : FrameKind} {st₀ : State} {frame : Frame} (h : st.Ok slots)
    (hclose : st₀.Closes kind st frame st') : st'.Ok slots ∧ st'.inSight = st.inSight := by
  have hids := h.ids
  have hfresh := h.fresh
  rw [hclose.frames] at hids hfresh
  rw [hclose.same]
  exact ⟨⟨h.size, h.vars, (List.nodup_cons.1 hids).2,
    fun id hid => hfresh id (List.mem_cons_of_mem _ hid)⟩, rfl⟩

theorem marked {flows : FlowStack} (h : st.Ok slots)
    (hle : Frame.AllLe st.flows.frames flows.frames) : { st with flows }.Ok slots := by
  refine ⟨h.size, h.vars, ?_, ?_⟩
  · rw [hle.map_id]
    exact h.ids
  · rw [hle.map_id]
    exact h.fresh

/-- A new variable in a new slot. -/
theorem declares (h : st.Ok slots) (name : Name) {type : Ty} (ht : type.isStorable = true) :
    (st.adds name type).Ok (slots ++ [some type]) ∧
      (slots ++ [some type]).Holds (st.env.add name.text type).1 := by
  have hv : (slots ++ [some type]).Holds (st.env.add name.text type).1 := by
    refine ⟨?_, ht⟩
    change (slots ++ [some type])[st.env.slots]? = _
    rw [h.size, List.getElem?_concat_length]
    rfl
  refine ⟨⟨?_, ?_, h.ids, h.fresh⟩, hv⟩
  · change st.env.slots + 1 = _
    simp [h.size]
  · intro v hmem
    rw [State.inSight, State.adds, add_inSight, List.mem_cons] at hmem
    rcases hmem with rfl | hmem
    · exact hv
    · exact (h.vars v hmem).mono (List.prefix_append _ _)

/-- A slot that no variable has. -/
theorem allocates (h : st.Ok slots) :
    { st with env := st.env.allocate.2 }.Ok (slots ++ [none]) := by
  refine ⟨?_, fun v hv => (h.vars v hv).mono (List.prefix_append _ _), h.ids, h.fresh⟩
  change st.env.slots + 1 = _
  simp [h.size]

end Ok

end State

section

variable {slots : Slots} {st st' : State} {e : Jminus.Expr} {a : Expr}

theorem sound_of_checkExpr (hok : st.Ok slots) (h : checkExpr st.env e = (a, [])) :
    a.Sound st.inSight := by
  have hsound := checkExpr_sound hok.storable e (congrArg Prod.snd h)
  rwa [h] at hsound

theorem sound_of_checkExprs {es : List Jminus.Expr} {as : List Expr} (hok : st.Ok slots)
    (h : checkExprs st.env es = (as, [])) : Expr.AllSound st.inSight as := by
  have hsound := checkExprs_sound hok.storable es (congrArg Prod.snd h)
  rwa [h] at hsound

theorem ConditionIn.sound (h : ConditionIn st.env e a) (hok : st.Ok slots) :
    a.Condition st.inSight := by
  have hsound := sound_of_checkExpr hok h.1
  exact ⟨hsound, h.2.resolve_left (hsound.type_ne_any hok.storable)⟩

variable {type : Name} {t : Ty} {frame : Frame} {seen : Labels}

theorem Written.storable (h : Written type t) : t.isStorable = true := by
  obtain ⟨h, hvoid⟩ := h
  unfold Ty.ofName? at h
  split at h
  · rename_i p hp
    cases h
    have hmem := List.mem_of_find?_eq_some hp
    simp only [Ty.primitives, List.mem_cons, List.not_mem_nil, or_false] at hmem
    rcases hmem with rfl | rfl | rfl | rfl | rfl | rfl <;> first | rfl | exact absurd rfl hvoid
  · obtain ⟨c, _, rfl⟩ := Option.map_eq_some_iff.1 h
    rfl

theorem Catchable.storable (h : Catchable type t) : t.isStorable = true := by
  have ht := h.2
  cases t with
  | ref c => rfl
  | _ => cases ht

theorem named?_of_mem {frames : List Frame} (hids : (frames.map (·.id)).Nodup) {f : Frame}
    (hf : f ∈ frames) : Frame.named? frames (some f.id) = some f := by
  induction frames with
  | nil => cases hf
  | cons g frames ih =>
    obtain ⟨hg, hids⟩ := List.nodup_cons.1 hids
    simp only [Frame.named?, Option.bind_some, List.find?_cons]
    rcases List.mem_cons.1 hf with rfl | hf
    · simp
    · have hne : g.id ≠ f.id := fun h => hg (List.mem_map.2 ⟨f, hf, h.symm⟩)
      simp only [hne, decide_false]
      exact ih hids hf

/-- A break finds its frame, which can be left. -/
theorem break_named (htarget : st.flows.breakTarget? = some frame) :
    ∃ f, Frame.named? (st.flows.markBreak frame.id).frames (some frame.id) = some f ∧
      f.Breakable := by
  refine ⟨{ frame with hasBreak := true }, ?_, .inr rfl⟩
  obtain ⟨rest, hframes⟩ := List.head?_eq_some_iff.1 htarget
  simp [Frame.named?, FlowStack.markBreak, FlowStack.update, hframes]

theorem continue_named (hok : st.Ok slots) (htarget : st.flows.continueTarget? = some frame) :
    ∃ f, Frame.named? (st.flows.markContinue frame.id).frames (some frame.id) = some f ∧
      f.kind = .loop := by
  have hnamed := named?_of_mem hok.ids (List.mem_of_find?_eq_some htarget)
  obtain ⟨g, hg, hfg⟩ := (Total.markContinue_frames st.flows frame.id).named? hnamed
  refine ⟨g, hg, ?_⟩
  rw [← hfg.kind]
  exact of_decide_eq_true (List.find?_eq_some_iff_append.1 htarget).1

/-- What a run of labels adds to those met before: its values, none of them for a second time, and
perhaps a default where there was none. -/
structure Adds (seen : Labels) (values : List Int32) (isDefault : Bool) (seen' : Labels) :
    Prop where
  values : seen'.values = seen.values ++ values
  nodup : seen.values.Nodup → seen'.values.Nodup
  hasDefault : seen'.hasDefault = (seen.hasDefault || isDefault)
  once : seen.hasDefault = true → isDefault = false

theorem Adds.refl (seen : Labels) : Adds seen [] false seen :=
  ⟨by simp, fun h => h, by simp, fun _ => rfl⟩

/-- Labels are added one run after the other. -/
theorem Adds.trans {a b c : Labels} {vs ws : List Int32} {d e : Bool} (hab : Adds a vs d b)
    (hbc : Adds b ws e c) : Adds a (vs ++ ws) (d || e) c := by
  refine ⟨?_, fun h => hbc.nodup (hab.nodup h), ?_, fun ha => ?_⟩
  · rw [hbc.values, hab.values, List.append_assoc]
  · rw [hbc.hasDefault, hab.hasDefault, Bool.or_assoc]
  · have hb : b.hasDefault = true := by rw [hab.hasDefault, ha, Bool.true_or]
    rw [hab.once ha, hbc.once hb, Bool.or_false]

theorem LabelRead.adds {l : Option Jminus.Expr} {r : Option Int32 × Labels} (h : LabelRead seen l r) :
    Adds seen r.1.toList l.isNone r.2 := by
  cases h with
  | default hseen => exact ⟨by simp, fun h => h, by simp [hseen], by simp [hseen]⟩
  | @value _ _ v _ hnew =>
    refine ⟨rfl, fun hnodup => ?_, by simp, fun _ => rfl⟩
    exact List.nodup_append.2 ⟨hnodup, List.nodup_singleton v, by
      rintro a ha b hb rfl
      exact hnew (List.mem_singleton.1 hb ▸ ha)⟩

theorem LabelsRead.adds {ls : List (Option Jminus.Expr)} {r : List Int32 × Labels}
    (h : LabelsRead seen ls r) : Adds seen r.1 (ls.any (·.isNone)) r.2 := by
  induction h with
  | nil => exact .refl _
  | cons hl _ ih => exact hl.adds.trans ih

/-- What is found in a scope still holds behind it, and the variables in sight are as before. -/
theorem inScope_sound {α : Type} {x : Analysis α} {a : α} {P : Slots → List Frame → Prop}
    (hx : Total x) (h : Silent (inScope x) st a st')
    (body : ∀ st₁, Silent x st.entered a st₁ →
      ∃ slots', slots <+: slots' ∧ st₁.Ok slots' ∧ P slots' st₁.flows.frames) :
    ∃ slots', slots <+: slots' ∧ st'.Ok slots' ∧ st'.inSight = st.inSight ∧
      P slots' st'.flows.frames := by
  obtain ⟨st₁, hrun, rfl⟩ := (Acts.self hx).inScope.silent.1 h
  obtain ⟨slots', hle, hok', hP⟩ := body st₁ hrun
  exact ⟨slots', hle, hok'.leave, congrArg List.flatten (hrun.grows hx).outer, hP⟩

end

/-- A simple statement stays simple. -/
theorem checkStmts_simple {ss : List Jminus.Stmt} {st st' : State} {as : List Stmt}
    (hsimple : ss.all Jminus.Stmt.isSimple = true) (h : Silent (checkStmts ss) st as st') :
    as.all Stmt.isSimple = true := by
  induction ss generalizing st as with
  | nil =>
    cases pure_ok.1 h.1
    rfl
  | cons s ss ih =>
    rw [List.all_cons, Bool.and_eq_true] at hsimple
    obtain ⟨b, st₁, hs, bs, hss, rfl⟩ := silent_cons.1 h
    rw [List.all_cons, Bool.and_eq_true]
    refine ⟨?_, ih hsimple.2 hss⟩
    cases s with
    | expr e =>
      obtain ⟨_, _, rfl, _⟩ := silent_expr.1 hs
      rfl
    | var type name init =>
      cases init with
      | none =>
        obtain ⟨_, _, _, rfl, _⟩ := silent_var.1 hs
        rfl
      | some init =>
        obtain ⟨_, _, _, _, _, _, rfl, _⟩ := silent_varInit.1 hs
        rfl
    | _ => cases hsimple.1

/-- Without reports, a statement is checked soundly. -/
def StmtJudged (s : Jminus.Stmt) : Prop :=
  ∀ ⦃slots : Slots⦄ ⦃st st' : State⦄ ⦃a : Stmt⦄, s.Regular → st.Ok slots →
    Silent (checkStmt s) st a st' →
    ∃ slots', slots <+: slots' ∧ st'.Ok slots' ∧ st'.inSight = a.declares ++ st.inSight ∧
      a.Sound slots' st'.flows.frames st.inSight

/-- Without reports, statements one after the other are checked soundly. -/
def StmtsJudged (ss : List Jminus.Stmt) : Prop :=
  ∀ ⦃slots : Slots⦄ ⦃st st' : State⦄ ⦃as : List Stmt⦄, Jminus.Stmt.AllRegular ss → st.Ok slots →
    Silent (checkStmts ss) st as st' →
    ∃ slots', slots <+: slots' ∧ st'.Ok slots' ∧ st'.inSight = Stmt.inSight st.inSight as ∧
      Stmt.AllSound slots' st'.flows.frames st.inSight as

def GroupsJudged (line : Nat) (gs : List Jminus.SwitchGroup) : Prop :=
  ∀ ⦃slots : Slots⦄ ⦃st st' : State⦄ ⦃seen : Labels⦄ ⦃as : List SwitchGroup⦄,
    Jminus.SwitchGroup.AllRegular gs → st.Ok slots → Silent (checkGroups line seen gs) st as st' →
    ∃ slots', slots <+: slots' ∧ st'.Ok slots' ∧ st'.inSight = st.inSight ∧
      SwitchGroup.AllSound slots' st'.flows.frames st.inSight as ∧
      (seen.values.Nodup → (seen.values ++ as.flatMap SwitchGroup.values).Nodup) ∧
      (if seen.hasDefault then 1 else 0) + (as.filter SwitchGroup.isDefault).length ≤ 1

def CatchesJudged (cs : List Jminus.CatchClause) : Prop :=
  ∀ ⦃slots : Slots⦄ ⦃st st' : State⦄ ⦃as : List CatchClause⦄,
    Jminus.CatchClause.AllRegular cs → st.Ok slots → Silent (checkCatches cs) st as st' →
    ∃ slots', slots <+: slots' ∧ st'.Ok slots' ∧ st'.inSight = st.inSight ∧
      CatchClause.AllSound slots' st'.flows.frames st.inSight as

section

variable {slots : Slots} {st st' : State}

/-- What is sound in a scope is sound around it. -/
theorem StmtJudged.inScope {s : Jminus.Stmt} {a : Stmt} (hs : StmtJudged s) (hreg : s.Regular)
    (hok : st.Ok slots) (h : Silent (inScope (checkStmt s)) st a st') :
    ∃ slots', slots <+: slots' ∧ st'.Ok slots' ∧ st'.inSight = st.inSight ∧
      a.Sound slots' st'.flows.frames st.inSight := by
  refine inScope_sound (P := fun slots' frames => a.Sound slots' frames st.inSight)
    (checkStmt_total s) h fun st₁ hrun => ?_
  obtain ⟨slots', hle, hok', _, hsound⟩ := hs hreg hok.enter hrun
  exact ⟨slots', hle, hok', hsound⟩

theorem StmtsJudged.inScope {ss : List Jminus.Stmt} {as : List Stmt} (hs : StmtsJudged ss)
    (hreg : Jminus.Stmt.AllRegular ss) (hok : st.Ok slots)
    (h : Silent (inScope (checkStmts ss)) st as st') :
    ∃ slots', slots <+: slots' ∧ st'.Ok slots' ∧ st'.inSight = st.inSight ∧
      Stmt.AllSound slots' st'.flows.frames st.inSight as := by
  refine inScope_sound (P := fun slots' frames => Stmt.AllSound slots' frames st.inSight as)
    (checkStmts_total ss) h fun st₁ hrun => ?_
  obtain ⟨slots', hle, hok', _, hsound⟩ := hs hreg hok.enter hrun
  exact ⟨slots', hle, hok', hsound⟩

end

mutual

/-- A statement without a report is sound. -/
theorem checkStmt_sound : ∀ s, StmtJudged s
  | .expr e, slots, st, st', a, _, hok, h => by
    obtain ⟨e', he, rfl, rfl⟩ := silent_expr.1 h
    exact ⟨slots, List.prefix_refl _, hok, rfl, sound_of_checkExpr hok he⟩
  | .var type name none, slots, st, st', a, _, hok, h => by
    obtain ⟨t, ht, _, rfl, rfl⟩ := silent_var.1 h
    obtain ⟨hok', hv⟩ := hok.declares name ht.storable
    exact ⟨_, List.prefix_append _ _, hok', add_inSight _ _ _, hv⟩
  | .var type name (some init), slots, st, st', a, _, hok, h => by
    obtain ⟨t, ht, e, he, hfits, _, rfl, rfl⟩ := silent_varInit.1 h
    obtain ⟨hok', hv⟩ := hok.declares name ht.storable
    exact ⟨_, List.prefix_append _ _, hok', add_inSight _ _ _, hv, sound_of_checkExpr hok he, hfits⟩
  | .block body, slots, st, st', a, hreg, hok, h => by
    obtain ⟨b, hbody, rfl⟩ := silent_block.1 h
    exact (checkStmts_sound body).inScope hreg hok hbody
  | .ifElse line cond thenBranch none, slots, st, st', a, hreg, hok, h => by
    obtain ⟨c, hcond, b, hthen, rfl⟩ := silent_ifThen.1 h
    obtain ⟨slots', hle, hok', hsight, hsound⟩ := (checkStmt_sound thenBranch).inScope hreg hok hthen
    exact ⟨slots', hle, hok', hsight, hcond.sound hok, hsound⟩
  | .ifElse line cond thenBranch (some elseBranch), slots, st, st', a, hreg, hok, h => by
    obtain ⟨c, hcond, b, st₁, hthen, d, helse, rfl⟩ := silent_ifElse.1 h
    have hgrow := helse.grows (checkStmt_total elseBranch).inScope
    obtain ⟨slots₂, hle₂, hok₂, hsight₂, hthen⟩ :=
      (checkStmt_sound thenBranch).inScope hreg.1 hok hthen
    obtain ⟨slots₃, hle₃, hok₃, hsight₃, helse⟩ :=
      (checkStmt_sound elseBranch).inScope hreg.2 hok₂ helse
    rw [hsight₂] at hsight₃ helse
    exact ⟨slots₃, hle₂.trans hle₃, hok₃, hsight₃, hcond.sound hok, hthen.mono hle₃ hgrow.flows, helse⟩
  | .whileLoop line cond body, slots, st, st', a, hreg, hok, h => by
    obtain ⟨frame, c, hcond, b, ⟨st₁, hbody, hclose⟩, rfl⟩ := silent_while.1 h
    have hok₁ := hok.openFrame .loop
    obtain ⟨slots', hle, hok', hsight, hsound⟩ := (checkStmt_sound body).inScope hreg hok₁ hbody
    obtain ⟨hok', hsight'⟩ := hok'.closed hclose
    rw [hclose.frames] at hsound
    exact ⟨slots', hle, hok', hsight'.trans hsight, hclose.le.kind.symm, hcond.sound hok₁, hsound⟩
  | .doLoop line body cond, slots, st, st', a, hreg, hok, h => by
    obtain ⟨frame, b, c, ⟨st₁, hbody, hcond, hclose⟩, rfl⟩ := silent_do.1 h
    obtain ⟨slots', hle, hok', hsight, hsound⟩ :=
      (checkStmt_sound body).inScope hreg (hok.openFrame .loop) hbody
    have hcond := hcond.sound hok'
    obtain ⟨hok', hsight'⟩ := hok'.closed hclose
    rw [hclose.frames] at hsound
    rw [hsight] at hcond
    exact ⟨slots', hle, hok', hsight'.trans hsight, hclose.le.kind.symm, hsound, hcond⟩
  | .forLoop line init cond update body, slots, st, st', a, ⟨hsimple, hreg⟩, hok, h => by
    obtain ⟨frame, is, st₁, hinit, c, hcond, us, hupdate, b, st₂, hbody, hclose, rfl⟩ :=
      silent_for.1 h
    have hgrow := hbody.grows (checkStmt_total body).inScope
    obtain ⟨slots₁, hle₁, hok₁, hsight₁, hinits⟩ := checkStmts_sound init
      (Jminus.Stmt.allRegular_of_simple hsimple) (hok.openFrame .loop).enter hinit
    obtain ⟨slots₂, hle₂, hok₂, _, hbody'⟩ := (checkStmt_sound body).inScope hreg hok₁ hbody
    have hcond' : ∀ e ∈ c, e.Condition st₁.inSight := by
      rintro e rfl
      cases hcond with
      | some hcond => exact hcond.sound hok₁
    have hupdate' := sound_of_checkExprs hok₁ hupdate
    obtain ⟨hok₃, hsight₃⟩ := hok₂.leave.closed hclose
    have hinits := Stmt.AllSound.mono hle₂ hgrow.flows hinits
    have hframes : st₂.flows.frames = frame :: st'.flows.frames := hclose.frames
    rw [hframes] at hinits hbody'
    rw [hsight₁] at hcond' hupdate' hbody'
    refine ⟨slots₂, hle₁.trans hle₂, hok₃, hsight₃.trans ?_, hclose.le.kind.symm,
      checkStmts_simple hsimple hinit, hinits, hcond', hupdate', hbody'⟩
    exact congrArg List.flatten (hgrow.outer.trans (hinit.grows (checkStmts_total init)).outer)
  | .switch line subject groups, slots, st, st', a, hreg, hok, h => by
    obtain ⟨frame, e, he, htype, bs, st₁, hgroups, hclose, rfl⟩ := silent_switch.1 h
    obtain ⟨slots', hle, hok', hsight, hsound, hnodup, hdefault⟩ :=
      checkGroups_sound groups hreg (hok.openFrame .switch) hgroups
    have hsubject := sound_of_checkExpr hok he
    obtain ⟨hok', hsight'⟩ := hok'.closed hclose
    rw [hclose.frames] at hsound
    refine ⟨slots', hle, hok', hsight'.trans hsight, hclose.le.kind.symm, hsubject,
      htype.resolve_left (hsubject.type_ne_any hok.storable), ?_, ?_, hsound⟩
    · simpa using hnodup List.nodup_nil
    · simpa using hdefault
  | .brk line, slots, st, st', a, _, hok, h => by
    obtain ⟨frame, htarget, rfl, rfl⟩ := silent_brk.1 h
    exact ⟨slots, List.prefix_refl _, hok.marked (Total.markBreak_frames _ _), rfl,
      break_named htarget⟩
  | .cont line, slots, st, st', a, _, hok, h => by
    obtain ⟨frame, htarget, rfl, rfl⟩ := silent_cont.1 h
    exact ⟨slots, List.prefix_refl _, hok.marked (Total.markContinue_frames _ _), rfl,
      continue_named hok htarget⟩
  | .ret _ value, slots, st, st', a, _, hok, h => by
    obtain ⟨_, rfl, rfl⟩ := silent_ret.1 h
    exact ⟨slots, List.prefix_refl _, hok, rfl, trivial⟩
  | .throw line value, slots, st, st', a, _, hok, h => by
    obtain ⟨e, he, hthrown, rfl, rfl⟩ := silent_throw.1 h
    have hsound := sound_of_checkExpr hok he
    exact ⟨slots, List.prefix_refl _, hok, rfl, hsound,
      hthrown.resolve_left (hsound.type_ne_any hok.storable)⟩
  | .tryCatch body catches none, slots, st, st', a, hreg, hok, h => by
    obtain ⟨b, st₁, hbody, cs, hcatches, rfl⟩ := silent_tryCatch.1 h
    have hgrow := hcatches.grows (checkCatches_total catches)
    obtain ⟨slots₁, hle₁, hok₁, hsight₁, hbody⟩ :=
      (checkStmts_sound body).inScope hreg.1 hok hbody
    obtain ⟨slots₂, hle₂, hok₂, hsight₂, hcatches⟩ := checkCatches_sound catches hreg.2 hok₁ hcatches
    rw [hsight₁] at hsight₂ hcatches
    exact ⟨slots₂, hle₁.trans hle₂, hok₂, hsight₂, Stmt.AllSound.mono hle₂ hgrow.flows hbody,
      hcatches, trivial⟩
  | .tryCatch body catches (some cleanup), slots, st, st', a, hreg, hok, h => by
    obtain ⟨b, st₁, hbody, cs, st₂, hcatches, f, st₃, hcleanup, rfl, rfl⟩ := silent_tryFinally.1 h
    have hgrow₃ := hcleanup.grows (checkStmts_total cleanup).inScope
    have hgrow₂ := hcatches.grows (checkCatches_total catches)
    obtain ⟨slots₁, hle₁, hok₁, hsight₁, hbody'⟩ :=
      (checkStmts_sound body).inScope hreg.1 hok hbody
    obtain ⟨slots₂, hle₂, hok₂, hsight₂, hcatches'⟩ :=
      checkCatches_sound catches hreg.2.1 hok₁ hcatches
    obtain ⟨slots₃, hle₃, hok₃, hsight₃, hcleanup'⟩ :=
      (checkStmts_sound cleanup).inScope hreg.2.2 hok₂ hcleanup
    rw [hsight₁] at hsight₂ hcatches'
    rw [hsight₂] at hsight₃ hcleanup'
    have hle₄ : slots₃ <+: slots₃ ++ [none] := List.prefix_append _ _
    refine ⟨slots₃ ++ [none], ((hle₁.trans hle₂).trans hle₃).trans hle₄, hok₃.allocates, hsight₃,
      Stmt.AllSound.mono ((hle₂.trans hle₃).trans hle₄) (hgrow₂.flows.trans hgrow₃.flows) hbody',
      CatchClause.AllSound.mono (hle₃.trans hle₄) hgrow₃.flows hcatches', ?_, ?_⟩
    · rw [hok₃.size, List.getElem?_concat_length]
    · rw [hok₃.size, List.take_left]
      exact hcleanup'
  | .empty, slots, st, st', a, _, hok, h => by
    obtain ⟨rfl, rfl⟩ := silent_empty.1 h
    exact ⟨slots, List.prefix_refl _, hok, rfl, trivial⟩

theorem checkStmts_sound : ∀ ss, StmtsJudged ss
  | [], slots, st, st', as, _, hok, h => by
    cases pure_ok.1 h.1
    exact ⟨slots, List.prefix_refl _, hok, rfl, trivial⟩
  | s :: ss, slots, st, st', as, ⟨hs, hss⟩, hok, h => by
    obtain ⟨b, st₁, hrun, bs, hruns, rfl⟩ := silent_cons.1 h
    obtain ⟨slots₁, hle₁, hok₁, hsight₁, hsound⟩ := checkStmt_sound s hs hok hrun
    obtain ⟨slots₂, hle₂, hok₂, hsight₂, hsounds⟩ := checkStmts_sound ss hss hok₁ hruns
    rw [hsight₁] at hsight₂ hsounds
    exact ⟨slots₂, hle₁.trans hle₂, hok₂, hsight₂,
      hsound.mono hle₂ (hruns.grows (checkStmts_total ss)).flows, hsounds⟩

theorem checkGroups_sound {line : Nat} : ∀ gs, GroupsJudged line gs
  | [], slots, st, st', seen, as, _, hok, h => by
    cases pure_ok.1 h.1
    refine ⟨slots, List.prefix_refl _, hok, rfl, trivial, by simp, ?_⟩
    cases seen.hasDefault <;> simp
  | .mk ls body :: groups, slots, st, st', seen, as, ⟨hreg, hregs⟩, hok, h => by
    obtain ⟨r, hlabels, b, st₁, hbody, bs, hrest, rfl⟩ := silent_groups.1 h
    have hgrow := hrest.grows (checkGroups_total line r.2 groups)
    have hadds := hlabels.adds
    obtain ⟨slots₂, hle₂, hok₂, hsight₂, hbody'⟩ := (checkStmts_sound body).inScope hreg hok hbody
    obtain ⟨slots₃, hle₃, hok₃, hsight₃, hrest', hnodup, hdefault⟩ :=
      checkGroups_sound groups hregs hok₂ hrest
    rw [hsight₂] at hsight₃ hrest'
    refine ⟨slots₃, hle₂.trans hle₃, hok₃, hsight₃,
      ⟨Stmt.AllSound.mono hle₃ hgrow.flows hbody', hrest'⟩, fun hseen => ?_, ?_⟩
    · have := hnodup (hadds.nodup hseen)
      rwa [hadds.values, List.append_assoc] at this
    · have honce := hadds.once
      rw [hadds.hasDefault] at hdefault
      simp only [List.filter_cons, SwitchGroup.isDefault]
      cases hl : ls.any (·.isNone) <;> cases hs : seen.hasDefault <;> simp_all

theorem checkCatches_sound : ∀ cs, CatchesJudged cs
  | [], slots, st, st', as, _, hok, h => by
    cases pure_ok.1 h.1
    exact ⟨slots, List.prefix_refl _, hok, rfl, trivial⟩
  | .mk type name body :: clauses, slots, st, st', as, ⟨hreg, hregs⟩, hok, h => by
    obtain ⟨t, ht, _, b, st₁, hbody, ds, hrest, rfl⟩ := silent_catches.1 h
    obtain ⟨hok₁, hv⟩ := hok.enter.declares name ht.storable
    obtain ⟨slots₁, hle₁, hok₁, hsight₁, hbody'⟩ := (checkStmts_sound body).inScope hreg hok₁ hbody
    obtain ⟨slots₂, hle₂, hok₂, hsight₂, hsounds⟩ :=
      checkCatches_sound clauses hregs hok₁.leave hrest
    have hleft : st₁.left.inSight = st.inSight :=
      congrArg List.flatten (hbody.grows (checkStmts_total body).inScope).outer
    rw [hleft] at hsight₂ hsounds
    rw [State.inSight, State.adds, add_inSight] at hbody'
    refine ⟨slots₂, (List.prefix_append _ _).trans (hle₁.trans hle₂), hok₂, hsight₂,
      hv.mono (hle₁.trans hle₂), ht.2, ?_, hsounds⟩
    exact Stmt.AllSound.mono hle₂ (hrest.grows (checkCatches_total clauses)).flows hbody'

end

/-- A program about which there is nothing to report is sound, with as many slots as it says. -/
theorem check_sound {program : List Jminus.Stmt} {checked : Program}
    (hreg : Jminus.Stmt.AllRegular program) (h : check program = .ok checked)
    (hd : checked.diagnostics = []) :
    ∃ slots : Slots, slots.length = checked.slots ∧ Stmt.AllSound slots [] [] checked.stmts := by
  obtain ⟨stmts, st, hrun, hgrow, hcheck⟩ := check_run program
  cases h.symm.trans hcheck
  have hstart : State.Ok [] {} := ⟨rfl, by simp [State.inSight], by simp, by simp⟩
  obtain ⟨slots, _, hok, _, hsound⟩ := checkStmts_sound program hreg hstart ⟨hrun, hd⟩
  rw [List.forall₂_nil_left_iff.1 hgrow.flows] at hsound
  exact ⟨slots, hok.size.symm, hsound⟩

end Checked

end Jminus
