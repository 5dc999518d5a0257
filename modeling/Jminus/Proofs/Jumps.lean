import Jminus.Proofs.Shapes
import Jminus.Proofs.Typing.Total
import Mathlib

/-!
What breaks and continues are bound to.

`Bound` says it by the text alone: a break belongs to the innermost loop or switch around it, a
continue to the innermost loop. Analysis keeps a stack instead and marks the frames on it. Whatever
statements it is given, it binds every jump as `Bound` says, leaves the stack as it found it, and
marks a frame if and only if some jump is bound to it.
-/
namespace Jminus

/-- What tells a loop or switch around a statement from the others: its number and its kind. -/
def Frame.tag (f : Frame) : Nat × FrameKind := (f.id, f.kind)

namespace Checked

open Analysis

mutual

/-- A statement and what it was checked to, where the loops and switches `around` enclose it, the
innermost first. Every break is bound to the first of them and every continue to the first loop. -/
inductive Bound : List (Nat × FrameKind) → Jminus.Stmt → Stmt → Prop
  | expr {around e e'} : Bound around (.expr e) (.expr e')
  | var {around type name init v init'} : Bound around (.var type name init) (.var v init')
  | block {around body body'} : AllBound around body body' → Bound around (.block body) (.block body')
  | ifThen {around line cond s cond' s'} : Bound around s s' →
    Bound around (.ifElse line cond s none) (.ifElse cond' s' none)
  | ifElse {around line cond s t cond' s' t'} : Bound around s s' → Bound around t t' →
    Bound around (.ifElse line cond s (some t)) (.ifElse cond' s' (some t'))
  | whileLoop {around line cond body frame cond' body'} : frame.kind = .loop →
    Bound (frame.tag :: around) body body' →
    Bound around (.whileLoop line cond body) (.whileLoop frame cond' body')
  | doLoop {around line body cond frame body' cond'} : frame.kind = .loop →
    Bound (frame.tag :: around) body body' →
    Bound around (.doLoop line body cond) (.doLoop frame body' cond')
  | forLoop {around line init cond update body frame init' cond' update' body'} :
    frame.kind = .loop → AllBound (frame.tag :: around) init init' →
    Bound (frame.tag :: around) body body' →
    Bound around (.forLoop line init cond update body) (.forLoop frame init' cond' update' body')
  | switch {around line subject groups frame subject' groups'} : frame.kind = .switch →
    GroupsBound (frame.tag :: around) groups groups' →
    Bound around (.switch line subject groups) (.switch line frame subject' groups')
  | brk {around line} : Bound around (.brk line) (.brk line (around.head?.map Prod.fst))
  | cont {around line} :
    Bound around (.cont line) (.cont line ((around.find? (·.2 = .loop)).map Prod.fst))
  | ret {around line value} : Bound around (.ret line value) .ret
  | throw {around line value value'} : Bound around (.throw line value) (.throw value')
  | tryCatch {around body catches body' catches'} : AllBound around body body' →
    CatchesBound around catches catches' →
    Bound around (.tryCatch body catches none) (.tryCatch body' catches' .absent)
  | tryFinally {around body catches cleanup body' catches' slot cleanup'} :
    AllBound around body body' → CatchesBound around catches catches' →
    AllBound around cleanup cleanup' →
    Bound around (.tryCatch body catches (some cleanup))
      (.tryCatch body' catches' (.mk slot cleanup'))
  | empty {around} : Bound around .empty .empty

inductive AllBound : List (Nat × FrameKind) → List Jminus.Stmt → List Stmt → Prop
  | nil {around} : AllBound around [] []
  | cons {around s ss s' ss'} : Bound around s s' → AllBound around ss ss' →
    AllBound around (s :: ss) (s' :: ss')

inductive GroupsBound : List (Nat × FrameKind) → List Jminus.SwitchGroup → List SwitchGroup → Prop
  | nil {around} : GroupsBound around [] []
  | cons {around labels body groups values isDefault body' groups'} : AllBound around body body' →
    GroupsBound around groups groups' →
    GroupsBound around (.mk labels body :: groups) (.mk values isDefault body' :: groups')

inductive CatchesBound : List (Nat × FrameKind) → List Jminus.CatchClause → List CatchClause → Prop
  | nil {around} : CatchesBound around [] []
  | cons {around type name body catches param body' catches'} : AllBound around body body' →
    CatchesBound around catches catches' →
    CatchesBound around (.mk type name body :: catches) (.mk param body' :: catches')

end

/-- What a checked tree says about jumps: its frames, its breaks and its continues. -/
inductive Mark where
  | frame (f : Frame)
  | brk (line : Nat) (target : Option Nat)
  | cont (line : Nat) (target : Option Nat)

mutual

/-- The marks of a statement, in the order of the text. -/
def Stmt.marks : Stmt → List Mark
  | .block body => Stmt.allMarks body
  | .ifElse _ thenBranch none => thenBranch.marks
  | .ifElse _ thenBranch (some elseBranch) => thenBranch.marks ++ elseBranch.marks
  | .whileLoop frame _ body | .doLoop frame body _ => .frame frame :: body.marks
  | .forLoop frame init _ _ body => .frame frame :: (Stmt.allMarks init ++ body.marks)
  | .switch _ frame _ groups => .frame frame :: SwitchGroup.allMarks groups
  | .brk line target => [.brk line target]
  | .cont line target => [.cont line target]
  | .tryCatch body catches .absent => Stmt.allMarks body ++ CatchClause.allMarks catches
  | .tryCatch body catches (.mk _ cleanup) =>
    Stmt.allMarks body ++ CatchClause.allMarks catches ++ Stmt.allMarks cleanup
  | .expr _ | .var .. | .ret | .throw _ | .empty => []

def Stmt.allMarks : List Stmt → List Mark
  | [] => []
  | s :: ss => s.marks ++ Stmt.allMarks ss

def SwitchGroup.allMarks : List SwitchGroup → List Mark
  | [] => []
  | .mk _ _ body :: groups => Stmt.allMarks body ++ SwitchGroup.allMarks groups

def CatchClause.allMarks : List CatchClause → List Mark
  | [] => []
  | .mk _ body :: clauses => Stmt.allMarks body ++ CatchClause.allMarks clauses

end

namespace Mark

def breaks (id : Nat) : Mark → Bool
  | .brk _ target => target = some id
  | _ => false

def continues (id : Nat) : Mark → Bool
  | .cont _ target => target = some id
  | _ => false

def frame? : Mark → Option Frame
  | .frame f => some f
  | _ => none

def target? : Mark → Option Nat
  | .frame _ => none
  | .brk _ target | .cont _ target => target

/-- The report about a jump that is bound to nothing. -/
def reports : Mark → List Diagnostic
  | .brk line none => [report line { cause := .breakOutside }]
  | .cont line none => [report line { cause := .continueOutside }]
  | _ => []

variable {id : Nat} {m : Mark}

theorem target_of_breaks (h : m.breaks id = true) : m.target? = some id := by
  cases m with
  | brk line target => exact of_decide_eq_true h
  | _ => cases h

theorem target_of_continues (h : m.continues id = true) : m.target? = some id := by
  cases m with
  | cont line target => exact of_decide_eq_true h
  | _ => cases h

end Mark

/-- A break out of the frame is among the marks. -/
theorem any_breaks {ms : List Mark} {id : Nat} :
    ms.any (·.breaks id) = true ↔ ∃ line, .brk line (some id) ∈ ms := by
  rw [List.any_eq_true]
  constructor
  · rintro ⟨m, hm, hbreaks⟩
    cases m with
    | brk line target =>
      cases of_decide_eq_true hbreaks
      exact ⟨line, hm⟩
    | _ => cases hbreaks
  · rintro ⟨line, hm⟩
    exact ⟨_, hm, by simp [Mark.breaks]⟩

theorem any_continues {ms : List Mark} {id : Nat} :
    ms.any (·.continues id) = true ↔ ∃ line, .cont line (some id) ∈ ms := by
  rw [List.any_eq_true]
  constructor
  · rintro ⟨m, hm, hcontinues⟩
    cases m with
    | cont line target =>
      cases of_decide_eq_true hcontinues
      exact ⟨line, hm⟩
    | _ => cases hcontinues
  · rintro ⟨line, hm⟩
    exact ⟨_, hm, by simp [Mark.continues]⟩

def frameIds (ms : List Mark) : List Nat := (ms.filterMap Mark.frame?).map (·.id)

theorem mem_frameIds {ms : List Mark} {id : Nat} :
    id ∈ frameIds ms ↔ ∃ f, .frame f ∈ ms ∧ f.id = id := by
  simp only [frameIds, List.mem_map, List.mem_filterMap]
  constructor
  · rintro ⟨f, ⟨m, hm, hf⟩, hid⟩
    cases m with
    | frame g =>
      cases hf
      exact ⟨_, hm, hid⟩
    | _ => cases hf
  · rintro ⟨f, hf, hid⟩
    exact ⟨f, ⟨_, hf, rfl⟩, hid⟩

/-- The frame with the marks that jumps among `ms` leave on it. -/
def marked (ms : List Mark) (f : Frame) : Frame :=
  { f with
    hasBreak := f.hasBreak || ms.any (·.breaks f.id)
    hasContinue := f.hasContinue || ms.any (·.continues f.id) }

@[simp] theorem marked_nil (f : Frame) : marked [] f = f := by simp [marked]

/-- Marks are left one after the other. -/
@[simp] theorem marked_append (ms ms' : List Mark) (f : Frame) :
    marked (ms ++ ms') f = marked ms' (marked ms f) := by
  simp [marked, Bool.or_assoc]

@[simp] theorem marked_frame (g : Frame) (ms : List Mark) (f : Frame) :
    marked (.frame g :: ms) f = marked ms f := by
  simp [marked, Mark.breaks, Mark.continues]

/-- A frame is marked exactly by the jumps that are bound to it. -/
def Settled (ms : List Mark) : Prop :=
  ∀ f, .frame f ∈ ms →
    f.hasBreak = ms.any (·.breaks f.id) ∧ f.hasContinue = ms.any (·.continues f.id)

def isOutside (d : Diagnostic) : Bool :=
  d.problem.cause = .breakOutside || d.problem.cause = .continueOutside

namespace State

def around (st : State) : List (Nat × FrameKind) := st.flows.frames.map Frame.tag

def Fresh (st : State) : Prop := ∀ f ∈ st.flows.frames, f.id < st.frames

/-- How a state changes while statements with the given marks are checked. -/
structure Moves (st st' : State) (ms : List Mark) : Prop where
  opens : st.frames ≤ st'.frames
  flows : st'.flows.frames = st.flows.frames.map (marked ms)
  fresh : ∀ id ∈ frameIds ms, st.frames ≤ id ∧ id < st'.frames
  distinct : (frameIds ms).Nodup
  /-- A jump is bound to a frame that was open before or has been opened since. -/
  targets : ∀ m ∈ ms, ∀ id ∈ m.target?,
    (∃ f ∈ st.flows.frames, f.id = id) ∨ st.frames ≤ id ∧ id < st'.frames
  settled : Settled ms
  reports : st'.diagnostics.filter isOutside =
    st.diagnostics.filter isOutside ++ ms.flatMap Mark.reports

namespace Moves

variable {st st₁ st₂ : State} {ms ms' : List Mark}

theorem around (h : st.Moves st₁ ms) : st₁.around = st.around := by
  rw [State.around, h.flows, List.map_map]
  rfl

theorem fresh_behind (h : st.Moves st₁ ms) (hfresh : st.Fresh) : st₁.Fresh := by
  intro f hf
  rw [h.flows] at hf
  obtain ⟨g, hg, rfl⟩ := List.mem_map.1 hf
  exact Nat.lt_of_lt_of_le (hfresh g hg) h.opens

/-- Jumps are bound to frames that were opened before. -/
theorem target_lt (h : st.Moves st₁ ms) (hfresh : st.Fresh) {m : Mark} (hm : m ∈ ms) {id : Nat}
    (hid : m.target? = some id) : id < st₁.frames := by
  rcases h.targets m hm id hid with ⟨f, hf, rfl⟩ | ⟨_, hlt⟩
  · exact Nat.lt_of_lt_of_le (hfresh f hf) h.opens
  · exact hlt

/-- Nothing jumps to a frame that was opened and closed before, nor to one that is opened later. -/
theorem apart (h : st.Moves st₁ ms) (h' : st₁.Moves st₂ ms') (hfresh : st.Fresh) {id : Nat} :
    (id ∈ frameIds ms → ∀ m ∈ ms', m.target? ≠ some id) ∧
      (id ∈ frameIds ms' → ∀ m ∈ ms, m.target? ≠ some id) := by
  constructor
  · intro hid m hm htarget
    obtain ⟨hle, hlt⟩ := h.fresh id hid
    rcases h'.targets m hm id htarget with ⟨f, hf, rfl⟩ | ⟨hge, _⟩
    · rw [h.flows] at hf
      obtain ⟨g, hg, rfl⟩ := List.mem_map.1 hf
      exact absurd (hfresh g hg) (Nat.not_lt.2 hle)
    · exact absurd hlt (Nat.not_lt.2 hge)
  · intro hid m hm htarget
    exact absurd (h.target_lt hfresh hm htarget) (Nat.not_lt.2 (h'.fresh id hid).1)

/-- Statements one after the other change the state one after the other. -/
theorem append (h : st.Moves st₁ ms) (h' : st₁.Moves st₂ ms') (hfresh : st.Fresh) :
    st.Moves st₂ (ms ++ ms') := by
  have hids : frameIds (ms ++ ms') = frameIds ms ++ frameIds ms' := by simp [frameIds]
  refine ⟨h.opens.trans h'.opens, ?_, ?_, ?_, ?_, ?_, ?_⟩
  · rw [h'.flows, h.flows, List.map_map]
    exact List.map_congr_left fun f _ => (marked_append ms ms' f).symm
  · intro id hid
    rw [hids, List.mem_append] at hid
    rcases hid with hid | hid
    · exact ⟨(h.fresh id hid).1, Nat.lt_of_lt_of_le (h.fresh id hid).2 h'.opens⟩
    · exact ⟨h.opens.trans (h'.fresh id hid).1, (h'.fresh id hid).2⟩
  · rw [hids]
    refine List.nodup_append.2 ⟨h.distinct, h'.distinct, ?_⟩
    rintro id hid _ hid' rfl
    exact absurd (h.fresh id hid).2 (Nat.not_lt.2 (h'.fresh id hid').1)
  · intro m hm id hid
    rcases List.mem_append.1 hm with hm | hm
    · rcases h.targets m hm id hid with hopen | ⟨hle, hlt⟩
      · exact .inl hopen
      · exact .inr ⟨hle, Nat.lt_of_lt_of_le hlt h'.opens⟩
    · rcases h'.targets m hm id hid with ⟨f, hf, rfl⟩ | ⟨hle, hlt⟩
      · rw [h.flows] at hf
        obtain ⟨g, hg, rfl⟩ := List.mem_map.1 hf
        exact .inl ⟨g, hg, rfl⟩
      · exact .inr ⟨h.opens.trans hle, hlt⟩
  · have hnone : ∀ {id : Nat} {ns : List Mark}, (∀ m ∈ ns, m.target? ≠ some id) →
        ns.any (·.breaks id) = false ∧ ns.any (·.continues id) = false := by
      intro id ns hns
      constructor
      · exact List.any_eq_false.2 fun m hm hb => hns m hm (Mark.target_of_breaks hb)
      · exact List.any_eq_false.2 fun m hm hc => hns m hm (Mark.target_of_continues hc)
    intro f hf
    rw [List.any_append, List.any_append]
    rcases List.mem_append.1 hf with hf | hf
    · obtain ⟨hb, hc⟩ := hnone ((h.apart h' hfresh).1 (mem_frameIds.2 ⟨f, hf, rfl⟩))
      rw [hb, hc, Bool.or_false, Bool.or_false]
      exact h.settled f hf
    · obtain ⟨hb, hc⟩ := hnone ((h.apart h' hfresh).2 (mem_frameIds.2 ⟨f, hf, rfl⟩))
      rw [hb, hc, Bool.false_or, Bool.false_or]
      exact h'.settled f hf
  · rw [h'.reports, h.reports, List.flatMap_append, List.append_assoc]

/-- A loop or switch around statements: its frame is new, and left with their marks on it. -/
theorem frame {kind : FrameKind} (h : (st.opened kind).Moves st₁ ms) :
    st₁.flows.frames =
        marked ms { id := st.frames, kind } :: st.flows.frames.map (marked ms) ∧
      st.Moves { st₁ with flows := ⟨st.flows.frames.map (marked ms)⟩ }
        (.frame (marked ms { id := st.frames, kind }) :: ms) := by
  refine ⟨h.flows, ?_⟩
  have hnew : st.frames < st₁.frames := h.opens
  refine ⟨hnew.le, ?_, ?_, ?_, ?_, ?_, ?_⟩
  · exact List.map_congr_left fun f _ => (marked_frame _ ms f).symm
  · rintro id (_ | ⟨_, hid⟩)
    · exact ⟨le_refl _, hnew⟩
    · obtain ⟨hle, hlt⟩ := h.fresh id hid
      exact ⟨(Nat.lt_of_succ_le hle).le, hlt⟩
  · refine List.nodup_cons.2 ⟨fun hmem => ?_, h.distinct⟩
    exact absurd (h.fresh _ hmem).1 (Nat.not_succ_le_self _)
  · rintro m (_ | ⟨_, hm⟩) id hid
    · cases hid
    · rcases h.targets m hm id hid with ⟨f, hf, rfl⟩ | ⟨hle, hlt⟩
      · rcases List.mem_cons.1 hf with rfl | hf
        · exact .inr ⟨le_refl _, hnew⟩
        · exact .inl ⟨f, hf, rfl⟩
      · exact .inr ⟨(Nat.lt_of_succ_le hle).le, hlt⟩
  · rintro f (_ | ⟨_, hf⟩)
    · simp [marked, Mark.breaks, Mark.continues]
    · simpa [Mark.breaks, Mark.continues] using h.settled f hf
  · exact h.reports

/-- Nothing is marked if no frame changes and no jump is reported. -/
theorem of_still (hflows : st₁.flows = st.flows) (hframes : st₁.frames = st.frames)
    (hreports : st₁.diagnostics.filter isOutside = st.diagnostics.filter isOutside) :
    st.Moves st₁ [] := by
  have hmarked : marked [] = id := funext marked_nil
  refine ⟨hframes.ge, ?_, by simp [frameIds], by simp [frameIds], by simp, nofun, ?_⟩
  · rw [hflows, hmarked, List.map_id]
  · rw [hreports, List.flatMap_nil, List.append_nil]

theorem scope (h : st.entered.Moves st₁ ms) : st.Moves st₁.left ms :=
  ⟨h.opens, h.flows, h.fresh, h.distinct, h.targets, h.settled, h.reports⟩

end Moves

end State

/-- An action without frames and jumps leaves no marks. -/
theorem Calm.moves {α : Type} {x : Analysis α} {st st' : State} {a : α} (hx : Calm x)
    (h : x st = .ok (a, st')) : st.Moves st' [] := by
  have hsteady := hx.behind h
  obtain ⟨ds, hds, hreports⟩ := hsteady.reports
  refine .of_still hsteady.flows hsteady.frames ?_
  rw [hreports, List.filter_append, List.append_right_eq_self, List.filter_eq_nil_iff]
  intro d hd
  obtain ⟨line, p, rfl, hcause⟩ := hds d hd
  simp [isOutside, report, hcause]

/-- Where these frames are around it, an action leaves marks that go with its result. -/
def Marking {α : Type} (around : List (Nat × FrameKind)) (R : α → List Mark → Prop)
    (x : Analysis α) : Prop :=
  ∀ ⦃st st' a⦄, st.Fresh → st.around = around → x st = .ok (a, st') →
    ∃ ms, R a ms ∧ st.Moves st' ms

namespace Marking

variable {α β : Type} {x : Analysis α} {f : α → Analysis β} {k : α → β} {kind : FrameKind}
  {around : List (Nat × FrameKind)} {R : α → List Mark → Prop} {S : β → List Mark → Prop}

theorem pure {a : α} (h : R a []) : Marking around R (Pure.pure a) := by
  intro st st' b _ _ hrun
  cases pure_ok.1 hrun
  exact ⟨[], h, .of_still rfl rfl rfl⟩

/-- Actions one after the other leave their marks one after the other. -/
theorem bind (hx : Marking around R x)
    (hf : ∀ a ms, R a ms → Marking around (fun b ms' => S b (ms ++ ms')) (f a)) :
    Marking around S (x >>= f) := by
  intro st st' b hfresh haround hrun
  obtain ⟨a, st₁, ha, hb⟩ := bind_ok.1 hrun
  obtain ⟨ms, hR, hmoves⟩ := hx hfresh haround ha
  obtain ⟨ms', hS, hmoves'⟩ :=
    hf a ms hR (hmoves.fresh_behind hfresh) (hmoves.around.trans haround) hb
  exact ⟨ms ++ ms', hS, hmoves.append hmoves' hfresh⟩

theorem map (hx : Marking around R x) (h : ∀ a ms, R a ms → S (k a) ms) :
    Marking around S (x >>= fun a => Pure.pure (k a)) :=
  hx.bind fun a ms hR => pure (by rw [List.append_nil]; exact h a ms hR)

theorem after (hx : Calm x) (hf : ∀ a, Marking around S (f a)) : Marking around S (x >>= f) := by
  have hnone : Marking around (fun _ ms => ms = []) x := fun _ _ _ _ _ h => ⟨[], rfl, hx.moves h⟩
  exact hnone.bind fun a ms hms => hms ▸ hf a

theorem required {c : Prop} [Decidable c] {line : Nat} {p : Problem}
    (hp : Mistakes [report line p]) (hx : Marking around R x) :
    Marking around R (if c then x else tell [report line p] >>= fun _ => x) := by
  split
  · exact hx
  · exact .after (Calm.tell hp) fun _ => hx

/-- A scope does not hide the frames around it. -/
theorem inScope (hx : Marking around R x) : Marking around R (Analysis.inScope x) := by
  intro st st' a hfresh haround h
  obtain ⟨st₁, hrun, rfl⟩ := inScope_ok.1 h
  have hentered : st.entered.Fresh := hfresh
  obtain ⟨ms, hR, hmoves⟩ := hx hentered haround hrun
  exact ⟨ms, hR, hmoves.scope⟩

/-- What holds inside a frame holds with the frame around it. -/
theorem inFrame {R : Nat × FrameKind → α → List Mark → Prop}
    (hx : ∀ id, Marking ((id, kind) :: around) (R (id, kind)) x) :
    Marking around
      (fun r ms => r.1.kind = kind ∧ ∃ ms', R r.1.tag r.2 ms' ∧ ms = .frame r.1 :: ms')
      (Analysis.inFrame kind x) := by
  rintro st st' ⟨frame, a⟩ hfresh rfl h
  obtain ⟨st₁, hrun, flows, hpop, rfl⟩ := inFrame_ok.1 h
  have hopened : (st.opened kind).Fresh := by
    rintro f (_ | ⟨_, hf⟩)
    · exact Nat.lt_succ_self _
    · exact (hfresh f hf).trans (Nat.lt_succ_self _)
  obtain ⟨ms, hR, hbody⟩ := hx st.frames hopened rfl hrun
  obtain ⟨hframes, hmoves⟩ := hbody.frame
  simp only [FlowStack.pop, hframes, marked, if_true, Except.ok.injEq, Prod.mk.injEq] at hpop
  obtain ⟨rfl, rfl⟩ := hpop
  exact ⟨_, ⟨rfl, ms, hR, rfl⟩, hmoves⟩

end Marking

section

variable {st st' : State}

/-- A jump marks the frame that it is bound to, which is open. -/
theorem jump_moves {m : Mark} (hm : m.frame? = none)
    (htarget : ∀ id ∈ m.target?, ∃ f ∈ st.flows.frames, f.id = id)
    (hflows : st'.flows.frames = st.flows.frames.map (marked [m])) (hframes : st'.frames = st.frames)
    (hreports : st'.diagnostics.filter isOutside = st.diagnostics.filter isOutside ++ m.reports) :
    st.Moves st' [m] := by
  have hids : frameIds [m] = [] := by simp [frameIds, hm]
  refine ⟨hframes.ge, hflows, by simp [hids], by simp [hids], ?_, ?_, ?_⟩
  · intro n hn id hid
    obtain rfl := List.mem_singleton.1 hn
    exact .inl (htarget id hid)
  · intro f hf
    obtain rfl := List.mem_singleton.1 hf
    cases hm
  · rw [hreports, List.flatMap_singleton]

theorem marked_brk (line id : Nat) (f : Frame) :
    marked [.brk line (some id)] f = if f.id = id then { f with hasBreak := true } else f := by
  split <;> simp_all [marked, Mark.breaks, Mark.continues, eq_comm]

theorem marked_cont (line id : Nat) (f : Frame) :
    marked [.cont line (some id)] f = if f.id = id then { f with hasContinue := true } else f := by
  split <;> simp_all [marked, Mark.breaks, Mark.continues, eq_comm]

/-- A break is bound to the innermost frame. -/
theorem breakAt_marking (line : Nat) {around : List (Nat × FrameKind)} :
    Marking around (fun target ms => target = around.head?.map Prod.fst ∧ ms = [.brk line target])
      (breakAt line) := by
  rintro st st' target _ rfl h
  have haround : st.around.head?.map Prod.fst = st.flows.breakTarget?.map (·.id) := by
    simp only [State.around, FlowStack.breakTarget?, List.head?_map, Option.map_map]
    rfl
  rcases jumpAt_ok.1 h with ⟨htarget, rfl, rfl⟩ | ⟨frame, htarget, rfl, rfl⟩
  · rw [htarget] at haround
    refine ⟨_, ⟨haround.symm, rfl⟩, jump_moves rfl nofun ?_ rfl
      (by simp [State.tells, isOutside, report, Mark.reports])⟩
    have hmarked : marked [.brk line none] = id := by
      funext f
      simp [marked, Mark.breaks, Mark.continues]
    rw [hmarked, List.map_id]
    rfl
  · rw [htarget] at haround
    have hmem := List.mem_of_head? htarget
    refine ⟨_, ⟨haround.symm, rfl⟩, jump_moves rfl ?_ ?_ rfl (by simp [Mark.reports])⟩
    · rintro id ⟨⟩
      exact ⟨frame, hmem, rfl⟩
    · exact List.map_congr_left fun f _ => (marked_brk line frame.id f).symm

/-- A continue is bound to the innermost loop. -/
theorem continueAt_marking (line : Nat) {around : List (Nat × FrameKind)} :
    Marking around
      (fun target ms => target = (around.find? (·.2 = .loop)).map Prod.fst ∧ ms = [.cont line target])
      (continueAt line) := by
  rintro st st' target _ rfl h
  have haround : (st.around.find? (·.2 = .loop)).map Prod.fst =
      st.flows.continueTarget?.map (·.id) := by
    simp only [State.around, FlowStack.continueTarget?, List.find?_map, Option.map_map]
    rfl
  rcases jumpAt_ok.1 h with ⟨htarget, rfl, rfl⟩ | ⟨frame, htarget, rfl, rfl⟩
  · rw [htarget] at haround
    refine ⟨_, ⟨haround.symm, rfl⟩, jump_moves rfl nofun ?_ rfl
      (by simp [State.tells, isOutside, report, Mark.reports])⟩
    have hmarked : marked [.cont line none] = id := by
      funext f
      simp [marked, Mark.breaks, Mark.continues]
    rw [hmarked, List.map_id]
    rfl
  · rw [htarget] at haround
    have hmem := List.mem_of_find?_eq_some htarget
    refine ⟨_, ⟨haround.symm, rfl⟩, jump_moves rfl ?_ ?_ rfl (by simp [Mark.reports])⟩
    · rintro id ⟨⟩
      exact ⟨frame, hmem, rfl⟩
    · exact List.map_congr_left fun f _ => (marked_cont line frame.id f).symm

end

/-- A statement is checked as it is bound by the text, with its own marks. -/
def StmtBinds (s : Jminus.Stmt) : Prop :=
  ∀ around, Marking around (fun a ms => Bound around s a ∧ ms = a.marks) (checkStmt s)

def StmtsBind (ss : List Jminus.Stmt) : Prop :=
  ∀ around, Marking around (fun as ms => AllBound around ss as ∧ ms = Stmt.allMarks as)
    (checkStmts ss)

def GroupsBind (gs : List Jminus.SwitchGroup) : Prop :=
  ∀ around line seen, Marking around
    (fun as ms => GroupsBound around gs as ∧ ms = SwitchGroup.allMarks as)
    (checkGroups line seen gs)

def CatchesBind (cs : List Jminus.CatchClause) : Prop :=
  ∀ around, Marking around (fun as ms => CatchesBound around cs as ∧ ms = CatchClause.allMarks as)
    (checkCatches cs)

mutual

/-- Analysis binds every jump as the text does. -/
theorem checkStmt_binds : ∀ s, StmtBinds s
  | .expr e, _ => .after (Calm.expr e) fun _ => .pure ⟨.expr, rfl⟩
  | .var type name none, _ => .after (Calm.declaredType type name) fun t =>
    .after (Calm.declare name t) fun _ => .pure ⟨.var, rfl⟩
  | .var type name (some init), _ => .after (Calm.declaredType type name) fun t =>
    .after (Calm.expr init) fun e => .after (Calm.tell (assignReports_mistakes _ _ _)) fun _ =>
      .after (Calm.declare name t) fun _ => .pure ⟨.var, rfl⟩
  | .block body, around =>
    (checkStmts_bind body around).inScope.map fun _ _ ⟨hbody, hms⟩ => ⟨.block hbody, hms⟩
  | .ifElse line cond s none, around => .after (Calm.condition line cond) fun _ =>
    (checkStmt_binds s around).inScope.map fun _ _ ⟨hs, hms⟩ => ⟨.ifThen hs, hms⟩
  | .ifElse line cond s (some t), around => .after (Calm.condition line cond) fun _ =>
    (checkStmt_binds s around).inScope.bind fun _ _ ⟨hs, hms⟩ =>
      (checkStmt_binds t around).inScope.map fun _ _ ⟨ht, hms'⟩ =>
        ⟨.ifElse hs ht, by rw [hms, hms']; rfl⟩
  | .whileLoop line cond body, around =>
    (Marking.inFrame (R := fun tag r ms => Bound (tag :: around) body r.2 ∧ ms = r.2.marks) fun _ =>
      .after (Calm.condition line cond) fun _ => (checkStmt_binds body _).inScope.map
        fun _ _ h => h).map fun _ _ ⟨hkind, _, ⟨hbody, hms⟩, hframe⟩ =>
          ⟨.whileLoop hkind hbody, by rw [hframe, hms]; rfl⟩
  | .doLoop line body cond, around =>
    (Marking.inFrame (R := fun tag r ms => Bound (tag :: around) body r.1 ∧ ms = r.1.marks) fun _ =>
      (checkStmt_binds body _).inScope.bind fun _ _ ⟨hbody, hms⟩ =>
        .after (Calm.condition line cond) fun _ => .pure ⟨hbody, by rw [hms, List.append_nil]⟩).map
          fun _ _ ⟨hkind, _, ⟨hbody, hms⟩, hframe⟩ =>
            ⟨.doLoop hkind hbody, by rw [hframe, hms]; rfl⟩
  | .forLoop line init cond update body, around =>
    (Marking.inFrame (R := fun tag r ms =>
      (AllBound (tag :: around) init r.1 ∧ Bound (tag :: around) body r.2.2.2) ∧
        ms = Stmt.allMarks r.1 ++ r.2.2.2.marks) fun _ => Marking.inScope
      ((checkStmts_bind init _).bind fun _ _ ⟨hinit, hms⟩ =>
        .after (Calm.mapM_condition line cond) fun _ => .after (Calm.exprs update) fun _ =>
          (checkStmt_binds body _).inScope.map fun _ _ ⟨hbody, hms'⟩ =>
            ⟨⟨hinit, hbody⟩, by rw [hms, hms']⟩)).map
      fun _ _ ⟨hkind, _, ⟨⟨hinit, hbody⟩, hms⟩, hframe⟩ =>
        ⟨.forLoop hkind hinit hbody, by rw [hframe, hms]; rfl⟩
  | .switch line subject groups, around =>
    (Marking.inFrame (R := fun tag r ms =>
      GroupsBound (tag :: around) groups r.2 ∧ ms = SwitchGroup.allMarks r.2) fun _ =>
      .after (Calm.expr subject) fun _ => .required (by simp [Cause.on])
        ((checkGroups_bind groups _ line {}).map fun _ _ h => h)).map
      fun _ _ ⟨hkind, _, ⟨hgroups, hms⟩, hframe⟩ =>
        ⟨.switch hkind hgroups, by rw [hframe, hms]; rfl⟩
  | .brk line, around => (breakAt_marking line).map fun _ _ ⟨htarget, hms⟩ => by
    subst htarget
    exact ⟨.brk, hms⟩
  | .cont line, around => (continueAt_marking line).map fun _ _ ⟨htarget, hms⟩ => by
    subst htarget
    exact ⟨.cont, hms⟩
  | .ret _ none, _ => .pure ⟨.ret, rfl⟩
  | .ret line (some value), _ => .after (Calm.expr value) fun _ =>
    .after (Calm.tell (by simp [Cause.on])) fun _ => .pure ⟨.ret, rfl⟩
  | .throw line value, _ => .after (Calm.expr value) fun _ =>
    .required (by simp [Cause.on]) (.pure ⟨.throw, rfl⟩)
  | .tryCatch body catches none, around =>
    (checkStmts_bind body around).inScope.bind fun _ _ ⟨hbody, hms⟩ =>
      (checkCatches_bind catches around).map fun _ _ ⟨hcatches, hms'⟩ =>
        ⟨.tryCatch hbody hcatches, by rw [hms, hms']; rfl⟩
  | .tryCatch body catches (some cleanup), around =>
    (checkStmts_bind body around).inScope.bind fun _ _ ⟨hbody, hms⟩ =>
      (checkCatches_bind catches around).bind fun _ _ ⟨hcatches, hms'⟩ =>
        (checkStmts_bind cleanup around).inScope.bind fun _ _ ⟨hcleanup, hms''⟩ =>
          .after Calm.allocate fun _ => .pure ⟨.tryFinally hbody hcatches hcleanup,
            by simp [hms, hms', hms'', Stmt.marks]⟩
  | .empty, _ => .pure ⟨.empty, rfl⟩

theorem checkStmts_bind : ∀ ss, StmtsBind ss
  | [], _ => .pure ⟨.nil, rfl⟩
  | s :: ss, around => (checkStmt_binds s around).bind fun _ _ ⟨hs, hms⟩ =>
    (checkStmts_bind ss around).map fun _ _ ⟨hss, hms'⟩ => ⟨.cons hs hss, by rw [hms, hms']; rfl⟩

theorem checkGroups_bind : ∀ gs, GroupsBind gs
  | [], _, _, _ => .pure ⟨.nil, rfl⟩
  | .mk ls body :: groups, around, line, seen => .after (Calm.labels line seen ls) fun _ =>
    (checkStmts_bind body around).inScope.bind fun _ _ ⟨hbody, hms⟩ =>
      (checkGroups_bind groups around line _).map fun _ _ ⟨hgroups, hms'⟩ =>
        ⟨.cons hbody hgroups, by rw [hms, hms']; rfl⟩

theorem checkCatches_bind : ∀ cs, CatchesBind cs
  | [], _ => .pure ⟨.nil, rfl⟩
  | .mk type name body :: clauses, around =>
    (Marking.inScope (R := fun c ms => ∃ v b, c = .mk v b ∧ AllBound around body b ∧
      ms = Stmt.allMarks b) (.after (Calm.caughtType type) fun t =>
        .after (Calm.declareCaught name t) fun v => (checkStmts_bind body around).inScope.map
          fun b _ h => ⟨v, b, rfl, h⟩)).bind fun _ _ ⟨_, _, hc, hbody, hms⟩ => hc ▸
      (checkCatches_bind clauses around).map fun _ _ ⟨hclauses, hms'⟩ =>
        ⟨.cons hbody hclauses, by rw [hms, hms']; rfl⟩

end

variable {line : Nat}

/-- A switch makes a label behind its groups for breaks if and only if its frame says so, and its
groups know of no other. -/
theorem switch_label {frame : Frame} {subject : Expr} {groups : List SwitchGroup} {exits : Exits}
    {n n' : Nat} {code : Code}
    (h : stmtCode (.switch line frame subject groups) exits n = .ok (code, n')) :
    ∃ brk front base m bodies past, brk.isSome = frame.hasBreak ∧
      groupsCode groups base ({ frame := frame.id, brk, cont := none } :: exits) m =
        .ok (bodies, n') ∧
      code = front ++ bodies ++ past ++ brk.toList.map Item.label := by
  obtain ⟨front, base, _, d, _, o, rfl, bodies, hbodies, rfl⟩ := switch_ok.1 h
  refine ⟨_, front ++ [.dispatch line (casePairs base groups) d.1], base, _, bodies, d.2.1, ?_,
    hbodies, ?_⟩
  · unfold wayOut
    split <;> simp_all
  · unfold wayOut
    split <;> simp

/-- Every jump belongs where the text says. Analysis of any statements at all succeeds and closes
every frame that it opens. Each break is bound to the innermost loop or switch around it, each
continue to the innermost loop, and one without has one report, in the order of the text. No two
frames have one number; a frame says that there is a break or a continue for it if and only if there
is one, so a switch makes a label for breaks if and only if some break is bound to it. -/
theorem jumps_bound (program : List Jminus.Stmt) :
    ∃ checked st, check program = .ok checked ∧ checkStmts program {} = .ok (checked.stmts, st) ∧
      st.flows.frames = [] ∧ AllBound [] program checked.stmts ∧
      (frameIds (Stmt.allMarks checked.stmts)).Nodup ∧
      checked.diagnostics.filter isOutside =
        (Stmt.allMarks checked.stmts).flatMap Mark.reports ∧
      ∀ f, .frame f ∈ Stmt.allMarks checked.stmts →
        (f.hasBreak = true ↔ ∃ line, .brk line (some f.id) ∈ Stmt.allMarks checked.stmts) ∧
        (f.hasContinue = true ↔ ∃ line, .cont line (some f.id) ∈ Stmt.allMarks checked.stmts) ∧
        ∀ line subject groups exits n code n',
          stmtCode (.switch line f subject groups) exits n = .ok (code, n') →
          ∃ brk front base m bodies past,
            (brk.isSome = true ↔
              ∃ line, .brk line (some f.id) ∈ Stmt.allMarks checked.stmts) ∧
            groupsCode groups base ({ frame := f.id, brk, cont := none } :: exits) m =
              .ok (bodies, n') ∧
            code = front ++ bodies ++ past ++ brk.toList.map Item.label := by
  obtain ⟨stmts, st, hrun, hgrow, hcheck⟩ := check_run program
  have hfresh : State.Fresh {} := nofun
  obtain ⟨_, ⟨hbound, rfl⟩, hmoves⟩ := checkStmts_bind program [] hfresh rfl hrun
  refine ⟨_, st, hcheck, hrun, hmoves.flows, hbound, hmoves.distinct, hmoves.reports, fun f hf => ?_⟩
  obtain ⟨hbreak, hcontinue⟩ := hmoves.settled f hf
  have hbreaks : f.hasBreak = true ↔ ∃ line, .brk line (some f.id) ∈ Stmt.allMarks stmts := by
    rw [hbreak]
    exact any_breaks
  refine ⟨hbreaks, by rw [hcontinue]; exact any_continues, ?_⟩
  intro line subject groups exits n code n' hcode
  obtain ⟨brk, front, base, m, bodies, past, hlabel, hbodies, hshape⟩ := switch_label hcode
  exact ⟨brk, front, base, m, bodies, past, by rw [hlabel]; exact hbreaks, hbodies, hshape⟩

end Checked

end Jminus
