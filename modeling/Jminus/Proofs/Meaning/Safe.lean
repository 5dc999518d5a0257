import Jminus.Proofs.Meaning.Typed
import Mathlib

/-!
Evaluation of sound statements is never stuck. It keeps the types of variables, its jumps lead to
frames that are there, and what it throws is throwable.
-/
namespace Jminus.Checked

/-- Declarations and expressions do not depend on the frames around them. -/
theorem Stmt.Sound.of_simple {slots : Slots} {fs gs : List Frame} {vs : List Local} {s : Stmt}
    (hs : s.isSimple = true) (h : s.Sound slots fs vs) : s.Sound slots gs vs := by
  cases s with
  | expr e => exact h
  | var v init =>
    cases init with
    | none => exact h
    | some e => exact h
  | _ => cases hs

theorem Stmt.AllSound.of_simple {slots : Slots} {fs gs : List Frame} {vs : List Local}
    {ss : List Stmt} (hs : ss.all Stmt.isSimple = true) (h : Stmt.AllSound slots fs vs ss) :
    Stmt.AllSound slots gs vs ss := by
  induction ss generalizing vs with
  | nil => trivial
  | cons s ss ih =>
    rw [List.all_cons, Bool.and_eq_true] at hs
    exact ⟨h.1.of_simple hs.1, ih hs.2 h.2⟩

namespace Meaning

/-- A jump leads to a frame that is there, and an exception is throwable. -/
def Completion.Fits (frames : List Frame) : Completion → Prop
  | .normal | .ret => True
  | .brk id => ∃ f, Frame.named? frames (some id) = some f ∧ f.Breakable
  | .cont id => ∃ f, Frame.named? frames (some id) = some f ∧ f.kind = .loop
  | .raised x => x.cls.isSubclassOf .throwable = true

/-- What may come of a statement: after a normal end the variables `vs` are typed. -/
def Result.Safe (slots : Slots) (frames : List Frame) (vs : List Local) (w : World) :
    Result → Prop
  | .done c w' => w.Keeps slots w' ∧ c.Fits frames ∧ (c = .normal → w'.Typed vs)
  | .spent => True
  | .stuck => False

def Round.Safe (slots : Slots) (frames : List Frame) (vs : List Local) (w : World) :
    Round → Prop
  | .again w' => w.Keeps slots w' ∧ w'.Typed vs
  | .ended r => r.Safe slots frames vs w

variable {slots : Slots} {frames : List Frame} {vs us : List Local} {w : World}

variable {f : Frame} {v : Local} {cond : Expr}

/-- A jump out of a frame to another one leads to the frames around it. -/
theorem named?_outer {frame : Frame} {id : Nat} (hid : id ≠ frame.id)
    (h : Frame.named? (frame :: frames) (some id) = some f) :
    Frame.named? frames (some id) = some f := by
  simpa [Frame.named?, hid.symm] using h

theorem named?_inner {frame : Frame} (h : Frame.named? (frame :: frames) (some frame.id) = some f) :
    f = frame := by
  simpa [Frame.named?, eq_comm] using h

namespace Result.Safe

theorem normal (hw : w.Typed vs) : (Result.done .normal w).Safe slots frames vs w :=
  ⟨.refl slots w, trivial, fun _ => hw⟩

variable {r : Result} {frame : Frame}

/-- The same after something else that kept types. -/
theorem after {w' : World} (hw : w.Keeps slots w') (h : r.Safe slots frames vs w') :
    r.Safe slots frames vs w := by
  cases r with
  | done c w'' => exact ⟨hw.trans h.1, h.2⟩
  | spent => trivial
  | stuck => exact h

/-- Only the variables that were in sight before. -/
theorem outside (h : r.Safe slots frames us w) (hvs : ∀ v ∈ vs, slots.Holds v) (hw : w.Typed vs) :
    r.Safe slots frames vs w := by
  cases r with
  | done c w' => exact ⟨h.1, h.2.1, fun _ => hw.keeps hvs h.1⟩
  | spent => trivial
  | stuck => exact h

/-- What follows a normal end may count on the types behind it. -/
theorem andThen {k : World → Result} (hr : r.Safe slots frames us w)
    (hk : ∀ w', w.Keeps slots w' → w'.Typed us → (k w').Safe slots frames vs w') :
    (r.andThen k).Safe slots frames vs w := by
  cases r with
  | done c w' =>
    obtain ⟨hkeeps, hfits, htyped⟩ := hr
    cases c with
    | normal => exact (hk w' hkeeps (htyped rfl)).after hkeeps
    | _ => exact ⟨hkeeps, hfits, by simp⟩
  | spent => trivial
  | stuck => exact hr

theorem upTo (hkind : ∀ w', r = .done (.cont frame.id) w' → frame.kind = .switch)
    (hr : r.Safe slots (frame :: frames) us w) (hw : ∀ w', w.Keeps slots w' → w'.Typed vs) :
    (r.upTo frame.id).Safe slots frames vs w := by
  cases r with
  | done c w' =>
    obtain ⟨hkeeps, hfits, -⟩ := hr
    cases c with
    | brk id =>
      simp only [Result.upTo]
      split
      · exact ⟨hkeeps, trivial, fun _ => hw w' hkeeps⟩
      · rename_i hid
        obtain ⟨f, hf, hb⟩ := hfits
        exact ⟨hkeeps, ⟨f, named?_outer hid hf, hb⟩, by simp⟩
    | cont id =>
      obtain ⟨f, hf, hloop⟩ := hfits
      have hid : id ≠ frame.id := by
        rintro rfl
        rw [named?_inner hf, hkind w' rfl] at hloop
        cases hloop
      exact ⟨hkeeps, ⟨f, named?_outer hid hf, hloop⟩, by simp⟩
    | normal => exact ⟨hkeeps, trivial, fun _ => hw w' hkeeps⟩
    | _ => exact ⟨hkeeps, hfits, by simp⟩
  | spent => trivial
  | stuck => exact hr

/-- What leaves the frame of a loop ends with it. -/
theorem inLoop {next onContinue : World → Round} (hr : r.Safe slots (frame :: frames) us w)
    (hw : ∀ w', w.Keeps slots w' → w'.Typed vs)
    (hnext : ∀ w', w.Keeps slots w' → (next w').Safe slots frames vs w)
    (hcont : ∀ w', w.Keeps slots w' → (onContinue w').Safe slots frames vs w) :
    (r.inLoop frame.id next onContinue).Safe slots frames vs w := by
  cases r with
  | done c w' =>
    obtain ⟨hkeeps, hfits, htyped⟩ := hr
    cases c with
    | normal => exact hnext w' hkeeps
    | cont id =>
      simp only [Result.inLoop]
      split
      · exact hcont w' hkeeps
      · rename_i hid
        obtain ⟨f, hf, hloop⟩ := hfits
        exact ⟨hkeeps, ⟨f, named?_outer hid hf, hloop⟩, by simp⟩
    | brk id => exact upTo nofun ⟨hkeeps, hfits, htyped⟩ hw
    | _ => exact ⟨hkeeps, hfits, by simp⟩
  | spent => trivial
  | stuck => exact hr

theorem orCatch {k : Raised → World → Result} (hr : r.Safe slots frames vs w)
    (hk : ∀ x w', w.Keeps slots w' → x.cls.isSubclassOf .throwable = true →
      (k x w').Safe slots frames vs w') : (r.orCatch k).Safe slots frames vs w := by
  cases r with
  | done c w' =>
    cases c with
    | raised x => exact (hk x w' hr.1 hr.2.1).after hr.1
    | _ => exact hr
  | spent => trivial
  | stuck => exact hr

/-- A finally clause may end in its own way, and else the part before it does. -/
theorem withCleanup {cleanup : World → Result} (hr : r.Safe slots frames us w)
    (hclean : ∀ w', w.Keeps slots w' → (cleanup w').Safe slots frames vs w') :
    (r.withCleanup cleanup).Safe slots frames vs w := by
  cases r with
  | done c w' =>
    obtain ⟨hkeeps, hfits, -⟩ := hr
    cases c with
    | normal => exact (hclean w' hkeeps).after hkeeps
    | raised x =>
      refine Result.Safe.after hkeeps ((hclean w' hkeeps).andThen fun w'' _ _ => ?_)
      exact ⟨.refl slots w'', hfits, by simp⟩
    | _ => exact ⟨hkeeps, hfits, by simp⟩
  | spent => trivial
  | stuck => exact hr

end Result.Safe

/-- What depends on a value may count on what is known of it. -/
theorem withValue_safe {α : Type} {P : α → Prop} {x : Eval α} {k : α → World → Result}
    (hx : Ends slots x w P)
    (hk : ∀ a w', P a → w.Keeps slots w' → (k a w').Safe slots frames vs w') :
    (withValue x k w).Safe slots frames vs w := by
  obtain ⟨r, w', heq, hkeeps, hr⟩ := hx
  cases r with
  | ok a =>
    simp only [withValue, heq]
    exact (hk a w' hr hkeeps).after hkeeps
  | error e =>
    simp only [withValue, heq]
    exact ⟨hkeeps, hr, by simp⟩

/-- A loop keeps what each of its rounds keeps. -/
theorem rounds_safe {round : World → Round} {n : Nat} (hw : w.Typed vs)
    (hround : ∀ w', w.Keeps slots w' → w'.Typed vs → (round w').Safe slots frames vs w') :
    (rounds round n w).Safe slots frames vs w := by
  induction n generalizing w with
  | zero => trivial
  | succ n ih =>
    have hfirst := hround w (.refl slots w) hw
    simp only [rounds]
    cases hr : round w with
    | again w' =>
      rw [hr] at hfirst
      exact (ih hfirst.2 fun w'' hk => hround w'' (hfirst.1.trans hk)).after hfirst.1
    | ended r =>
      rw [hr] at hfirst
      exact hfirst

/-- One more variable has a value of its type. -/
theorem World.Typed.cons (hv : (w.vars v.slot).Fits v.type) (h : w.Typed vs) :
    w.Typed (v :: vs) := by
  intro u hu
  rcases List.mem_cons.1 hu with rfl | hu
  · exact hv
  · exact h u hu

/-- A value stored in a new variable. -/
theorem World.Typed.declare (hvs : ∀ v ∈ vs, slots.Holds v) (hw : w.Typed vs) (hv : slots.Holds v)
    {d : Datum} (hd : d.Fits v.type) :
    (Result.done .normal (w.set v.slot d)).Safe slots frames (v :: vs) w := by
  have hkeeps := World.Keeps.set hv hd w
  refine ⟨hkeeps, trivial, fun _ => .cons ?_ (hw.keeps hvs hkeeps)⟩
  simpa [World.set] using hd

/-- A condition comes to a truth value or throws. -/
theorem condition_ends (hvs : ∀ v ∈ vs, slots.Holds v) (h : cond.Condition vs) (hw : w.Typed vs) :
    Ends slots (eval cond >>= truth) w fun _ => True :=
  (eval_ends hvs h.1 hw).bind fun _ _ hd _ =>
    (Ends.truth (h.2 ▸ hd)).imp fun _ _ => trivial

theorem effects_ends {es : List Expr} (hvs : ∀ v ∈ vs, slots.Holds v) (h : Expr.AllSound vs es)
    (hw : w.Typed vs) : Ends slots (effects es) w fun _ => True := by
  induction es generalizing w with
  | nil => exact .pure trivial
  | cons e es ih =>
    exact (eval_ends hvs h.1 hw).bind fun _ _ _ hk => ih h.2 (hw.keeps hvs hk)

/-- A round that depends on a condition is safe if it is safe where the condition holds. -/
theorem test_safe {yes : World → Round} (hvs : ∀ v ∈ vs, slots.Holds v) (h : cond.Condition vs)
    (hw : w.Typed vs) (hyes : ∀ w', w.Keeps slots w' → (yes w').Safe slots frames vs w) :
    (test cond yes w).Safe slots frames vs w := by
  obtain ⟨r, w', heq, hkeeps, hr⟩ := condition_ends hvs h hw
  simp only [test, heq]
  cases r with
  | error e => exact ⟨hkeeps, hr, by simp⟩
  | ok b =>
    cases b with
    | true => exact hyes w' hkeeps
    | false => exact ⟨hkeeps, trivial, fun _ => hw.keeps hvs hkeeps⟩

theorem advance_safe {update : List Expr} (hvs : ∀ v ∈ vs, slots.Holds v)
    (h : Expr.AllSound vs update) (hw : w.Typed vs) :
    (advance update w).Safe slots frames vs w := by
  obtain ⟨r, w', heq, hkeeps, hr⟩ := effects_ends hvs h hw
  simp only [advance, heq]
  cases r with
  | error e => exact ⟨hkeeps, hr, by simp⟩
  | ok b => exact ⟨hkeeps, hw.keeps hvs hkeeps⟩

/-- What is safe further on is safe from before. -/
theorem Round.Safe.after {r : Round} {w' : World} (hw : w.Keeps slots w')
    (h : r.Safe slots frames vs w') : r.Safe slots frames vs w := by
  cases r with
  | again w'' => exact ⟨hw.trans h.1, h.2⟩
  | ended r => exact Result.Safe.after hw h

section Rounds

variable {frame : Frame} {body : World → Result}

/-- A loop is safe if its body is, in each round. -/
theorem while_safe {cond : Expr} (hvs : ∀ v ∈ vs, slots.Holds v) (hc : cond.Condition vs)
    (hbody : ∀ w, w.Typed vs → (body w).Safe slots (frame :: frames) us w) (hw : w.Typed vs) :
    (test cond (fun w => (body w).inLoop frame.id .again .again) w).Safe slots frames vs w := by
  refine test_safe hvs hc hw fun w' hk => ?_
  have hw' := hw.keeps hvs hk
  have hagain : ∀ w'', w'.Keeps slots w'' → (Round.again w'').Safe slots frames vs w' :=
    fun w'' hk' => ⟨hk', hw'.keeps hvs hk'⟩
  exact ((hbody w' hw').inLoop (fun w'' hk' => hw'.keeps hvs hk') hagain hagain).after hk

theorem do_safe {cond : Expr} (hvs : ∀ v ∈ vs, slots.Holds v) (hc : cond.Condition vs)
    (hbody : ∀ w, w.Typed vs → (body w).Safe slots (frame :: frames) us w) (hw : w.Typed vs) :
    ((body w).inLoop frame.id (test cond .again) .again).Safe slots frames vs w := by
  refine (hbody w hw).inLoop (fun w' hk => hw.keeps hvs hk) (fun w' hk => ?_) fun w' hk => ?_
  · have hw' := hw.keeps hvs hk
    have hagain : ∀ w'', w'.Keeps slots w'' → (Round.again w'').Safe slots frames vs w' :=
      fun w'' hk' => ⟨hk', hw'.keeps hvs hk'⟩
    exact (test_safe hvs hc hw' hagain).after hk
  · exact ⟨hk, hw.keeps hvs hk⟩

theorem for_safe {cond : Option Expr} {update : List Expr} (hvs : ∀ v ∈ vs, slots.Holds v)
    (hc : ∀ c ∈ cond, c.Condition vs) (hu : Expr.AllSound vs update)
    (hbody : ∀ w, w.Typed vs → (body w).Safe slots (frame :: frames) us w) (hw : w.Typed vs) :
    (testOr cond (fun w => (body w).inLoop frame.id (advance update) (advance update)) w).Safe
      slots frames vs w := by
  have haround : ∀ w : World, w.Typed vs →
      ((body w).inLoop frame.id (advance update) (advance update)).Safe slots frames vs w := by
    intro w hw
    have hnext : ∀ w', w.Keeps slots w' → (advance update w').Safe slots frames vs w :=
      fun w' hk => (advance_safe hvs hu (hw.keeps hvs hk)).after hk
    exact (hbody w hw).inLoop (fun w' hk => hw.keeps hvs hk) hnext hnext
  cases cond with
  | none => exact haround w hw
  | some c =>
    exact test_safe hvs (hc c rfl) hw fun w' hk => (haround w' (hw.keeps hvs hk)).after hk

end Rounds

mutual

/-- A sound statement does only what is safe. -/
theorem exec_safe (n : Nat) : ∀ {s : Stmt} {frames : List Frame} {vs : List Local} {w : World},
    (∀ v ∈ vs, slots.Holds v) → s.Sound slots frames vs → w.Typed vs →
      (exec n s w).Safe slots frames (s.declares ++ vs) w
  | .expr e, _, _, _, hvs, h, hw =>
    withValue_safe (eval_ends hvs h hw) fun _ _ _ hk => .normal (hw.keeps hvs hk)
  | .var v none, _, _, _, hvs, h, hw => hw.declare hvs h (zero_fits h.2)
  | .var v (some init), _, _, _, hvs, ⟨hv, hinit, hassign⟩, hw =>
    withValue_safe (eval_ends hvs hinit hw) fun d w' hd hk =>
      (hw.keeps hvs hk).declare hvs hv (hd.assignable hassign
        (hinit.type_ne_any (storable_of_holds hvs)) (ne_any_of_storable hv.2))
  | .block body, _, _, _, hvs, h, hw => (execs_safe n hvs h hw).outside hvs hw
  | .ifElse cond thenBranch none, _, _, _, hvs, ⟨hc, ht⟩, hw =>
    withValue_safe (condition_ends hvs hc hw) fun b w' _ hk => by
      have hw' := hw.keeps hvs hk
      split
      · exact (exec_safe n hvs ht hw').outside hvs hw'
      · exact .normal hw'
  | .ifElse cond thenBranch (some elseBranch), _, _, _, hvs, ⟨hc, ht, he⟩, hw =>
    withValue_safe (condition_ends hvs hc hw) fun b w' _ hk => by
      have hw' := hw.keeps hvs hk
      split
      · exact (exec_safe n hvs ht hw').outside hvs hw'
      · exact (exec_safe n hvs he hw').outside hvs hw'
  | .whileLoop _ _ _, _, _, _, hvs, ⟨_, hc, hb⟩, hw =>
    rounds_safe hw fun _ _ hw₁ => while_safe hvs hc (fun _ hw₂ => exec_safe n hvs hb hw₂) hw₁
  | .doLoop _ _ _, _, _, _, hvs, ⟨_, hb, hc⟩, hw =>
    rounds_safe hw fun _ _ hw₁ => do_safe hvs hc (fun _ hw₂ => exec_safe n hvs hb hw₂) hw₁
  | .forLoop frame init cond update body, frames, vs, w, hvs, ⟨_, hs, hi, hc, hu, hb⟩, hw => by
    have hvs' := holds_inSight hvs hi
    have hinit : Stmt.AllSound slots frames vs init := .of_simple hs hi
    exact ((execs_safe n hvs hinit hw).andThen fun w₀ _ hw₀ => rounds_safe hw₀ fun _ _ hw₁ =>
      for_safe hvs' hc hu (fun _ hw₂ => exec_safe n hvs' hb hw₂) hw₁).outside hvs hw
  | .switch line frame subject groups, frames, vs, w, hvs, ⟨hk, hs, ht, _, _, hg⟩, hw => by
    refine withValue_safe ((eval_ends hvs hs hw).bind fun d _ hd _ =>
      (Ends.number (ht ▸ hd)).imp fun _ _ => trivial) (P := fun _ => True) fun key w' _ hk' => ?_
    have hw' := hw.keeps hvs hk'
    exact (execGroups_safe n hvs hg hw').upTo (fun _ _ => hk) fun w'' hk'' => hw'.keeps hvs hk''
  | .brk line (some id), _, _, _, _, h, _ => ⟨.refl _ _, h, by simp⟩
  | .cont line (some id), _, _, _, _, h, _ => ⟨.refl _ _, h, by simp⟩
  | .brk line none, _, _, _, _, ⟨_, h, _⟩, _ => by cases h
  | .cont line none, _, _, _, _, ⟨_, h, _⟩, _ => by cases h
  | .ret, _, _, _, _, _, _ => ⟨.refl _ _, trivial, by simp⟩
  | .throw value, _, _, _, hvs, ⟨hv, ht⟩, hw =>
    withValue_safe (eval_ends hvs hv hw) fun d w' hd _ => by
      rcases hd.thrown ht with rfl | ⟨id, k, rfl, hk⟩
      · exact ⟨fun _ _ _ h => h, rfl, by simp⟩
      · exact ⟨.refl _ _, hk, by simp⟩
  | .tryCatch body catches cleanup, frames, vs, w, hvs, ⟨hb, hc, hf⟩, hw => by
    have hbody := (execs_safe n hvs hb hw).outside hvs hw
    have hcaught := hbody.orCatch fun x w' hk hx =>
      execCatches_safe n hvs hc hx (hw.keeps hvs hk)
    exact hcaught.withCleanup fun w' hk => execCleanup_safe n hvs hf (hw.keeps hvs hk)
  | .empty, _, _, _, _, _, hw => .normal hw

theorem execs_safe (n : Nat) : ∀ {ss : List Stmt} {frames : List Frame} {vs : List Local}
    {w : World}, (∀ v ∈ vs, slots.Holds v) → Stmt.AllSound slots frames vs ss → w.Typed vs →
      (execs n ss w).Safe slots frames (Stmt.inSight vs ss) w
  | [], _, _, _, _, _, hw => .normal hw
  | _ :: _, _, _, _, hvs, ⟨hs, hss⟩, hw =>
    (exec_safe n hvs hs hw).andThen fun _ _ hw' =>
      execs_safe n (holds_declares hvs hs) hss hw'

theorem execGroups_safe (n : Nat) : ∀ {gs : List SwitchGroup} {skip : Nat} {frames : List Frame}
    {vs : List Local} {w : World}, (∀ v ∈ vs, slots.Holds v) →
      SwitchGroup.AllSound slots frames vs gs → w.Typed vs →
      (execGroups n gs skip w).Safe slots frames vs w
  | [], _, _, _, _, _, _, hw => .normal hw
  | .mk _ _ _ :: _, _ + 1, _, _, _, hvs, ⟨_, hgs⟩, hw => by
    rw [execGroups]
    exact execGroups_safe n hvs hgs hw
  | .mk _ _ _ :: _, 0, _, _, _, hvs, ⟨hg, hgs⟩, hw =>
    ((execs_safe n hvs hg hw).outside hvs hw).andThen fun _ _ hw' => execGroups_safe n hvs hgs hw'

theorem execCatches_safe (n : Nat) : ∀ {cs : List CatchClause} {x : Raised} {frames : List Frame}
    {vs : List Local} {w : World}, (∀ v ∈ vs, slots.Holds v) →
      CatchClause.AllSound slots frames vs cs → x.cls.isSubclassOf .throwable = true → w.Typed vs →
      (execCatches n cs x w).Safe slots frames vs w
  | [], _, _, _, _, _, _, hx, _ => ⟨.refl _ _, hx, by simp⟩
  | .mk param body :: clauses, x, frames, vs, w, hvs, ⟨hp, ht, hb, hcs⟩, hx, hw => by
    simp only [execCatches]
    split
    · rename_i htakes
      have hfits : x.datum.Fits param.type := by
        unfold takes at htakes
        split at htakes
        · rename_i c hc
          rw [hc]
          exact htakes
        · cases htakes
      have hk := World.Keeps.set hp hfits w
      have hw' : (w.set param.slot x.datum).Typed (param :: vs) :=
        .cons (by simpa [World.set] using hfits) (hw.keeps hvs hk)
      exact ((execs_safe n (holds_cons hp hvs) hb hw').outside hvs (hw.keeps hvs hk)).after hk
    · exact execCatches_safe n hvs hcs hx hw

theorem execCleanup_safe (n : Nat) : ∀ {c : Cleanup} {frames : List Frame} {vs : List Local}
    {w : World}, (∀ v ∈ vs, slots.Holds v) → c.Sound slots frames vs → w.Typed vs →
      (execCleanup n c w).Safe slots frames vs w
  | .absent, _, _, _, _, _, hw => .normal hw
  | .mk _ _, _, _, _, hvs, ⟨_, hb⟩, hw =>
    (execs_safe n hvs (.mono (List.take_prefix _ _) (.refl _) hb) hw).outside hvs hw

end

/-- A sound program ends normally, by returning or with a throwable object, unless it goes on. -/
theorem program_safe {program : List Stmt} (h : Stmt.AllSound slots [] [] program) (n : Nat) :
    execs n program .start = .spent ∨ ∃ c w outcome, execs n program .start = .done c w ∧
      c.outcome? = some outcome ∧
        ∀ cls, outcome = .uncaught cls → cls.isSubclassOf .throwable = true := by
  have hsafe := execs_safe n (by simp) h (by simp [World.Typed] : World.start.Typed [])
  cases hr : execs n program .start with
  | spent => exact .inl rfl
  | stuck =>
    rw [hr] at hsafe
    exact hsafe.elim
  | done c w =>
    rw [hr] at hsafe
    obtain ⟨_, hfits, _⟩ := hsafe
    refine .inr ⟨c, w, ?_⟩
    cases c with
    | normal => exact ⟨.finished, rfl, rfl, by simp⟩
    | ret => exact ⟨.finished, rfl, rfl, by simp⟩
    | raised x =>
      refine ⟨.uncaught x.cls, rfl, rfl, ?_⟩
      rintro cls ⟨⟩
      exact hfits
    | brk id =>
      obtain ⟨f, hf, _⟩ := hfits
      cases hf
    | cont id =>
      obtain ⟨f, hf, _⟩ := hfits
      cases hf

end Meaning

end Jminus.Checked
