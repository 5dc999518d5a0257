import Jminus.Proofs.Definite
import Jminus.Proofs.Handlers
import Jminus.Proofs.Layout.Stmt
import Mathlib

/-!
Annotations for the code of sound statements.

The variables in sight have been stored to wherever the code of a statement is, and behind it so
have those that it declares. What a finally clause keeps an exception in has been stored to in the
copy of the clause that ends by throwing it on.
-/
namespace Jminus.Checked

open Code

abbrev Steady (B : Set Nat) (A : Annotation) (code : Code) : Prop := ∀ O, Flows A O B code B

abbrev SteadyItem (B : Set Nat) (A : Annotation) (i : Item) : Prop := ∀ O, i.Keeps A O B

structure Forms.Annotates (B : Set Nat) (f : Forms) : Prop where
  value : Checked.Annotates (Steady B) f.value
  cond : ∀ target onTrue,
    Checked.Annotates (fun A code => A target ⊆ B → Steady B A code) (f.cond target onTrue)

/-- The slots that have been stored to once some variables have got their values. -/
def known (B : Set Nat) : List Local → Set Nat
  | [] => B
  | v :: vs => insert v.slot (known B vs)

def knownBehind (B : Set Nat) : List Stmt → Set Nat
  | [] => B
  | s :: ss => knownBehind (known B s.declares) ss

theorem subset_known (B : Set Nat) (vs : List Local) : B ⊆ known B vs := by
  induction vs with
  | nil => exact subset_rfl
  | cons v vs ih => exact ih.trans (Set.subset_insert _ _)

variable {B : Set Nat} {vs : List Local} {A : Annotation} {exits : Exits}

/-- Variables that have just been declared are known. -/
theorem mem_known {ds : List Local} (h : ∀ v ∈ vs, v.slot ∈ B) :
    ∀ v ∈ ds ++ vs, v.slot ∈ known B ds := by
  induction ds with
  | nil => exact h
  | cons d ds ih => exact List.forall_mem_cons.2 ⟨.inl rfl, fun v hv => .inr (ih v hv)⟩

theorem subset_knownBehind (B : Set Nat) (ss : List Stmt) : B ⊆ knownBehind B ss := by
  induction ss generalizing B with
  | nil => exact subset_rfl
  | cons s ss ih => exact (subset_known B s.declares).trans (ih _)

/-- All variables in sight behind statements are known there. -/
theorem mem_knownBehind {ss : List Stmt} (h : ∀ v ∈ vs, v.slot ∈ B) :
    ∀ v ∈ Stmt.inSight vs ss, v.slot ∈ knownBehind B ss := by
  induction ss generalizing vs B with
  | nil => exact h
  | cons s ss ih => exact ih (mem_known h)

/-- Variables in their slots, which have been stored to. -/
def Seen (slots : Slots) (B : Set Nat) (vs : List Local) : Prop :=
  ∀ v ∈ vs, v.slot ∈ B ∧ slots.Holds v

section Expressions

variable {slots : Slots} {frames : List Frame} {B : Set Nat} {vs : List Local}

theorem Seen.stored (h : Seen slots B vs) : ∀ v ∈ vs, v.slot ∈ B := fun v hv => (h v hv).1

theorem Seen.holds (h : Seen slots B vs) : ∀ v ∈ vs, slots.Holds v := fun v hv => (h v hv).2

theorem Seen.storable (h : Seen slots B vs) : Storable vs := storable_of_holds h.holds

theorem Seen.mono {C : Set Nat} (h : Seen slots B vs) (hle : B ⊆ C) : Seen slots C vs :=
  fun v hv => ⟨hle (h.stored v hv), h.holds v hv⟩

theorem Seen.declares {s : Stmt} (h : Seen slots B vs) (hs : s.Sound slots frames vs) :
    Seen slots (known B s.declares) (s.declares ++ vs) :=
  fun v hv => ⟨mem_known h.stored v hv, holds_declares h.holds hs v hv⟩

theorem Seen.inSight {ss : List Stmt} (h : Seen slots B vs)
    (hss : Stmt.AllSound slots frames vs ss) : Seen slots (knownBehind B ss) (Stmt.inSight vs ss) :=
  fun v hv => ⟨mem_knownBehind h.stored v hv, holds_inSight h.holds hss v hv⟩

/-- Where all labels ask for no more than `B`, nothing in the code of an expression does. -/
theorem Elementary.keeps {A : Annotation} {O : Handler → Prop} {i : Item} (h : Elementary vs i)
    (hvs : Seen slots B vs) (hplaced : ∀ l ∈ i.placed?, A l = B) (hjumps : ∀ l ∈ i.jumps, A l ⊆ B) :
    i.Keeps A O B := by
  cases h with
  | label l => exact keeps_label.2 (hplaced l rfl)
  | jump b l => exact keeps_jump.2 (hjumps l List.mem_cons_self)
  | load hv => exact keeps_load.2 (hvs.stored _ hv)
  | store hv => exact keeps_store
  | @plain o arg hcell hplain =>
    have hnone : ∀ l ∈ (Item.plain o arg).jumps, False := by
      simp [Item.jumps, hplain, Instruction.labels]
    cases o with
    | load cell | store cell => cases hcell
    | _ => exact .plain rfl (fun K _ l hl => (hnone l hl).elim) fun K hK => hK

/-- The labels of an expression can be annotated with what is known before it. -/
theorem Touches.annotates {outs : List Label} {g : Gen Code} (h : Touches vs g)
    (hvs : Seen slots B vs) (hlays : Lays outs [] g) :
    Annotates (fun A code => (∀ l ∈ outs, A l ⊆ B) → Steady B A code) g := by
  intro n code n' hcode
  have hlaid := hlays.laid hcode
  refine ⟨hlaid.le, fun _ => B, fun A hA houts O => .items fun i hi => ?_⟩
  refine (h hcode i hi).keeps hvs (fun l hl => hA l ?_) fun l hl => ?_
  · by_contra hout
    have hcount := hlaid.once l
    rw [if_neg hout, List.count_eq_zero] at hcount
    exact hcount (List.mem_filterMap.2 ⟨i, hi, hl⟩)
  · rcases hlaid.jumps l (List.mem_flatMap.2 ⟨i, hi, hl⟩) with hl | hl
    · exact (hA l hl).le
    · exact houts l hl

theorem Touches.steady {g : Gen Code} (h : Touches vs g) (hvs : Seen slots B vs)
    (hlays : Lays [] [] g) : Annotates (Steady B) g :=
  (h.annotates hvs hlays).imp fun _ _ hcode => hcode (List.forall_mem_nil _)

/-- The code of a sound expression is steady in all its forms. -/
theorem forms_annotates (hvs : Seen slots B vs) {e : Expr} (h : e.Sound vs) :
    (forms e).Annotates B := by
  have htouch := forms_touch h.locals_subset
  have hlays := forms_lays hvs.storable h
  refine ⟨htouch.value.steady hvs hlays.value, fun target onTrue => ?_⟩
  exact ((htouch.cond target onTrue).annotates hvs (hlays.cond target onTrue)).imp
    fun A code hcode htarget => hcode (by simpa using htarget)

end Expressions

/-- Jumps out of a statement lead to labels that ask for no more than `B`. -/
def Exits.Known (A : Annotation) (B : Set Nat) (exits : Exits) : Prop :=
  ∀ l ∈ exits.labels, A l ⊆ B

theorem Exits.Known.mono {C : Set Nat} (h : exits.Known A B) (hle : B ⊆ C) : exits.Known A C :=
  fun l hl => (h l hl).trans hle

theorem Exits.Known.cons {e : Exit} (h : exits.Known A B) (hbrk : ∀ l ∈ e.brk, A l ⊆ B)
    (hcont : ∀ l ∈ e.cont, A l ⊆ B) : Exits.Known A B (e :: exits) := by
  intro l hl
  rw [Exits.labels_cons, Exit.labels, List.mem_append, List.mem_append, Option.mem_toList,
    Option.mem_toList] at hl
  rcases hl with (hl | hl) | hl
  · exact hbrk l hl
  · exact hcont l hl
  · exact h l hl

/-- Code between exits that adds to what has been stored to. -/
abbrev Brings (exits : Exits) (B C : Set Nat) (A : Annotation) (code : Code) : Prop :=
  exits.Known A B → ∀ O, Flows A O B code C

section Statements

variable {slots : Slots}

variable {B : Set Nat} {vs : List Local} {cond : Option Expr} {frames : List Frame} {exits : Exits}
  {frame : Frame} {body : List Stmt} {cleanup : Cleanup}

/-- The test of a loop is steady, if there is one. -/
theorem forTest_annotates (hvs : Seen slots B vs) (h : ∀ c ∈ cond, c.Condition vs)
    (target : Label) :
    Annotates (fun A code => A target ⊆ B → Steady B A code) (forTest cond target) := by
  cases cond with
  | none => exact .pure fun A _ O => .nil
  | some c => exact (forms_annotates hvs (h c rfl).1).cond target false

theorem zero_steady (A : Annotation) (t : Ty) : SteadyItem B A (zero t) := by
  intro O
  unfold zero
  split <;> simp [Instruction.simple, Instruction.labels]

/-- Declarations and expressions do not look at the exits. -/
theorem simple_annotates {s : Stmt} (hsimple : s.isSimple = true) (hvs : Seen slots B vs)
    (h : s.Sound slots frames vs) :
    Annotates (fun A code => ∀ O, Flows A O B code (known B s.declares)) (stmtCode s exits) := by
  cases s with
  | expr e => exact (effect_touches h.locals_subset).steady hvs (effect_lays hvs.storable h)
  | var v init =>
    cases init with
    | none =>
      exact .pure fun A O => (Flows.item (zero_steady A v.type O)).seq (.store A O _ _ _)
    | some init =>
      exact (forms_annotates hvs h.2.1).value.bind fun c => .pure fun A hc O =>
        (hc O).seq (.store A O _ _ _)
  | _ => cases hsimple

/-- What a for loop starts with brings what it declares. -/
theorem simples_annotate {ss : List Stmt} (hsimple : ss.all Stmt.isSimple = true)
    (hvs : Seen slots B vs) (h : Stmt.AllSound slots frames vs ss) :
    Annotates (fun A code => ∀ O, Flows A O B code (knownBehind B ss)) (stmtsCode ss exits) := by
  induction ss generalizing vs B with
  | nil => exact .pure fun A O => .nil
  | cons s ss ih =>
    rw [List.all_cons, Bool.and_eq_true] at hsimple
    rw [stmtsCode]
    exact (simple_annotates hsimple.1 hvs h.1).bind fun a => (ih hsimple.2 (hvs.declares h.1) h.2).bind
      fun b => .pure fun A hb ha O => (ha O).append (hb O) (subset_known B s.declares)

/-- Where a switch leads if no case fits. -/
theorem fallback_annotates (B : Set Nat) (base : Nat) (groups : List SwitchGroup) :
    Annotates (fun A (p : Label × Code) =>
      (∀ l, Between base (base + groups.length) l → A l = B) → A p.1 ⊆ B ∧ Steady B A p.2)
      (match defaultLabel? base groups with
        | some label => pure (label, [])
        | none => do
          let label ← Code.fresh
          pure (label, [Item.label label])) := by
  split
  · rename_i l hl
    exact .pure fun A hkept => ⟨(hkept l (defaultLabel?_between hl)).le, fun O => .nil⟩
  · exact (Annotates.fresh B).bind fun l => .pure fun A hl _ =>
      ⟨hl.le, fun O => .items (by simpa using hl)⟩

/-- Where a break leads out of a switch. -/
theorem wayOut_annotates (B : Set Nat) (frame : Frame) :
    Annotates (fun A (p : Option Label × Code) => (∀ l ∈ p.1, A l ⊆ B) ∧ Steady B A p.2)
      (if frame.hasBreak then do
          let label ← Code.fresh
          pure (some label, [Item.label label])
        else pure (none, [])) := by
  split
  · exact (Annotates.fresh B).bind fun l => .pure fun A hl =>
      ⟨by simpa using hl.le, fun O => .items (by simpa using hl)⟩
  · exact .pure fun A => ⟨by simp, fun O => .nil⟩

/-- The code of a switch, in the order in which its labels are made. -/
theorem switch_bind {line : Nat} {subject : Expr} {groups : List SwitchGroup} :
    stmtCode (.switch line frame subject groups) exits = (do
      let a ← subject.value
      let base ← get
      set (base + groups.length)
      let d ← (match defaultLabel? base groups with
        | some label => pure (label, [])
        | none => do
          let label ← Code.fresh
          pure (label, [Item.label label]))
      let o ← (if frame.hasBreak then do
          let label ← Code.fresh
          pure (some label, [Item.label label])
        else pure (none, []))
      let bodies ← groupsCode groups base (⟨frame.id, o.1, none⟩ :: exits)
      return a ++ [.dispatch line (casePairs base groups) d.1] ++ bodies ++ d.2 ++ o.2) := by
  rw [stmtCode]
  refine bind_congr fun a => bind_congr fun base => bind_congr fun _ => ?_
  cases defaultLabel? base groups <;> cases frame.hasBreak <;> rfl

theorem for_bind {init : List Stmt} {update : List Expr} {body : Stmt} :
    stmtCode (.forLoop frame init cond update body) exits = (do
      let test ← Code.fresh
      let cont ← Code.fresh
      let brk ← Code.fresh
      let i ← stmtsCode init (⟨frame.id, some brk, some cont⟩ :: exits)
      let a ← forTest cond brk
      let b ← stmtCode body (⟨frame.id, some brk, some cont⟩ :: exits)
      let u ← effects update
      return i ++ [.label test] ++ a ++ b ++ [.label cont] ++ u ++ [goto test, .label brk]) := by
  rw [stmtCode]
  cases cond <;> rfl

theorem try_bind {catches : List CatchClause} :
    stmtCode (.tryCatch body catches cleanup) exits = (do
      let start ← Code.fresh
      let stop ← Code.fresh
      let last ← Code.fresh
      let a ← stmtsCode body exits
      let f ← cleanupCode cleanup exits
      let c ← catchesCode catches exits (cleanupCode cleanup exits) last start stop
      let d ← delayed cleanup exits start stop c.2
      return [.label start] ++ a ++ [.label stop] ++ f ++ [goto last] ++ c.1 ++ d ++
        [.label last]) := by
  rw [stmtCode]
  cases cleanup <;> rfl

theorem catches_bind {param : Local} {clauses : List CatchClause} {cleanup : Gen Code}
    {last start stop : Label} :
    catchesCode (.mk param body :: clauses) exits cleanup last start stop = (do
      let first ← Code.fresh
      let rest ← Code.fresh
      let a ← stmtsCode body exits
      let f ← cleanup
      let c ← catchesCode clauses exits cleanup last start stop
      return ([.label first, store param.type.cell param.slot] ++ a ++ [.label rest] ++ f ++
        [goto last, .handler ⟨start, stop, first, param.type.path⟩] ++ c.1,
        ⟨first, rest⟩ :: c.2)) := by
  rw [catchesCode]

/-- What delays exceptions keeps them in its own slot. -/
theorem delayed_annotates (start stop : Label) (caught : List Caught)
    (hcleanup : ∀ C, B ⊆ C → Annotates (Brings exits C C) (cleanupCode cleanup exits)) :
    Annotates (fun A code => exits.Known A B → ∀ O, (∀ h, Opens A B
        ((⟨start, stop⟩ :: caught : List Caught).flatMap Caught.labels ++ code.placed) h → O h) →
        Flows A O B code B) (delayed cleanup exits start stop caught) := by
  cases cleanup with
  | absent => exact .pure fun A _ O _ => .nil
  | mk slot body =>
    have hle : B ⊆ insert slot B := Set.subset_insert slot B
    refine (Annotates.fresh B).bind fun first => (Annotates.fresh (insert slot B)).bind fun rest =>
      (hcleanup _ hle).bind fun copy => .pure fun A hcopy hrest hfirst hexits O hO => ?_
    have hput : Flows A O B ([Item.label first] ++ [store .ref slot]) (insert slot B) :=
      (Flows.item (keeps_label.2 hfirst)).seq (.store A _ _ _ _)
    have hbody : Flows A O (insert slot B) ([Item.label rest] ++ copy ++
        [load .ref slot, op .athrow]) (insert slot B) :=
      ((Flows.item (keeps_label.2 hrest)).seq (hcopy (hexits.mono hle) _)).seq
        (.items (by simp [Instruction.simple, Instruction.labels]))
    have hcovers : Flows A O B
        ((⟨start, stop⟩ :: caught ++ [⟨first, rest⟩] : List Caught).map (delays first)) B := by
      refine .items (List.forall_mem_map.2 fun c hc => keeps_handler.2 (hO _ ?_))
      have hopens : Opens A B c.labels ⟨c.start, c.stop, first, ""⟩ :=
        ⟨by simp [Caught.labels], by simp [Caught.labels], hfirst.le⟩
      refine hopens.mono fun l hl => List.mem_append.2 ?_
      rcases List.mem_append.1 hc with hc | hc
      · exact .inl (List.mem_flatMap.2 ⟨c, hc, hl⟩)
      · obtain rfl := List.mem_singleton.1 hc
        refine .inr ?_
        simp only [Caught.labels, List.mem_cons, List.not_mem_nil, or_false] at hl
        rcases hl with rfl | rfl <;> simp [store]
    have hdelays : delays first = fun c => .handler ⟨c.start, c.stop, first, ""⟩ := rfl
    have hall := ((hput.append hbody hle).weaken hle).seq hcovers
    simpa [hdelays] using hall

mutual

/-- The code of a sound statement brings what the statement declares. -/
theorem stmtCode_annotates : ∀ {s : Stmt} {frames : List Frame} {vs : List Local} {exits : Exits}
    {B : Set Nat}, Seen slots B vs → s.Sound slots frames vs →
      Annotates (Brings exits B (known B s.declares)) (stmtCode s exits)
  | .expr e, _, _, _, _, hvs, h =>
    (simple_annotates (s := .expr e) rfl hvs h).imp fun A code hcode _ => hcode
  | .var v init, _, _, _, _, hvs, h =>
    (simple_annotates (s := .var v init) rfl hvs h).imp fun A code hcode _ => hcode
  | .block body, _, _, _, B, hvs, h =>
    (stmtsCode_annotates hvs h).imp fun A code hcode hexits O =>
      (hcode hexits O).weaken (subset_knownBehind B body)
  | .ifElse cond thenBranch none, _, _, exits, B, hvs, ⟨hc, ht⟩ => by
    rw [stmtCode]
    refine (Annotates.fresh B).bind fun other => ((forms_annotates hvs hc.1).cond _ _).bind fun a =>
      (stmtCode_annotates hvs ht).bind fun b => .pure fun A hb ha hother hexits O => ?_
    have hb' := (hb hexits O).weaken (subset_known B thenBranch.declares)
    exact ((ha hother.le O).seq hb').seq (.items (by simpa using hother))
  | .ifElse cond thenBranch (some elseBranch), _, _, exits, B, hvs, ⟨hc, ht, he⟩ => by
    rw [stmtCode]
    refine (Annotates.fresh B).bind fun other => ((forms_annotates hvs hc.1).cond _ _).bind fun a =>
      (stmtCode_annotates hvs ht).bind fun b => (Annotates.fresh B).bind fun last =>
        (stmtCode_annotates hvs he).bind fun c => .pure fun A hc hlast hb ha hother hexits O => ?_
    have hb' := (hb hexits O).weaken (subset_known B thenBranch.declares)
    have hc' := (hc hexits O).weaken (subset_known B elseBranch.declares)
    exact ((((ha hother.le O).seq hb').seq (.items (by simp [hlast, hother]))).seq hc').seq
      (.items (by simpa using hlast))
  | .whileLoop frame cond body, _, _, exits, B, hvs, ⟨_, hc, hs⟩ => by
    rw [stmtCode]
    refine (Annotates.fresh B).bind fun test => (Annotates.fresh B).bind fun cont =>
      (Annotates.fresh B).bind fun brk => ((forms_annotates hvs hc.1).cond _ _).bind fun a =>
        (stmtCode_annotates hvs hs).bind fun b =>
          .pure fun A hb ha hbrk hcont htest hexits O => ?_
    have hinner := hexits.cons (e := ⟨frame.id, some brk, some cont⟩) (by simpa using hbrk.le)
      (by simpa using hcont.le)
    have hb' := (hb hinner O).weaken (subset_known B body.declares)
    exact (((Flows.item (keeps_label.2 htest)).seq (ha hbrk.le O)).seq hb').seq
      (.items (by simp [htest, hcont, hbrk]))
  | .doLoop frame body cond, _, _, exits, B, hvs, ⟨_, hs, hc⟩ => by
    rw [stmtCode]
    refine (Annotates.fresh B).bind fun start => (Annotates.fresh B).bind fun cont =>
      (Annotates.fresh B).bind fun brk => (stmtCode_annotates hvs hs).bind fun b =>
        ((forms_annotates hvs hc.1).cond _ _).bind fun a =>
          .pure fun A ha hb hbrk hcont hstart hexits O => ?_
    have hinner := hexits.cons (e := ⟨frame.id, some brk, some cont⟩) (by simpa using hbrk.le)
      (by simpa using hcont.le)
    have hb' := (hb hinner O).weaken (subset_known B body.declares)
    exact (((Flows.items (by simp [hstart, hcont])).seq hb').seq (ha hstart.le O)).seq
      (.items (by simpa using hbrk))
  | .forLoop frame init cond update body, _, _, exits, B, hvs, ⟨_, hsimple, hi, hc, hu, hs⟩ => by
    -- what the head declares is known in every round, and forgotten at the label behind the loop
    obtain ⟨C, hC⟩ : ∃ C, C = knownBehind B init := ⟨_, rfl⟩
    have hle : B ⊆ C := hC ▸ subset_knownBehind B init
    have hvs' : Seen slots C (Stmt.inSight _ init) := hC ▸ hvs.inSight hi
    rw [for_bind]
    refine (Annotates.fresh C).bind fun test => (Annotates.fresh C).bind fun cont =>
      (Annotates.fresh B).bind fun brk => (simples_annotate hsimple hvs hi).bind fun i =>
        (forTest_annotates hvs' hc brk).bind fun a => (stmtCode_annotates hvs' hs).bind fun b =>
          ((effects_touch hu.locals_subset).steady hvs' (effects_lays hvs'.storable hu)).bind fun u =>
            .pure fun A hu hb ha hi hbrk hcont htest hexits O => ?_
    have hbrk' : A brk ⊆ C := hbrk.trans_subset hle
    have hinner := (hexits.mono hle).cons (e := ⟨frame.id, some brk, some cont⟩)
      (by simpa using hbrk') (by simpa using hcont.le)
    have hb' := (hb hinner O).weaken (subset_known C body.declares)
    have hround := (((((Flows.item (keeps_label.2 htest)).seq (ha hbrk' O)).seq hb').seq
      (.item (keeps_label.2 hcont))).seq (hu O)).seq (.item (keeps_goto.2 htest.le))
    have hall := ((hC ▸ hi O : Flows A O B i C).append hround hle).append (.label hbrk') hle
    rw [hbrk] at hall
    change Flows A O B _ B
    simpa using hall
  | .switch line frame subject groups, _, _, exits, B, hvs, ⟨_, hsub, _, _, _, hg⟩ => by
    rw [switch_bind]
    refine (forms_annotates hvs hsub).value.bind fun a => Annotates.reserve B groups.length
      fun base => (fallback_annotates B base groups).bind fun d => (wayOut_annotates B frame).bind
        fun o => (groupsCode_annotates hvs hg base).bind fun b =>
          .pure fun A hb ho hd hkept ha hexits O => ?_
    obtain ⟨hdflt, hpast⟩ := hd hkept
    have hinner := hexits.cons (e := ⟨frame.id, o.1, none⟩) ho.1 (by simp)
    have hpairs : ∀ p ∈ casePairs base groups, A p.2 ⊆ B :=
      fun p hp => (hkept _ (casePairs_labels hp)).le
    have hb' := hb (fun i hi => hkept _ (groupLabel_between hi)) hinner O
    exact ((((ha O).seq (.item (keeps_dispatch hdflt hpairs))).seq hb').seq (hpast O)).seq (ho.2 O)
  | .brk line target, _, _, exits, B, _, _ => by
    rw [stmtCode]
    split
    · rename_i l hl
      obtain ⟨e, he, hl⟩ := Option.bind_eq_some_iff.1 hl
      have hmem := Exits.brk_mem_labels (Exits.ofFrame?_mem he) hl
      exact .pure fun A hexits O => .items (by simpa using hexits l hmem)
    · exact .throw _
  | .cont line target, _, _, exits, B, _, _ => by
    rw [stmtCode]
    split
    · rename_i l hl
      obtain ⟨e, he, hl⟩ := Option.bind_eq_some_iff.1 hl
      have hmem := Exits.cont_mem_labels (Exits.ofFrame?_mem he) hl
      exact .pure fun A hexits O => .items (by simpa using hexits l hmem)
    · exact .throw _
  | .ret, _, _, _, _, _, _ => .pure fun A _ O =>
    .items (by simp [Instruction.simple, Instruction.labels])
  | .throw value, _, _, _, _, hvs, ⟨h, _⟩ => by
    rw [stmtCode]
    exact (forms_annotates hvs h).value.bind fun c => .pure fun A hc _ O =>
      (hc O).seq (.items (by simp [Instruction.simple, Instruction.labels]))
  | .tryCatch body catches cleanup, _, _, exits, B, hvs, ⟨hb, hc, hf⟩ => by
    -- the last copy of the clause runs where the slot of the exception is known too
    have hcleanup : ∀ C, B ⊆ C → Annotates (Brings exits C C) (cleanupCode cleanup exits) :=
      fun C hle => cleanupCode_annotates (hvs.mono hle) hf
    rw [try_bind]
    refine (Annotates.fresh B).bind fun start => (Annotates.fresh B).bind fun stop =>
      (Annotates.fresh B).bind fun last => (stmtsCode_annotates hvs hb).bind fun a =>
        (hcleanup B subset_rfl).bind fun f =>
          (catchesCode_annotates hvs (hcleanup B subset_rfl) hc last start stop).bind fun c =>
            (delayed_annotates start stop c.2 hcleanup).bind fun d =>
              .pure fun A hd hc hf ha hlast hstop hstart hexits O => .close ?_
    -- the entries are about labels of the statement, so its whole code is what they protect
    have ha' := fun O => (ha hexits O).weaken (subset_knownBehind B body)
    obtain ⟨hplaced, hc⟩ := hc
    have hall := fun O hO hO' => ((((((Flows.item (O := O) (keeps_label.2 hstart)).seq (ha' O)).seq
      (.item (keeps_label.2 hstop))).seq (hf hexits O)).seq (.item (keeps_goto.2 hlast.le))).seq
      (hc hexits hlast.le O hO)).seq (hd hexits O hO') |>.seq (.item (keeps_label.2 hlast))
    refine hall _ (fun h hh => hh.mono ?_) fun h hh => hh.mono ?_
    · simp
    · intro l hl
      rw [List.flatMap_cons, List.append_assoc, List.mem_append, List.mem_append] at hl
      rcases hl with hl | hl | hl
      · simp only [Caught.labels, List.mem_cons, List.not_mem_nil, or_false] at hl
        rcases hl with rfl | rfl <;> simp
      · simp [goto, hplaced hl]
      · simp [goto, hl]
  | .empty, _, _, _, _, _, _ => .pure fun A _ O => .nil

theorem stmtsCode_annotates : ∀ {ss : List Stmt} {frames : List Frame} {vs : List Local}
    {exits : Exits} {B : Set Nat}, Seen slots B vs → Stmt.AllSound slots frames vs ss →
      Annotates (Brings exits B (knownBehind B ss)) (stmtsCode ss exits)
  | [], _, _, _, _, _, _ => .pure fun A _ O => .nil
  | s :: ss, _, _, _, B, hvs, ⟨hs, hss⟩ => by
    rw [stmtsCode]
    refine (stmtCode_annotates hvs hs).bind fun a => (stmtsCode_annotates (hvs.declares hs) hss).bind
      fun b => .pure fun A hb ha hexits O => ?_
    have hle := subset_known B s.declares
    exact (ha hexits O).append (hb (hexits.mono hle) O) hle

theorem groupsCode_annotates : ∀ {gs : List SwitchGroup} {frames : List Frame} {vs : List Local}
    {exits : Exits} {B : Set Nat}, Seen slots B vs →
      SwitchGroup.AllSound slots frames vs gs → ∀ base,
      Annotates (fun A code => (∀ i < gs.length, A (groupLabel base i) = B) →
        Brings exits B B A code) (groupsCode gs base exits)
  | [], _, _, _, _, _, _, _ => .pure fun A _ _ O => .nil
  | .mk _ _ body :: gs, _, _, _, B, hvs, ⟨hg, hgs⟩, base => by
    rw [groupsCode]
    refine (stmtsCode_annotates hvs hg).bind fun a => (groupsCode_annotates hvs hgs (base + 1)).bind
      fun b => .pure fun A hb ha hkept hexits O => ?_
    have ha' := (ha hexits O).weaken (subset_knownBehind B body)
    have hb' := hb (fun i hi => by
      rw [← groupLabel_succ]
      exact hkept (i + 1) (Nat.succ_lt_succ hi)) hexits O
    exact ((Flows.item (keeps_label.2 (hkept 0 (Nat.succ_pos _)))).seq ha').seq hb'

theorem catchesCode_annotates : ∀ {cs : List CatchClause} {frames : List Frame} {vs : List Local}
    {exits : Exits} {B : Set Nat} {cleanup : Gen Code}, Seen slots B vs →
      Annotates (Brings exits B B) cleanup → CatchClause.AllSound slots frames vs cs →
      ∀ last start stop, Annotates (fun A p => p.2.flatMap Caught.labels ⊆ Code.placed p.1 ∧
        (exits.Known A B → A last ⊆ B → ∀ O, (∀ h, Opens A B [start, stop] h → O h) →
          Flows A O B p.1 B)) (catchesCode cs exits cleanup last start stop)
  | [], _, _, _, _, _, _, _, _, _, _, _ => .pure fun A => ⟨by simp, fun _ _ O _ => .nil⟩
  | .mk param body :: cs, _, vs, _, B, _, hvs, hcleanup, ⟨hparam, _, hb, hcs⟩, last, start, stop => by
    have hle : B ⊆ insert param.slot B := Set.subset_insert _ B
    have hvs' : Seen slots (insert param.slot B) (param :: vs) :=
      List.forall_mem_cons.2 ⟨⟨.inl rfl, hparam⟩, hvs.mono hle⟩
    rw [catches_bind]
    refine (Annotates.fresh B).bind fun first => (Annotates.fresh B).bind fun rest =>
      (stmtsCode_annotates hvs' hb).bind fun a => hcleanup.bind fun f =>
        (catchesCode_annotates hvs hcleanup hcs last start stop).bind fun c =>
          .pure fun A hc hf ha hrest hfirst => ⟨?_, fun hexits hlast O hO => ?_⟩
    · refine List.append_subset.2 ⟨by simp [Caught.labels, store], fun l hl => ?_⟩
      simp [goto, store, hc.1 hl]
    · have hstore : Flows A O B ([.label first] ++ [store param.type.cell param.slot])
          (insert param.slot B) := (Flows.item (keeps_label.2 hfirst)).seq (.store A O _ _ _)
      have ha' := (ha (hexits.mono hle) O).weaken
        (hle.trans (subset_knownBehind (insert param.slot B) body))
      have hopen : O ⟨start, stop, first, param.type.path⟩ := hO _ ⟨by simp, by simp, hfirst.le⟩
      have hall := ((((hstore.append ha' hle).seq (.item (keeps_label.2 hrest))).seq
        (hf hexits O)).seq (.item (keeps_goto.2 hlast))).seq (.item (keeps_handler.2 hopen)) |>.seq
        (hc.2 hexits hlast O hO)
      simpa using hall

theorem cleanupCode_annotates : ∀ {c : Cleanup} {frames : List Frame} {vs : List Local}
    {exits : Exits} {B : Set Nat}, Seen slots B vs → c.Sound slots frames vs →
      Annotates (Brings exits B B) (cleanupCode c exits)
  | .absent, _, _, _, _, _, _ => .pure fun _ _ _ => .nil
  | .mk _ body, _, _, _, B, hvs, ⟨_, hb⟩ =>
    (stmtsCode_annotates hvs (.mono (List.take_prefix _ _) (.refl _) hb)).imp
      fun _ _ hcode hexits O => (hcode hexits O).weaken (subset_knownBehind B body)

end

/-- The code of a sound program fits an annotation from its start on, where nothing is known. No
handler is left open. -/
theorem programCode_annotated {program : List Stmt} (h : Stmt.AllSound slots [] [] program)
    {n n' : Nat} {code : Code} (hcode : programCode program n = .ok (code, n')) :
    ∃ A, Flows A (fun _ => False) ∅ code ∅ := by
  obtain ⟨body, hbody, rfl⟩ := program_ok.1 hcode
  obtain ⟨_, A, hA⟩ := stmtsCode_annotates (B := ∅) (List.forall_mem_nil _) h hbody
  have hflows := (hA A (fun _ _ => rfl) (List.forall_mem_nil _) fun _ => False).weaken
    (Set.empty_subset _)
  exact ⟨A, hflows.seq (.items (by simp [Instruction.simple, Instruction.labels]))⟩

end Statements

end Jminus.Checked
