import Jminus.Proofs.Handlers
import Jminus.Proofs.Typing
import Mathlib

/-!
Which locals some code uses.

Sound statements load and store the variables in sight and the slots that they were given, each with
the opcodes for what it holds. The statements of a finally clause were given the slots before the one
that holds the delayed exception, and that one is no variable's, so they leave the exception alone.
-/
namespace Jminus

def Item.Uses (P : Cell → Nat → Prop) : Item → Prop
  | .plain op arg => ∀ cell, op.accesses? = some cell → ∃ n : Nat, arg = .const (.slot n) ∧ P cell n
  | _ => True

def Code.Uses (P : Cell → Nat → Prop) (code : Code) : Prop := ∀ i ∈ code, i.Uses P

section Items

variable {P : Cell → Nat → Prop}

attribute [local simp] Item.Uses

@[simp] theorem uses_label (l : Label) : (Item.label l).Uses P := trivial

@[simp] theorem uses_jump (b : Branch) (l : Label) : (Item.jump b l).Uses P := trivial

@[simp] theorem uses_goto (l : Label) : (Code.goto l).Uses P := trivial

@[simp] theorem uses_dispatch (line : Nat) (pairs : List (Int32 × Label)) (l : Label) :
    (Item.dispatch line pairs l).Uses P := trivial

@[simp] theorem uses_handler (h : Handler) : (Item.handler h).Uses P := trivial

@[simp] theorem uses_op (o : Opcode) : (Code.op o).Uses P ↔ o.accesses? = none := by
  simp [Code.op, Option.eq_none_iff_forall_ne_some]

@[simp] theorem uses_ldc (v : Value) : (Code.ldc v).Uses P := by
  simp [Code.ldc]

@[simp] theorem uses_call (m : Method) : (Code.call m).Uses P := by
  simp [Code.call]

@[simp] theorem uses_load (cell : Cell) (n : Nat) : (Code.load cell n).Uses P ↔ P cell n := by
  simp [Code.load]

@[simp] theorem uses_store (cell : Cell) (n : Nat) : (Code.store cell n).Uses P ↔ P cell n := by
  simp [Code.store]

@[simp] theorem uses_nil : Code.Uses P [] := by
  simp [Code.Uses]

@[simp] theorem uses_cons {i : Item} {code : Code} :
    Code.Uses P (i :: code) ↔ i.Uses P ∧ code.Uses P := by
  simp [Code.Uses]

@[simp] theorem uses_append {a b : Code} : Code.Uses P (a ++ b) ↔ a.Uses P ∧ b.Uses P := by
  simp only [Code.Uses, List.forall_mem_append]

end Items

namespace Checked

open Code

variable {P : Cell → Nat → Prop} {vs : List Local}

/-- Code that loads and stores only what `P` allows. -/
abbrev Uses (P : Cell → Nat → Prop) (g : Gen Code) : Prop := Makes (Code.Uses P) g

abbrev Allowed (P : Cell → Nat → Prop) (vs : List Local) : Prop := ∀ v ∈ vs, P v.type.cell v.slot

structure Forms.Uses (P : Cell → Nat → Prop) (f : Forms) : Prop where
  value : Checked.Uses P f.value
  cond : ∀ target onTrue, Checked.Uses P (f.cond target onTrue)

theorem Elementary.uses {i : Item} (hvs : Allowed P vs) (h : Elementary vs i) : i.Uses P := by
  cases h with
  | label | jump => trivial
  | load hv | store hv => simpa using hvs _ hv
  | plain hcell _ => exact fun cell hc => by cases hcell.symm.trans hc

theorem Touches.uses {g : Gen Code} (h : Touches vs g) (hvs : Allowed P vs) : Uses P g :=
  fun _ _ _ hcode i hi => (h hcode i hi).uses hvs

/-- A sound expression uses variables in sight only. -/
theorem forms_uses (hvs : Allowed P vs) {e : Expr} (h : e.Sound vs) : (forms e).Uses P :=
  have htouch := forms_touch h.locals_subset
  ⟨htouch.value.uses hvs, fun target onTrue => (htouch.cond target onTrue).uses hvs⟩

section

variable {slots : Slots}

/-- What a slot is for, as the machine sees it. -/
def held : Option Ty → Cell
  | some t => t.cell
  | none => .ref

def Slots.Allowed (P : Cell → Nat → Prop) (slots : Slots) : Prop :=
  ∀ n t, slots[n]? = some t → P (held t) n

theorem Slots.Allowed.holds (hP : slots.Allowed P) {v : Local} (h : slots.Holds v) :
    P v.type.cell v.slot :=
  hP v.slot (some v.type) h.1

end

theorem forTest_uses (hvs : Allowed P vs) {cond : Option Expr} (h : ∀ c ∈ cond, c.Condition vs)
    (target : Label) : Uses P (forTest cond target) := by
  cases cond with
  | none => exact .pure (by simp)
  | some c => exact (forms_uses hvs (h c rfl).1).cond target false

theorem fallback_uses (base : Nat) (groups : List SwitchGroup) (n : Nat) :
    Code.Uses P (fallback base groups n).2.1 := by
  unfold fallback
  split <;> simp

theorem wayOut_uses (frame : Frame) (n : Nat) : Code.Uses P (wayOut frame n).2.1 := by
  unfold wayOut
  split <;> simp

theorem zero_uses (t : Ty) : (zero t).Uses P := by
  unfold zero
  split <;> simp

theorem delays_use (handler : Label) (rs : List Caught) :
    Code.Uses P (rs.map (delays handler)) := by
  intro i hi
  obtain ⟨r, _, rfl⟩ := List.mem_map.1 hi
  simp [delays]

/-- What delays exceptions stores to its own slot and where the copy does. -/
theorem delayed_uses {slots : Slots} {frames : List Frame} {cleanup : Cleanup} {exits : Exits}
    (hP : slots.Allowed P) (h : cleanup.Sound slots frames vs)
    (hcleanup : Uses P (cleanupCode cleanup exits)) (start stop : Label) (caught : List Caught) :
    Uses P (delayed cleanup exits start stop caught) := by
  cases cleanup with
  | absent => exact .pure (by simp)
  | mk own body =>
    intro n code n' hcode
    obtain ⟨g, hg, rfl⟩ := delay_ok.1 hcode
    have hown : P .ref own := hP own none h.1
    simp [hcleanup hg, hown, delays_use]

mutual

/-- A sound statement uses its own slots only. -/
theorem stmtCode_uses {slots : Slots} (hP : slots.Allowed P) : ∀ {s : Stmt}
    {frames : List Frame} {vs : List Local} (exits : Exits), Allowed P vs →
      s.Sound slots frames vs → Uses P (stmtCode s exits)
  | .expr e, _, _, _, hvs, h => (effect_touches h.locals_subset).uses hvs
  | .var v none, _, _, _, _, h => .pure (by simp [zero_uses, hP.holds h])
  | .var v (some init), _, _, _, hvs, ⟨hv, h, _⟩ => fun n code n' hcode => by
    obtain ⟨c, hc, rfl⟩ := var_ok.1 hcode
    simp [(forms_uses hvs h).value hc, hP.holds hv]
  | .block body, _, _, exits, hvs, h => stmtsCode_use hP exits hvs h
  | .ifElse cond thenBranch none, _, _, exits, hvs, ⟨hc, ht⟩ => fun n code n' hcode => by
    obtain ⟨a, m, ha, b, hb, rfl⟩ := if_ok.1 hcode
    simp [(forms_uses hvs hc.1).cond _ _ ha, stmtCode_uses hP exits hvs ht hb]
  | .ifElse cond thenBranch (some elseBranch), _, _, exits, hvs, ⟨hc, ht, he⟩ =>
      fun n code n' hcode => by
    obtain ⟨a, m, ha, b, m', hb, c, hc', rfl⟩ := ifElse_ok.1 hcode
    simp [(forms_uses hvs hc.1).cond _ _ ha, stmtCode_uses hP exits hvs ht hb,
      stmtCode_uses hP exits hvs he hc']
  | .whileLoop frame cond body, _, _, exits, hvs, ⟨_, hc, hs⟩ => fun n code n' hcode => by
    obtain ⟨a, m, ha, b, hb, rfl⟩ := while_ok.1 hcode
    simp [(forms_uses hvs hc.1).cond _ _ ha, stmtCode_uses hP _ hvs hs hb]
  | .doLoop frame body cond, _, _, exits, hvs, ⟨_, hs, hc⟩ => fun n code n' hcode => by
    obtain ⟨b, m, hb, a, ha, rfl⟩ := do_ok.1 hcode
    simp [(forms_uses hvs hc.1).cond _ _ ha, stmtCode_uses hP _ hvs hs hb]
  | .forLoop frame init cond update body, _, _, exits, hvs, ⟨_, _, hi, hc, hu, hs⟩ =>
      fun n code n' hcode => by
    obtain ⟨i, m₁, hi', a, m₂, ha, b, m₃, hb, u, hu', rfl⟩ := for_ok.1 hcode
    have hvs' := forall_inSight (fun _ hv => hP.holds hv) hvs hi
    simp [stmtsCode_use hP _ hvs hi hi', forTest_uses hvs' hc _ ha,
      stmtCode_uses hP _ hvs' hs hb, (effects_touch hu.locals_subset).uses hvs' hu']
  | .switch line frame subject groups, _, _, exits, hvs, ⟨_, hsub, _, _, _, hg⟩ =>
      fun n code n' hcode => by
    obtain ⟨a, m, ha, d, rfl, o, rfl, b, hb, rfl⟩ := switch_ok.1 hcode
    simp [(forms_uses hvs hsub).value ha, groupsCode_use hP _ _ hvs hg hb, fallback_uses,
      wayOut_uses]
  | .brk line target, _, _, exits, _, _ => by
    unfold stmtCode
    split
    · exact .pure (by simp)
    · exact .throw _
  | .cont line target, _, _, exits, _, _ => by
    unfold stmtCode
    split
    · exact .pure (by simp)
    · exact .throw _
  | .ret, _, _, _, _, _ => .pure (by simp)
  | .throw value, _, _, _, hvs, ⟨h, _⟩ => fun n code n' hcode => by
    obtain ⟨c, hc, rfl⟩ := throw_code_ok.1 hcode
    simp [(forms_uses hvs h).value hc]
  | .tryCatch body catches cleanup, _, _, exits, hvs, ⟨hb, hc, hf⟩ => fun n code n' hcode => by
    obtain ⟨a, m₁, ha, f, m₂, hf', c, caught, m₃, hc', d, hd, rfl⟩ := try_ok.1 hcode
    have hcleanup := cleanupCode_uses hP exits hvs hf
    simp [stmtsCode_use hP exits hvs hb ha, hcleanup hf',
      catchesCode_use hP exits hvs hc hcleanup hc', delayed_uses hP hf hcleanup _ _ _ hd]
  | .empty, _, _, _, _, _ => .pure (by simp)

theorem stmtsCode_use {slots : Slots} (hP : slots.Allowed P) : ∀ {ss : List Stmt}
    {frames : List Frame} {vs : List Local} (exits : Exits), Allowed P vs →
      Stmt.AllSound slots frames vs ss → Uses P (stmtsCode ss exits)
  | [], _, _, _, _, _ => .pure (by simp)
  | s :: ss, _, _, exits, hvs, ⟨hs, hss⟩ => fun n code n' hcode => by
    obtain ⟨a, m, ha, b, hb, rfl⟩ := stmts_cons_ok.1 hcode
    simp [stmtCode_uses hP exits hvs hs ha,
      stmtsCode_use hP exits (forall_declares (fun _ hv => hP.holds hv) hvs hs) hss hb]

theorem groupsCode_use {slots : Slots} (hP : slots.Allowed P) : ∀ {gs : List SwitchGroup}
    {frames : List Frame} {vs : List Local} (base : Nat) (exits : Exits),
      Allowed P vs → SwitchGroup.AllSound slots frames vs gs →
      Uses P (groupsCode gs base exits)
  | [], _, _, _, _, _, _ => .pure (by simp)
  | .mk values isDefault body :: groups, _, _, base, exits, hvs, ⟨hg, hgs⟩ =>
      fun n code n' hcode => by
    obtain ⟨a, m, ha, b, hb, rfl⟩ := groups_cons_ok.1 hcode
    simp [stmtsCode_use hP exits hvs hg ha, groupsCode_use hP (base + 1) exits hvs hgs hb]

theorem catchesCode_use {slots : Slots} (hP : slots.Allowed P) : ∀ {cs : List CatchClause}
    {frames : List Frame} {vs : List Local} (exits : Exits) {cleanup : Gen Code},
      Allowed P vs → CatchClause.AllSound slots frames vs cs → Uses P cleanup →
      ∀ {last start stop : Label} {n n' : Nat} {code : Code} {caught : List Caught},
        catchesCode cs exits cleanup last start stop n = .ok ((code, caught), n') →
        code.Uses P
  | [], _, _, _, _, _, _, _, _, _, _, _, _, _, _, hcode => by
    cases hcode
    simp
  | .mk param body :: clauses, _, _, exits, _, hvs, ⟨hp, _, hb, hcs⟩, hcleanup, _, _, _, _, _, _, _,
      hcode => by
    obtain ⟨a, m₁, ha, f, m₂, hf, c, more, hc, rfl, rfl⟩ := catches_cons_ok.1 hcode
    have hparam := hP.holds hp
    simp [hparam, stmtsCode_use hP exits (List.forall_mem_cons.2 ⟨hparam, hvs⟩) hb ha, hcleanup hf,
      catchesCode_use hP exits hvs hcs hcleanup hc]

theorem cleanupCode_uses {slots : Slots} (hP : slots.Allowed P) : ∀ {c : Cleanup}
    {frames : List Frame} {vs : List Local} (exits : Exits), Allowed P vs →
      c.Sound slots frames vs → Uses P (cleanupCode c exits)
  | .absent, _, _, _, _, _ => .pure (by simp)
  | .mk _ _, _, _, exits, hvs, ⟨_, hb⟩ => fun _ _ _ hcode => by
    rw [cleanupCode] at hcode
    exact stmtsCode_use hP exits hvs (.mono (List.take_prefix _ _) (.refl _) hb) hcode

end

end Checked

/-- An item that does not store to a slot. -/
def Item.Avoids (slot : Nat) (i : Item) : Prop :=
  ∀ cell n, i = .plain (.store cell) (.const (.slot n)) → n.toNat ≠ slot

def Code.Avoids (slot : Nat) (code : Code) : Prop := ∀ i ∈ code, i.Avoids slot

/-- What is not used is not stored to. -/
theorem Code.Uses.avoids {slot : Nat} {code : Code} (h : code.Uses fun _ n => n ≠ slot) :
    code.Avoids slot := by
  rintro _ hi cell n rfl
  obtain ⟨k, heq, hk⟩ := h _ hi cell rfl
  cases heq
  exact hk

namespace Checked

/-- A copy of a finally clause leaves the slot of the clause alone. -/
theorem copy_avoids {slots : Slots} {frames : List Frame} {vs : List Local} {slot : Nat}
    {body : List Stmt} {exits : Exits} {n n' : Nat} {code : Code} (hvs : ∀ v ∈ vs, slots.Holds v)
    (h : Cleanup.Sound slots frames vs (.mk slot body))
    (hcode : stmtsCode body exits n = .ok (code, n')) : code.Avoids slot := by
  have hgiven : Slots.Allowed (fun _ n => n ≠ slot) (slots.take slot) := by
    intro n t hn
    have hlt := (List.getElem?_eq_some_iff.1 hn).1
    rw [List.length_take] at hlt
    omega
  have hsight : Allowed (fun _ n => n ≠ slot) vs := by
    intro v hv hslot
    have hholds := (hvs v hv).1
    rw [hslot, h.1] at hholds
    cases hholds
  exact Code.Uses.avoids (stmtsCode_use hgiven exits hsight h.2 hcode)

end Checked

end Jminus
