import Jminus.Code.Stmt
import Mathlib

/-!
Checked trees without mistakes.

Soundness of an expression is relative to the variables in sight, that of a statement also to the
frames around it and to what each slot is for. Slots are handed out in order, so what they are for
is a list, and more slots make it longer at its end.
-/
namespace Jminus

namespace Class

theorem mem_all (c : Class) : c ∈ all := by cases c <;> decide

@[simp] theorem isSubclassOf_refl (c : Class) : c.isSubclassOf c = true := by cases c <;> rfl

theorem isSubclassOf_trans {a b c : Class} (hab : a.isSubclassOf b) (hbc : b.isSubclassOf c) :
    a.isSubclassOf c = true := by
  have key : ∀ a ∈ all, ∀ b ∈ all, ∀ c ∈ all,
      a.isSubclassOf b = true → b.isSubclassOf c = true → a.isSubclassOf c = true := by decide
  exact key a (mem_all a) b (mem_all b) c (mem_all c) hab hbc

end Class

def Ty.isStorable : Ty → Bool
  | .void | .null | .any => false
  | _ => true

namespace Frame

/-- The frame that a jump names. -/
def named? (frames : List Frame) (target : Option Nat) : Option Frame :=
  target.bind fun id => frames.find? (·.id = id)

/-- A break can leave the frame. A switch that nothing leaves has no place for it. -/
def Breakable (f : Frame) : Prop := f.kind = .loop ∨ f.hasBreak = true

/-- The same frame later: its marks may have been set since. -/
structure Le (f g : Frame) : Prop where
  id : f.id = g.id
  kind : f.kind = g.kind
  brk : f.hasBreak = true → g.hasBreak = true
  cont : f.hasContinue = true → g.hasContinue = true

theorem Le.refl (f : Frame) : f.Le f := ⟨rfl, rfl, fun h => h, fun h => h⟩

theorem Le.trans {f g h : Frame} (hfg : f.Le g) (hgh : g.Le h) : f.Le h :=
  ⟨hfg.id.trans hgh.id, hfg.kind.trans hgh.kind, hgh.brk ∘ hfg.brk, hgh.cont ∘ hfg.cont⟩

theorem Breakable.mono {f g : Frame} (h : f.Breakable) (hle : f.Le g) : g.Breakable := by
  cases h with
  | inl h => exact .inl (hle.kind ▸ h)
  | inr h => exact .inr (hle.brk h)

abbrev AllLe (fs gs : List Frame) : Prop := List.Forall₂ Le fs gs

theorem AllLe.refl (fs : List Frame) : AllLe fs fs := by
  induction fs with
  | nil => exact .nil
  | cons f fs ih => exact .cons (.refl f) ih

theorem AllLe.trans {fs gs hs : List Frame} (hfg : AllLe fs gs) (hgh : AllLe gs hs) :
    AllLe fs hs := by
  induction hfg generalizing hs with
  | nil => exact hgh
  | cons h _ ih =>
    cases hgh with
    | cons h' hgh => exact .cons (h.trans h') (ih hgh)

theorem AllLe.map_id {fs gs : List Frame} (h : AllLe fs gs) :
    gs.map (·.id) = fs.map (·.id) := by
  induction h with
  | nil => rfl
  | cons h _ ih => simp only [List.map_cons, ih, h.id]

/-- A jump names the same frame later. -/
theorem AllLe.named? {fs gs : List Frame} (h : AllLe fs gs) {target : Option Nat} {f : Frame}
    (hf : named? fs target = some f) : ∃ g, named? gs target = some g ∧ f.Le g := by
  cases target with
  | none => cases hf
  | some id =>
    simp only [Frame.named?, Option.bind_some] at hf ⊢
    induction h with
    | nil => cases hf
    | @cons a b fs gs hab _ ih =>
      simp only [List.find?_cons, ← hab.id] at hf ⊢
      by_cases hid : a.id = id
      · simp only [hid, decide_true, Option.some.injEq] at hf ⊢
        exact ⟨b, rfl, hf ▸ hab⟩
      · simp only [hid, decide_false] at hf ⊢
        exact ih hf

end Frame

namespace Checked

/-- A constant that a literal of a type stands for. -/
def Constant.Fits : Ty → Option Constant → Prop
  | .int, some (.int _) | .long, some (.long _) | .double, some (.double _) => True
  | .ref .string, some (.string _) | .boolean, some (.bool _) | .null, none => True
  | .char, some (.int n) => ∃ c : Char, n = Int32.ofNat c.toNat
  | _, _ => False

mutual

/-- An expression without mistakes, where the variables `vs` are in sight. -/
def Expr.Sound (vs : List Local) : Expr → Prop
  | .literal type value => Constant.Fits type value
  | .var v => ∃ x ∈ vs, v = some x
  | .assign op target value =>
    value.Sound vs ∧ ∃ x ∈ vs, target = some x ∧
      match op with
      | .plain => value.type.assignableTo x.type = true
      | .compound o => ∃ result operand,
        Ty.binary (some (.compute o)) x.type value.type = some (result, operand) ∧
          result.assignableTo x.type = true
  | .binary op type operandType left right =>
    left.Sound vs ∧ right.Sound vs ∧ ∃ operand, operandType = some operand ∧
      Ty.binary (some op) left.type right.type = some (type, operand)
  | .logical _ left right =>
    left.Sound vs ∧ left.type = .boolean ∧ right.Sound vs ∧ right.type = .boolean
  | .unary op type operand => operand.Sound vs ∧ type = operand.type ∧ type.unary op = true
  | .increment _ _ target => ∃ x ∈ vs, target = some x ∧ x.type.isNumeric = true
  | .conditional type cond thenPart elsePart =>
    cond.Sound vs ∧ cond.type = .boolean ∧ thenPart.Sound vs ∧ elsePart.Sound vs ∧
      Ty.conditional thenPart.type elsePart.type = some type
  | .new type => type = .ref .object ∨ type.isThrowable = true
  | .call method args =>
    Expr.AllSound vs args ∧ ∃ m name, method = some m ∧
      Method.resolve name (args.map Expr.type) = .ok m
  | .group inner => inner.Sound vs

def Expr.AllSound (vs : List Local) : List Expr → Prop
  | [] => True
  | e :: es => e.Sound vs ∧ Expr.AllSound vs es

end

mutual

/-- The variables that an expression names. -/
def Expr.locals : Expr → List Local
  | .literal .. | .new _ => []
  | .var v | .increment _ _ v => v.toList
  | .assign _ target value => target.toList ++ value.locals
  | .binary _ _ _ left right | .logical _ left right => left.locals ++ right.locals
  | .unary _ _ operand | .group operand => operand.locals
  | .conditional _ cond thenPart elsePart =>
    cond.locals ++ (thenPart.locals ++ elsePart.locals)
  | .call _ args => Expr.allLocals args

def Expr.allLocals : List Expr → List Local
  | [] => []
  | e :: es => e.locals ++ Expr.allLocals es

end

mutual

/-- A sound expression names only variables in sight. -/
theorem Expr.Sound.locals_subset {vs : List Local} :
    ∀ {e : Expr}, e.Sound vs → e.locals ⊆ vs
  | .literal .., _ | .new _, _ => List.nil_subset _
  | .var _, ⟨x, hx, hv⟩ | .increment _ _ _, ⟨x, hx, hv, _⟩ => by
    subst hv
    exact List.cons_subset.2 ⟨hx, List.nil_subset _⟩
  | .assign _ _ _, ⟨hvalue, x, hx, ht, _⟩ => by
    subst ht
    exact List.cons_subset.2 ⟨hx, hvalue.locals_subset⟩
  | .binary .., ⟨hl, hr, _⟩ => List.append_subset.2 ⟨hl.locals_subset, hr.locals_subset⟩
  | .logical .., ⟨hl, _, hr, _⟩ => List.append_subset.2 ⟨hl.locals_subset, hr.locals_subset⟩
  | .unary .., ⟨h, _⟩ => h.locals_subset
  | .conditional .., ⟨hc, _, ht, he, _⟩ => List.append_subset.2
      ⟨hc.locals_subset, List.append_subset.2 ⟨ht.locals_subset, he.locals_subset⟩⟩
  | .call .., ⟨hargs, _⟩ => hargs.locals_subset
  | .group inner, h => Expr.Sound.locals_subset (e := inner) h

theorem Expr.AllSound.locals_subset {vs : List Local} :
    ∀ {es : List Expr}, Expr.AllSound vs es → Expr.allLocals es ⊆ vs
  | [], _ => List.nil_subset _
  | _ :: _, ⟨he, hes⟩ => List.append_subset.2 ⟨he.locals_subset, hes.locals_subset⟩

end

def Expr.Condition (vs : List Local) (e : Expr) : Prop := e.Sound vs ∧ e.type = .boolean

/-- What each slot is for: a variable of a type, or an exception that a finally clause delays. -/
abbrev Slots := List (Option Ty)

def Slots.Holds (slots : Slots) (v : Local) : Prop :=
  slots[v.slot]? = some (some v.type) ∧ v.type.isStorable = true

/-- What a statement adds to the variables in sight of those behind it. -/
def Stmt.declares : Stmt → List Local
  | .var v _ => [v]
  | _ => []

/-- The variables in sight behind some statements. -/
def Stmt.inSight (vs : List Local) : List Stmt → List Local
  | [] => vs
  | s :: ss => Stmt.inSight (s.declares ++ vs) ss

def Stmt.isSimple : Stmt → Bool
  | .expr _ | .var .. => true
  | _ => false

mutual

/-- A statement without mistakes. -/
def Stmt.Sound (slots : Slots) (frames : List Frame) (vs : List Local) : Stmt → Prop
  | .expr e => e.Sound vs
  | .var v none => slots.Holds v
  | .var v (some init) =>
    slots.Holds v ∧ init.Sound vs ∧ init.type.assignableTo v.type = true
  | .block body => Stmt.AllSound slots frames vs body
  | .ifElse cond thenBranch none => cond.Condition vs ∧ thenBranch.Sound slots frames vs
  | .ifElse cond thenBranch (some elseBranch) =>
    cond.Condition vs ∧ thenBranch.Sound slots frames vs ∧ elseBranch.Sound slots frames vs
  | .whileLoop frame cond body =>
    frame.kind = .loop ∧ cond.Condition vs ∧ body.Sound slots (frame :: frames) vs
  | .doLoop frame body cond =>
    frame.kind = .loop ∧ body.Sound slots (frame :: frames) vs ∧ cond.Condition vs
  | .forLoop frame init cond update body =>
    frame.kind = .loop ∧ init.all Stmt.isSimple = true ∧
      Stmt.AllSound slots (frame :: frames) vs init ∧
      (∀ c ∈ cond, c.Condition (Stmt.inSight vs init)) ∧
      Expr.AllSound (Stmt.inSight vs init) update ∧
      body.Sound slots (frame :: frames) (Stmt.inSight vs init)
  | .switch _ frame subject groups =>
    frame.kind = .switch ∧ subject.Sound vs ∧ subject.type = .int ∧
      (groups.flatMap SwitchGroup.values).Nodup ∧
      (groups.filter SwitchGroup.isDefault).length ≤ 1 ∧
      SwitchGroup.AllSound slots (frame :: frames) vs groups
  | .brk _ target => ∃ f, Frame.named? frames target = some f ∧ f.Breakable
  | .cont _ target => ∃ f, Frame.named? frames target = some f ∧ f.kind = .loop
  | .ret | .empty => True
  | .throw value => value.Sound vs ∧ (value.type = .null ∨ value.type.isThrowable = true)
  | .tryCatch body catches cleanup =>
    Stmt.AllSound slots frames vs body ∧ CatchClause.AllSound slots frames vs catches ∧
      cleanup.Sound slots frames vs

def Stmt.AllSound (slots : Slots) (frames : List Frame) (vs : List Local) : List Stmt → Prop
  | [] => True
  | s :: ss => s.Sound slots frames vs ∧ Stmt.AllSound slots frames (s.declares ++ vs) ss

def SwitchGroup.AllSound (slots : Slots) (frames : List Frame) (vs : List Local) :
    List SwitchGroup → Prop
  | [] => True
  | .mk _ _ body :: groups =>
    Stmt.AllSound slots frames vs body ∧ SwitchGroup.AllSound slots frames vs groups

def CatchClause.AllSound (slots : Slots) (frames : List Frame) (vs : List Local) :
    List CatchClause → Prop
  | [] => True
  | .mk param body :: clauses =>
    slots.Holds param ∧ param.type.isThrowable = true ∧
      Stmt.AllSound slots frames (param :: vs) body ∧ CatchClause.AllSound slots frames vs clauses

/-- A finally clause without mistakes. Its statements use slots before its own only, so they leave
the delayed exception alone. -/
def Cleanup.Sound (slots : Slots) (frames : List Frame) (vs : List Local) : Cleanup → Prop
  | .absent => True
  | .mk slot body =>
    slots[slot]? = some none ∧ Stmt.AllSound (slots.take slot) frames vs body

end

/-- A variable keeps its slot when there are more. -/
theorem Slots.Holds.mono {slots slots' : Slots} {v : Local} (h : slots.Holds v)
    (hle : slots <+: slots') : slots'.Holds v := by
  obtain ⟨more, rfl⟩ := hle
  obtain ⟨hlt, _⟩ := List.getElem?_eq_some_iff.1 h.1
  exact ⟨by rw [List.getElem?_append_left hlt]; exact h.1, h.2⟩

theorem Slots.take_prefix {slots slots' : Slots} {slot : Nat} (h : slots[slot]? = some none)
    (hle : slots <+: slots') : slots'.take slot = slots.take slot ∧ slots'[slot]? = some none := by
  obtain ⟨more, rfl⟩ := hle
  obtain ⟨hlt, _⟩ := List.getElem?_eq_some_iff.1 h
  exact ⟨List.take_append_of_le_length (by omega), by rw [List.getElem?_append_left hlt]; exact h⟩

mutual

/-- Sound statements stay sound. -/
theorem Stmt.Sound.mono {slots slots' : Slots} {frames frames' : List Frame}
    (hs : slots <+: slots') (hf : Frame.AllLe frames frames') {vs : List Local} :
    ∀ {s : Stmt}, s.Sound slots frames vs → s.Sound slots' frames' vs
  | .expr _, h => h
  | .var _ none, h => Slots.Holds.mono h hs
  | .var _ (some _), ⟨hv, hinit⟩ => ⟨hv.mono hs, hinit⟩
  | .block _, h => Stmt.AllSound.mono hs hf h
  | .ifElse _ _ none, ⟨hc, ht⟩ => ⟨hc, ht.mono hs hf⟩
  | .ifElse _ _ (some _), ⟨hc, ht, he⟩ => ⟨hc, ht.mono hs hf, he.mono hs hf⟩
  | .whileLoop frame _ _, ⟨hk, hc, hb⟩ => ⟨hk, hc, hb.mono hs (.cons (.refl frame) hf)⟩
  | .doLoop frame _ _, ⟨hk, hb, hc⟩ => ⟨hk, hb.mono hs (.cons (.refl frame) hf), hc⟩
  | .forLoop frame _ _ _ _, ⟨hk, hsimple, hi, hc, hu, hb⟩ =>
    ⟨hk, hsimple, Stmt.AllSound.mono hs (.cons (.refl frame) hf) hi, hc, hu,
      hb.mono hs (.cons (.refl frame) hf)⟩
  | .switch _ frame _ _, ⟨hk, hsub, ht, hnodup, hdflt, hg⟩ =>
    ⟨hk, hsub, ht, hnodup, hdflt, SwitchGroup.AllSound.mono hs (.cons (.refl frame) hf) hg⟩
  | .brk _ _, ⟨f, hn, hb⟩ => by
    obtain ⟨g, hg, hle⟩ := hf.named? hn
    exact ⟨g, hg, hb.mono hle⟩
  | .cont _ _, ⟨f, hn, hk⟩ => by
    obtain ⟨g, hg, hle⟩ := hf.named? hn
    exact ⟨g, hg, hle.kind ▸ hk⟩
  | .ret, h | .empty, h => h
  | .throw _, h => h
  | .tryCatch _ _ _, ⟨hb, hc, hf'⟩ =>
    ⟨Stmt.AllSound.mono hs hf hb, CatchClause.AllSound.mono hs hf hc, hf'.mono hs hf⟩

theorem Stmt.AllSound.mono {slots slots' : Slots} {frames frames' : List Frame}
    (hs : slots <+: slots') (hf : Frame.AllLe frames frames') {vs : List Local} :
    ∀ {ss : List Stmt}, Stmt.AllSound slots frames vs ss → Stmt.AllSound slots' frames' vs ss
  | [], h => h
  | _ :: _, ⟨h, hrest⟩ => ⟨h.mono hs hf, Stmt.AllSound.mono hs hf hrest⟩

theorem SwitchGroup.AllSound.mono {slots slots' : Slots} {frames frames' : List Frame}
    (hs : slots <+: slots') (hf : Frame.AllLe frames frames') {vs : List Local} :
    ∀ {gs : List SwitchGroup}, SwitchGroup.AllSound slots frames vs gs →
      SwitchGroup.AllSound slots' frames' vs gs
  | [], h => h
  | .mk _ _ _ :: _, ⟨h, hrest⟩ =>
    ⟨Stmt.AllSound.mono hs hf h, SwitchGroup.AllSound.mono hs hf hrest⟩

theorem CatchClause.AllSound.mono {slots slots' : Slots} {frames frames' : List Frame}
    (hs : slots <+: slots') (hf : Frame.AllLe frames frames') {vs : List Local} :
    ∀ {cs : List CatchClause}, CatchClause.AllSound slots frames vs cs →
      CatchClause.AllSound slots' frames' vs cs
  | [], h => h
  | .mk _ _ :: _, ⟨hp, ht, hb, hrest⟩ =>
    ⟨hp.mono hs, ht, Stmt.AllSound.mono hs hf hb, CatchClause.AllSound.mono hs hf hrest⟩

theorem Cleanup.Sound.mono {slots slots' : Slots} {frames frames' : List Frame}
    (hs : slots <+: slots') (hf : Frame.AllLe frames frames') {vs : List Local} :
    ∀ {c : Cleanup}, c.Sound slots frames vs → c.Sound slots' frames' vs
  | .absent, h => h
  | .mk slot body, ⟨hslot, hb⟩ => by
    obtain ⟨htake, hslot'⟩ := Slots.take_prefix hslot hs
    refine ⟨hslot', ?_⟩
    rw [htake]
    exact Stmt.AllSound.mono (List.prefix_refl _) hf hb

end

section

variable {slots : Slots} {frames : List Frame} {vs : List Local}

variable {P : Local → Prop} {s : Stmt} {ss : List Stmt}

/-- What holds of the variables in sight and of every variable in its slot holds of those that are in
sight behind a statement. -/
theorem forall_declares (hP : ∀ v, slots.Holds v → P v) (hvs : ∀ v ∈ vs, P v)
    (h : s.Sound slots frames vs) : ∀ u ∈ s.declares ++ vs, P u := by
  cases s with
  | var v init =>
    refine List.forall_mem_cons.2 ⟨hP v ?_, hvs⟩
    cases init with
    | none => exact h
    | some e => exact h.1
  | _ => exact hvs

/-- What holds of variables in their slots holds of all in sight. -/
theorem forall_inSight (hP : ∀ v, slots.Holds v → P v) (hvs : ∀ v ∈ vs, P v)
    (h : Stmt.AllSound slots frames vs ss) : ∀ u ∈ Stmt.inSight vs ss, P u := by
  induction ss generalizing vs with
  | nil => exact hvs
  | cons s ss ih => exact ih (forall_declares hP hvs h.1) h.2

theorem holds_cons {v : Local} (hv : slots.Holds v) (hvs : ∀ v ∈ vs, slots.Holds v) :
    ∀ u ∈ v :: vs, slots.Holds u :=
  List.forall_mem_cons.2 ⟨hv, hvs⟩

theorem holds_declares (hvs : ∀ v ∈ vs, slots.Holds v) (h : s.Sound slots frames vs) :
    ∀ u ∈ s.declares ++ vs, slots.Holds u :=
  forall_declares (fun _ hv => hv) hvs h

theorem holds_inSight (hvs : ∀ v ∈ vs, slots.Holds v) (h : Stmt.AllSound slots frames vs ss) :
    ∀ u ∈ Stmt.inSight vs ss, slots.Holds u :=
  forall_inSight (fun _ hv => hv) hvs h

end

end Checked

end Jminus
