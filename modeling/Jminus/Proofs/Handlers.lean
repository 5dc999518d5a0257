import Jminus.Proofs.Shapes
import Jminus.Proofs.Steps
import Mathlib

/-!
Which handler takes what is thrown.

The table of a listing is searched from its start. Code protects nothing outside its own range, so
for what is thrown in a part of some code only the handlers of that part come before those that
stand around the code.
-/
namespace Jminus

open Machine (Memory Config Goes Throws Steps tick unwind handlerFor? accepts covers)

/-- Whether a place is between two labels. -/
def Listing.within (prog : Listing) (start stop : Label) (p : Nat) : Bool :=
  match prog.place? start, prog.place? stop with
  | some first, some last => decide (first ≤ p) && decide (p < last)
  | _, _ => false

/-- Where the first handler of a list is that takes an object of a class thrown at a place. -/
def Listing.handler? (prog : Listing) (hs : List Handler) (cls : Class) (p : Nat) :
    Option Label :=
  (hs.find? fun h => prog.within h.start h.stop p && accepts h cls).map (·.handler)

namespace Listing

variable {prog : Listing} {cls : Class} {p : Nat}

@[simp] theorem handler?_nil : prog.handler? [] cls p = none := rfl

/-- The first list of handlers is searched first. -/
@[simp] theorem handler?_append (hs hs' : List Handler) :
    prog.handler? (hs ++ hs') cls p = (prog.handler? hs cls p).or (prog.handler? hs' cls p) := by
  rw [handler?, List.find?_append, Option.map_or]
  rfl

theorem handler?_cons (h : Handler) (hs : List Handler) :
    prog.handler? (h :: hs) cls p = if prog.within h.start h.stop p && accepts h cls then
      some h.handler else prog.handler? hs cls p := by
  rw [handler?, List.find?_cons]
  cases prog.within h.start h.stop p && accepts h cls <;> rfl

variable {first last : Nat} {hs : List Handler}

/-- A place is in a range from the start up to the end, which is outside. -/
theorem within_eq {start stop : Label} (hstart : prog.place? start = some first)
    (hstop : prog.place? stop = some last) :
    prog.within start stop p = (decide (first ≤ p) && decide (p < last)) := by
  rw [within, hstart, hstop]

theorem handler?_of_out (h : ∀ k ∈ hs, prog.within k.start k.stop p = false) :
    prog.handler? hs cls p = none := by
  refine Option.map_eq_none_iff.2 (List.find?_eq_none.2 fun k hk => ?_)
  simp [h k hk]

theorem covers_eq {h : Handler} (hstart : prog.place? h.start = some first)
    (hstop : prog.place? h.stop = some last) :
    covers prog h p = .ok (prog.within h.start h.stop p) := by
  rw [within_eq hstart hstop]
  simp only [covers, pcOf, hstart, hstop]
  by_cases hp : p < first
  · simp [hp, bind, Except.bind, pure, Except.pure]
  · simp [hp, not_lt.1 hp, bind, Except.bind, pure, Except.pure]

/-- Searching the table of a resolved listing does not fail. -/
theorem handlerFor?_eq (hplaced : ∀ h ∈ hs, (∃ first, prog.place? h.start = some first) ∧
      ∃ last, prog.place? h.stop = some last) :
    ∃ h, handlerFor? prog cls p hs = .ok h ∧ h.map (·.handler) = prog.handler? hs cls p := by
  induction hs with
  | nil => exact ⟨none, rfl, rfl⟩
  | cons h hs ih =>
    obtain ⟨⟨first, hstart⟩, last, hstop⟩ := hplaced h List.mem_cons_self
    obtain ⟨found, hfound, hlabel⟩ := ih fun k hk => hplaced k (List.mem_cons_of_mem _ hk)
    simp only [handlerFor?, covers_eq hstart hstop, bind, Except.bind, hfound, handler?_cons]
    cases prog.within h.start h.stop p && accepts h cls with
    | true => exact ⟨some h, rfl, rfl⟩
    | false => exact ⟨found, rfl, hlabel⟩

end Listing

/-- What is thrown reaches the handler that `out` names for its class; without one the machine
stops. -/
def Raises (prog : Listing) (out : Class → Option Label) (c : Config) (x : Thrown)
    (mem : Memory) : Prop :=
  ∀ m : Machine, m.config = c → ∃ k m' m'', Steps prog k m m' ∧
    tick prog 0 m' = unwind prog x m'.pc m'' ∧ m''.memory = mem ∧
    prog.handler? prog.handlers x.cls m'.pc = out x.cls

section Unwinding

variable {prog : Listing} {out out' : Class → Option Label} {c c' : Config} {x : Thrown}
  {mem : Memory}

/-- What is thrown reaches the handler that the search names. -/
theorem Machine.Throws.raises {lo hi : Nat} (h : Throws prog lo hi c x mem)
    (hout : ∀ p, lo ≤ p → p < hi → prog.handler? prog.handlers x.cls p = out x.cls) :
    Raises prog out c x mem := by
  intro m hm
  obtain ⟨k, m', m'', hsteps, hlo, hhi, htick, hmem⟩ := h m hm
  exact ⟨k, m', m'', hsteps, htick, hmem, hout _ hlo hhi⟩

theorem Raises.after {k : Nat} (hgoes : Goes prog k c c') (h : Raises prog out c' x mem) :
    Raises prog out c x mem := by
  intro m hm
  obtain ⟨i, m', _, hsteps, hm'⟩ := hgoes m hm
  obtain ⟨j, m₁, m₂, hsteps', hrest⟩ := h m' hm'
  exact ⟨i + j, m₁, m₂, hsteps.trans hsteps', hrest⟩

theorem Raises.congr (h : Raises prog out c x mem) (hout : out x.cls = out' x.cls) :
    Raises prog out' c x mem := by
  intro m hm
  obtain ⟨k, m', m'', hsteps, htick, hmem, hfind⟩ := h m hm
  exact ⟨k, m', m'', hsteps, htick, hmem, hfind.trans hout⟩

/-- In a resolved listing the search of the machine comes to an end. -/
theorem Listing.Resolved.handlerFor? (hres : prog.Resolved) (cls : Class) (p : Nat) :
    ∃ h, Machine.handlerFor? prog cls p prog.handlers = .ok h ∧
      h.map (·.handler) = prog.handler? prog.handlers cls p :=
  Listing.handlerFor?_eq fun h hh =>
    ⟨Listing.exists_place? (hres.table h hh _ (by simp)),
      Listing.exists_place? (hres.table h hh _ (by simp))⟩

/-- An object that a handler takes is alone on the stack there. -/
theorem Raises.caught (hres : prog.Resolved) {l : Label} {q : Nat}
    (hraises : Raises prog out c x mem) (hout : out x.cls = some l)
    (hplace : prog.place? l = some q) : Goes prog 1 c ⟨q, [x.value], mem⟩ := by
  intro m hm
  obtain ⟨k, m', m'', hsteps, htick, hmem, hfind⟩ := hraises m hm
  subst hmem
  obtain ⟨found, hfound, hlabel⟩ := hres.handlerFor? x.cls m'.pc
  rw [hfind, hout] at hlabel
  obtain ⟨h, rfl, rfl⟩ := Option.map_eq_some_iff.1 hlabel
  have hcatch : (Machine.catchAt prog h x).run m'' = .ok () { m'' with
      stack := [x.value], pc := q, caught := m''.caught.push (x.cls, h.handler) } := by
    simp only [Machine.catchAt, Machine.jump, Listing.pcOf, hplace]
    rfl
  refine ⟨k + 1, { m'' with
    stack := [x.value], pc := q, caught := m''.caught.push (x.cls, h.handler) }, by omega,
    hsteps.trans (.step ?_ (.refl _)), rfl⟩
  rw [htick, unwind, hfound]
  simp only [hcatch]

/-- The machine stops at an object that no handler takes. -/
theorem Raises.uncaught (hres : prog.Resolved) (hraises : Raises prog out c x mem)
    (hout : out x.cls = none) {m : Machine} (hm : m.config = c) :
    ∃ k m' m'', Steps prog k m m' ∧ m''.memory = mem ∧
      tick prog 0 m' = .stopped (.uncaught x.cls m'.pc) m'' := by
  obtain ⟨k, m', m'', hsteps, htick, hmem, hfind⟩ := hraises m hm
  obtain ⟨found, hfound, hlabel⟩ := hres.handlerFor? x.cls m'.pc
  rw [hfind, hout] at hlabel
  obtain rfl := Option.map_eq_none_iff.1 hlabel
  refine ⟨k, m', m'', hsteps, hmem, ?_⟩
  rw [htick, unwind, hfound]

end Unwinding

/-- The handlers of some code protect nothing outside it. -/
def Confined (prog : Listing) (lo : Nat) (code : Code) : Prop :=
  ∀ h ∈ code.handlers, ∀ p, prog.within h.start h.stop p = true → lo ≤ p ∧ p < lo + code.size

def Guarded (prog : Listing) (out : Class → Option Label) (lo : Nat) (code : Code) : Prop :=
  ∀ p cls, lo ≤ p → p < lo + code.size →
    prog.handler? prog.handlers cls p = (prog.handler? code.handlers cls p).or (out cls)

section Ranges

variable {prog : Listing} {out : Class → Option Label} {lo : Nat} {a b : Code}

theorem Confined.quiet (h : a.handlers = []) : Confined prog lo a := by
  intro k hk
  rw [h] at hk
  cases hk

/-- Code made of confined parts is confined. -/
theorem Confined.append (ha : Confined prog lo a) (hb : Confined prog (lo + a.size) b) :
    Confined prog lo (a ++ b) := by
  intro k hk p hp
  rw [Code.handlers_append, List.mem_append] at hk
  rw [Code.size_append]
  rcases hk with hk | hk
  · have hrange := ha k hk p hp
    omega
  · have hrange := hb k hk p hp
    omega

/-- Handlers of other code take nothing. -/
theorem Confined.handler?_none (h : Confined prog lo a) {cls : Class} {p : Nat}
    (hp : p < lo ∨ lo + a.size ≤ p) : prog.handler? a.handlers cls p = none := by
  refine Listing.handler?_of_out fun k hk => ?_
  by_contra hin
  have hrange := h k hk p (by simpa using hin)
  omega

/-- The code on the left has the handlers of all of it. -/
theorem Guarded.left (h : Guarded prog out lo (a ++ b)) (hb : Confined prog (lo + a.size) b) :
    Guarded prog out lo a := by
  intro p cls hlo hhi
  rw [h p cls hlo (by rw [Code.size_append]; omega), Code.handlers_append, Listing.handler?_append,
    hb.handler?_none (.inl hhi), Option.or_none]

theorem Guarded.right (h : Guarded prog out lo (a ++ b)) (ha : Confined prog lo a) :
    Guarded prog out (lo + a.size) b := by
  intro p cls hlo hhi
  rw [h p cls (by omega) (by rw [Code.size_append]; omega), Code.handlers_append,
    Listing.handler?_append, ha.handler?_none (.inr hlo), Option.none_or]

/-- Code without handlers of its own. -/
theorem Guarded.quiet (h : Guarded prog out lo a) (ha : a.handlers = []) (p : Nat) (cls : Class)
    (hlo : lo ≤ p) (hhi : p < lo + a.size) : prog.handler? prog.handlers cls p = out cls := by
  rw [h p cls hlo hhi, ha, Listing.handler?_nil, Option.none_or]

/-- A label that some code places is in its range. -/
theorem Code.At.range (hat : a.At prog lo) {l : Label} (hl : l ∈ a.placed) :
    ∃ q, prog.place? l = some q ∧ lo ≤ q ∧ q ≤ lo + a.size := by
  induction a generalizing lo with
  | nil => cases hl
  | cons i a ih =>
    obtain ⟨hi, hat⟩ := hat
    have hrest : l ∈ Code.placed a → ∃ q, prog.place? l = some q ∧ lo ≤ q ∧
        q ≤ lo + Code.size (i :: a) := by
      intro hl
      obtain ⟨q, hq, hlo, hhi⟩ := ih hat hl
      exact ⟨q, hq, by omega, by rw [Code.size_cons]; omega⟩
    cases i with
    | label x =>
      rcases List.mem_cons.1 hl with rfl | hl
      · exact ⟨lo, hi, by omega, by omega⟩
      · exact hrest hl
    | _ => exact hrest hl

end Ranges

/-- What an opcode loads or stores. -/
@[simp] def Opcode.accesses? : Opcode → Option Cell
  | .load cell | .store cell => some cell
  | _ => none

namespace Checked

open Code

variable {n n' : Nat} {outs : List Label} {code : Code}

/-- Code that is laid out protects only itself. -/
theorem Laid.confined {prog : Listing} {lo : Nat} (h : Laid n n' outs [] code)
    (hat : code.At prog lo) : Confined prog lo code := by
  have hplaced : ∀ l ∈ code.ranges, ∃ q, prog.place? l = some q ∧ lo ≤ q ∧ q ≤ lo + code.size := by
    intro l hl
    exact hat.range (h.placed ((h.ranges l hl).resolve_right List.not_mem_nil))
  intro k hk p hp
  obtain ⟨first, hfirst, hlo, _⟩ := hplaced k.start (Code.mem_ranges hk _ (by simp))
  obtain ⟨last, hlast, _, hhi⟩ := hplaced k.stop (Code.mem_ranges hk _ (by simp))
  rw [Listing.within_eq hfirst hlast, Bool.and_eq_true, decide_eq_true_eq, decide_eq_true_eq] at hp
  omega

theorem Lays.laid {around : List Label} {g : Gen Code} (h : Lays outs around g)
    (hg : g n = .ok (code, n')) : Laid n n' outs around code := by
  obtain ⟨c, m, hc, hlaid⟩ := h n
  cases hg.symm.trans hc
  exact hlaid

theorem Lays.confined {outs : List Label} {g : Gen Code} (h : Lays outs [] g) {n n' : Nat}
    {code : Code} (hg : g n = .ok (code, n')) {prog : Listing} {lo : Nat}
    (hat : code.At prog lo) : Confined prog lo code := (h.laid hg).confined hat

/-- Whatever is made has a property. -/
def Makes {α : Type} (P : α → Prop) (g : Gen α) : Prop := ∀ ⦃n a n'⦄, g n = .ok (a, n') → P a

section Makes

variable {α β : Type} {P : α → Prop} {Q : β → Prop}

theorem Makes.pure {a : α} (h : P a) : Makes P (Pure.pure a : Gen α) := by
  intro n b n' hb
  cases pure_ok.1 hb
  exact h

theorem Makes.throw (f : Fault) : Makes P (throw f : Gen α) := by
  intro n a n' h
  exact (throw_ok.1 h).elim

/-- A property of what comes first may be used for what follows. -/
theorem Makes.bind {g : Gen α} {f : α → Gen β} (hg : Makes P g) (hf : ∀ a, P a → Makes Q (f a)) :
    Makes Q (g >>= f) := by
  intro n b n' h
  obtain ⟨a, m, ha, hb⟩ := bind_ok.1 h
  exact hf a (hg ha) hb

theorem Makes.any (g : Gen α) : Makes (fun _ => True) g := fun _ _ _ _ => trivial

end Makes

/-- What the code of expressions is made of: labels, jumps, loads and stores of the variables `vs`,
and instructions that touch no local. -/
inductive Elementary (vs : List Local) : Item → Prop
  | label (l : Label) : Elementary vs (.label l)
  | jump (b : Branch) (l : Label) : Elementary vs (.jump b l)
  | load {v : Local} (hv : v ∈ vs) : Elementary vs (load v.type.cell v.slot)
  | store {v : Local} (hv : v ∈ vs) : Elementary vs (store v.type.cell v.slot)
  | plain {o : Opcode} {arg : Operand} (hcell : o.accesses? = none)
      (hplain : Instruction.simple o arg = .plain o arg) : Elementary vs (.plain o arg)

def Elemental (vs : List Local) (code : Code) : Prop := ∀ i ∈ code, Elementary vs i

abbrev Touches (vs : List Local) (g : Gen Code) : Prop := Makes (Elemental vs) g

structure Forms.Touch (vs : List Local) (f : Forms) : Prop where
  value : Touches vs f.value
  cond : ∀ target onTrue, Touches vs (f.cond target onTrue)

section Elementary

variable {vs : List Local}

attribute [local simp] Elementary.label Elementary.jump

@[simp] theorem elemental_nil : Elemental vs [] := List.forall_mem_nil _

@[simp] theorem elemental_cons {i : Item} :
    Elemental vs (i :: code) ↔ Elementary vs i ∧ Elemental vs code := List.forall_mem_cons

@[simp] theorem elemental_append {a b : Code} :
    Elemental vs (a ++ b) ↔ Elemental vs a ∧ Elemental vs b := List.forall_mem_append

@[simp] theorem elementary_op (o : Opcode) : Elementary vs (op o) ↔
    o.accesses? = none ∧ Instruction.simple o .absent = .plain o .absent := by
  refine ⟨fun h => ?_, fun h => .plain h.1 h.2⟩
  cases h with
  | plain hcell hplain => exact ⟨hcell, hplain⟩

@[simp] theorem elementary_ldc (v : Value) : Elementary vs (ldc v) := .plain rfl rfl

@[simp] theorem elementary_goto (l : Label) : Elementary vs (goto l) := .jump _ l

theorem Forms.Touch.ofValue {value : Gen Code} (h : Touches vs value) :
    (Forms.ofValue value).Touch vs :=
  ⟨h, fun _ _ => h.bind fun _ hc => .pure (by simp [hc])⟩

theorem Forms.Touch.ofCond {cond : Label → Bool → Gen Code}
    (h : ∀ target onTrue, Touches vs (cond target onTrue)) : (Forms.ofCond cond).Touch vs :=
  ⟨(Makes.any _).bind fun _ _ => (Makes.any _).bind fun _ _ => (h _ _).bind fun _ hc =>
    .pure (by simp [hc]), h⟩

theorem loadLocal_touches {v : Option Local} (h : v.toList ⊆ vs) :
    Makes (Elementary vs) (loadLocal v) := by
  cases v with
  | none => exact .throw _
  | some x => exact .pure (.load (h List.mem_cons_self))

theorem storeLocal_touches {v : Option Local} (h : v.toList ⊆ vs) :
    Makes (Elementary vs) (storeLocal v) := by
  cases v with
  | none => exact .throw _
  | some x => exact .pure (.store (h List.mem_cons_self))

theorem operator_touches (vs : List Local) (o : Operator) (left right : Ty) :
    Makes (Elementary vs) (operator o left right) := by
  unfold operator
  split
  · exact .pure (.plain rfl rfl)
  · split
    · rename_i hop
      unfold opcode? at hop
      split at hop <;> cases hop <;> exact .pure (.plain rfl rfl)
    · exact .throw _

theorem constant_elementary (value : Option Constant) : Elementary vs (constant value) := by
  unfold constant
  split <;> exact .plain rfl rfl

theorem one_elementary (t : Ty) : Elementary vs (one t) := by
  unfold one
  split <;> exact .plain rfl rfl

theorem comparison_elemental (rel : Relation) (t : Option Ty) :
    Elemental vs (comparison rel t).1 := by
  unfold comparison
  split
  · simp [Instruction.simple]
  · split <;> simp [Instruction.simple]
  · split <;> simp
  · simp

mutual

/-- The code of an expression touches only the variables that the expression names. -/
theorem forms_touch : ∀ {e : Expr}, e.locals ⊆ vs → (forms e).Touch vs
  | .literal _ value, _ => by
    have hpush : Touches vs (pure [constant value]) := .pure (by simp [constant_elementary])
    unfold forms
    split
    · refine ⟨hpush, fun target onTrue => .pure ?_⟩
      split <;> simp
    · exact .ofValue hpush
  | .var _, h => .ofValue ((loadLocal_touches h).bind fun _ hi => .pure (by simp [hi]))
  | .assign .plain _ _, h =>
    have ⟨ht, hv⟩ := List.append_subset.1 h
    .ofValue <| (forms_touch hv).value.bind fun c hc => (storeLocal_touches ht).bind fun i hi =>
      .pure (by simp [hc, hi, Instruction.simple])
  | .assign (.compound o) _ _, h =>
    have ⟨ht, hv⟩ := List.append_subset.1 h
    .ofValue <| (loadLocal_touches ht).bind fun old hold => (forms_touch hv).value.bind fun c hc =>
      (operator_touches vs o _ _).bind fun i hi => (storeLocal_touches ht).bind fun j hj =>
        .pure (by simp [hold, hc, hi, hj, Instruction.simple])
  | .binary (.compute o) _ _ _ _, h =>
    have ⟨hl, hr⟩ := List.append_subset.1 h
    .ofValue <| (forms_touch hl).value.bind fun a ha => (forms_touch hr).value.bind fun b hb =>
      (operator_touches vs o _ _).bind fun i hi => .pure (by simp [ha, hb, hi])
  | .binary (.compare rel) _ _ _ _, h => .ofCond fun target onTrue n code n' hcode => by
    have ⟨hl, hr⟩ := List.append_subset.1 h
    obtain ⟨a, m, ha, b, hb, rfl⟩ := compare_ok.1 hcode
    simp [(forms_touch hl).value ha, (forms_touch hr).value hb, comparison_elemental]
  | .logical _ _ _, h => .ofCond fun target onTrue => by
    have ⟨hl, hr⟩ := List.append_subset.1 h
    unfold both
    split
    · exact (Makes.any _).bind fun _ _ => ((forms_touch hl).cond _ _).bind fun a ha =>
        ((forms_touch hr).cond _ _).bind fun b hb => .pure (by simp [ha, hb])
    · exact ((forms_touch hl).cond _ _).bind fun a ha =>
        ((forms_touch hr).cond _ _).bind fun b hb => .pure (by simp [ha, hb])
  | .unary .not _ operand, h => .ofCond fun target _ => (forms_touch (e := operand) h).cond target _
  | .unary .neg _ operand, h => .ofValue <| (forms_touch (e := operand) h).value.bind fun c hc =>
    .pure (by simp [hc, Instruction.simple])
  | .unary .complement _ operand, h => .ofValue <|
    (forms_touch (e := operand) h).value.bind fun c hc =>
      .pure (by split <;> simp [hc, Instruction.simple])
  | .increment _ side _, h => .ofValue <| (loadLocal_touches h).bind fun old hold =>
    (operator_touches vs _ _ _).bind fun i hi => (storeLocal_touches h).bind fun j hj =>
      .pure (by cases side <;> simp [hold, hi, hj, one_elementary, Instruction.simple])
  | .conditional _ _ _ _, h =>
    have ⟨hc, h'⟩ := List.append_subset.1 h
    have ⟨ht, he⟩ := List.append_subset.1 h'
    .ofValue <| (Makes.any _).bind fun _ _ => (Makes.any _).bind fun _ _ =>
      ((forms_touch hc).cond _ _).bind fun a ha => (forms_touch ht).value.bind fun b hb =>
        (forms_touch he).value.bind fun c hc => .pure (by simp [ha, hb, hc])
  | .new _, _ => .ofValue (.pure (List.forall_mem_singleton.2 (.plain rfl rfl)))
  | .call method args, (h : Expr.allLocals args ⊆ vs) => .ofValue <| (values_touch h).bind fun c hc =>
    .pure (elemental_append.2 ⟨hc, by
      cases method <;> exact List.forall_mem_singleton.2 (.plain rfl rfl)⟩)
  | .group inner, h => forms_touch (e := inner) h

theorem values_touch : ∀ {es : List Expr}, Expr.allLocals es ⊆ vs → Touches vs (values es)
  | [], _ => .pure elemental_nil
  | _ :: _, h =>
    have ⟨he, hes⟩ := List.append_subset.1 h
    (forms_touch he).value.bind fun a ha => (values_touch hes).bind fun b hb =>
      .pure (by simp [ha, hb])

end

theorem effect_touches {e : Expr} (h : e.locals ⊆ vs) : Touches vs (effect e) :=
  (forms_touch h).value.bind fun c hc => .pure (by split <;> simp [hc, Instruction.simple])

theorem effects_touch {es : List Expr} (h : Expr.allLocals es ⊆ vs) : Touches vs (effects es) := by
  induction es with
  | nil => exact .pure elemental_nil
  | cons e es ih =>
    have ⟨he, hes⟩ := List.append_subset.1 h
    exact (effect_touches he).bind fun a ha => (ih hes).bind fun b hb => .pure (by simp [ha, hb])

end Elementary

abbrev Quiet (g : Gen Code) : Prop := Makes (fun code => code.handlers = []) g

structure Forms.Quiet (f : Forms) : Prop where
  value : Checked.Quiet f.value
  cond : ∀ target onTrue, Checked.Quiet (f.cond target onTrue)

theorem handlers_cons_plain {i : Item} (hi : i.handler? = none) (code : Code) :
    Code.handlers (i :: code) = code.handlers :=
  List.filterMap_cons_none hi

theorem Touches.quiet {vs : List Local} {g : Gen Code} (h : Touches vs g) : Quiet g :=
  fun _ _ _ hcode => List.filterMap_eq_nil_iff.2 fun i hi => by cases h hcode i hi <;> rfl

/-- Expressions catch nothing. -/
theorem forms_quiet (e : Expr) : (forms e).Quiet :=
  have htouch := forms_touch (List.Subset.refl e.locals)
  ⟨htouch.value.quiet, fun target onTrue => (htouch.cond target onTrue).quiet⟩

theorem effect_quiet (e : Expr) : Quiet (effect e) := (effect_touches (List.Subset.refl _)).quiet

theorem effects_quiet (es : List Expr) : Quiet (effects es) :=
  (effects_touch (List.Subset.refl _)).quiet

end Checked

end Jminus
