import Jminus.Proofs.Compilation
import Jminus.Proofs.Simulation.Expr
import Jminus.Proofs.Spots
import Mathlib

/-!
Conditions branch as they evaluate.

A condition may stand anywhere in a program and its code may be put anywhere in a listing. Wherever
the variables it names hold values of their types, the code has the effects of evaluating the
condition and then goes to the label or behind itself, as the value has it.

The code touches no slot but those of these variables. The simulation says so if every other slot
is one that is kept for later, which is how it is used here.
-/
namespace Jminus.Checked

open Code

mutual

/-- Only the variables that it names matter to an expression. -/
theorem Expr.Sound.restrict {vs us : List Local} :
    ∀ {e : Expr}, e.Sound vs → e.locals ⊆ us → e.Sound us
  | .literal .., h, _ | .new _, h, _ => h
  | .var _, ⟨x, _, hv⟩, hus => by
    subst hv
    exact ⟨x, hus List.mem_cons_self, rfl⟩
  | .increment _ _ _, ⟨x, _, hv, hnum⟩, hus => by
    subst hv
    exact ⟨x, hus List.mem_cons_self, rfl, hnum⟩
  | .assign _ _ _, ⟨hvalue, x, _, ht, hop⟩, hus => by
    subst ht
    obtain ⟨hx, hmore⟩ := List.cons_subset.1 hus
    exact ⟨hvalue.restrict hmore, x, hx, rfl, hop⟩
  | .binary .., ⟨hl, hr, hop⟩, hus =>
    have hus := List.append_subset.1 hus
    ⟨hl.restrict hus.1, hr.restrict hus.2, hop⟩
  | .logical .., ⟨hl, hlt, hr, hrt⟩, hus =>
    have hus := List.append_subset.1 hus
    ⟨hl.restrict hus.1, hlt, hr.restrict hus.2, hrt⟩
  | .unary .., ⟨h, hop⟩, hus => ⟨h.restrict hus, hop⟩
  | .conditional .., ⟨hc, hct, ht, he, htype⟩, hus =>
    have hus := List.append_subset.1 hus
    have hus' := List.append_subset.1 hus.2
    ⟨hc.restrict hus.1, hct, ht.restrict hus'.1, he.restrict hus'.2, htype⟩
  | .call .., ⟨hargs, hm⟩, hus => ⟨hargs.restrict hus, hm⟩
  | .group inner, h, hus => Expr.Sound.restrict (e := inner) h hus

theorem Expr.AllSound.restrict {vs us : List Local} :
    ∀ {es : List Expr}, Expr.AllSound vs es → Expr.allLocals es ⊆ us → Expr.AllSound us es
  | [], _, _ => trivial
  | _ :: _, ⟨he, hes⟩, hus =>
    have hus := List.append_subset.1 hus
    ⟨he.restrict hus.1, hes.restrict hus.2⟩

end

def Stmt.exprs : Stmt → List Expr
  | .expr e | .throw e | .switch _ _ e _ => [e]
  | .var _ init => init.toList
  | .ifElse cond _ _ | .whileLoop _ cond _ | .doLoop _ _ cond => [cond]
  | .forLoop _ _ cond update _ => cond.toList ++ update
  | _ => []

def Expr.operands : Expr → List Expr
  | .assign _ _ e | .unary _ _ e | .group e => [e]
  | .binary _ _ _ left right | .logical _ left right => [left, right]
  | .conditional _ cond thenPart elsePart => [cond, thenPart, elsePart]
  | .call _ args => args
  | _ => []

/-- An expression anywhere in a program. -/
inductive Expr.Appears (program : List Stmt) : Expr → Prop
  | direct {s : Stmt} {rest : List Stmt} {e : Expr} (h : Occurs program (s :: rest))
    (he : e ∈ s.exprs) : Appears program e
  | operand {outer e : Expr} (h : Appears program outer) (he : e ∈ outer.operands) :
    Appears program e

section Soundness

variable {slots : Slots} {frames : List Frame} {vs : List Local}

theorem Expr.AllSound.of_mem {es : List Expr} (h : Expr.AllSound vs es) {e : Expr} (he : e ∈ es) :
    e.Sound vs := by
  induction es with
  | nil => cases he
  | cons a es ih =>
    rcases List.mem_cons.1 he with rfl | he
    · exact h.1
    · exact ih h.2 he

/-- The operands of a sound expression are sound. -/
theorem Expr.Sound.operand {outer e : Expr} (h : outer.Sound vs) (he : e ∈ outer.operands) :
    e.Sound vs := by
  cases outer with
  | literal | var | increment | new => cases he
  | assign | unary =>
    obtain rfl := List.mem_singleton.1 he
    exact h.1
  | group =>
    obtain rfl := List.mem_singleton.1 he
    exact h
  | binary =>
    obtain ⟨hl, hr, _⟩ := h
    rcases List.mem_pair.1 he with rfl | rfl
    · exact hl
    · exact hr
  | logical =>
    obtain ⟨hl, _, hr, _⟩ := h
    rcases List.mem_pair.1 he with rfl | rfl
    · exact hl
    · exact hr
  | conditional =>
    obtain ⟨hc, _, ht, hf, _⟩ := h
    rcases List.mem_cons.1 he with rfl | he
    · exact hc
    rcases List.mem_pair.1 he with rfl | rfl
    · exact ht
    · exact hf
  | call => exact h.1.of_mem he

/-- An expression of a statement is sound for variables that have slots. Those that a for loop
declares are in sight of its condition as well. -/
theorem Stmt.Sound.expr {s : Stmt} (hvs : ∀ v ∈ vs, slots.Holds v) (h : s.Sound slots frames vs)
    {e : Expr} (he : e ∈ s.exprs) : ∃ us, (∀ v ∈ us, slots.Holds v) ∧ e.Sound us := by
  cases s with
  | expr =>
    obtain rfl := List.mem_singleton.1 he
    exact ⟨vs, hvs, h⟩
  | throw =>
    obtain rfl := List.mem_singleton.1 he
    exact ⟨vs, hvs, h.1⟩
  | var v init =>
    cases init with
    | none => cases he
    | some init =>
      obtain rfl := List.mem_singleton.1 he
      exact ⟨vs, hvs, h.2.1⟩
  | ifElse cond thenBranch elseBranch =>
    obtain rfl := List.mem_singleton.1 he
    cases elseBranch with
    | none => exact ⟨vs, hvs, h.1.1⟩
    | some => exact ⟨vs, hvs, h.1.1⟩
  | whileLoop =>
    obtain rfl := List.mem_singleton.1 he
    exact ⟨vs, hvs, h.2.1.1⟩
  | doLoop =>
    obtain rfl := List.mem_singleton.1 he
    exact ⟨vs, hvs, h.2.2.1⟩
  | forLoop frame init cond update body =>
    obtain ⟨_, _, hinit, hcond, hupdate, _⟩ := h
    refine ⟨Stmt.inSight vs init, holds_inSight hvs hinit, ?_⟩
    rcases List.mem_append.1 he with he | he
    · exact (hcond e (Option.mem_toList.1 he)).1
    · exact hupdate.of_mem he
  | switch =>
    obtain rfl := List.mem_singleton.1 he
    exact ⟨vs, hvs, h.2.1⟩
  | block | brk | cont | ret | empty | tryCatch => cases he

/-- The expressions of an accepted program are sound for variables that have slots. -/
theorem Expr.Appears.sound {prog : Listing} {program : List Stmt} {code : Code} {n : Nat}
    (hsound : Stmt.AllSound slots [] [] program) (hcode : stmtsCode program [] 0 = .ok (code, n))
    (hholds : prog.Holds (code ++ [op .ret])) {e : Expr} (h : e.Appears program) :
    ∃ slots' : Slots, ∃ us, (∀ v ∈ us, slots'.Holds v) ∧ e.Sound us := by
  induction h with
  | direct hoccurs he =>
    obtain ⟨σ, hσ, hstmts⟩ := Spot.exists_of_occurs hsound hcode hholds hoccurs
    obtain ⟨slots', frames, vs, hvs, _, hall⟩ := (hσ.good hsound hcode hholds).sound
    rw [hstmts] at hall
    exact ⟨slots', hall.1.expr hvs he⟩
  | operand _ he ih =>
    obtain ⟨slots', us, hus, houter⟩ := ih
    exact ⟨slots', us, hus, houter.operand he⟩

end Soundness

end Jminus.Checked

namespace Jminus.Machine

open Checked (Slots)
open Checked.Meaning

def Fits (m : Machine) (vs : List Local) : Prop :=
  ∀ v ∈ vs, ∃ d : Datum, d.Fits v.type ∧ m.locals[v.slot]? = some d.value

/-- The machine is where evaluation is: the variables have values of their types, and the same ones
in their slots. -/
structure Shows (m : Machine) (vs : List Local) (w : World) : Prop where
  typed : w.Typed vs
  vars : ∀ v ∈ vs, m.locals[v.slot]? = some (w.vars v.slot).value
  printed : m.output.reverse = w.printed
  made : m.made = w.made

structure Spares (vs : List Local) (m m' : Machine) : Prop where
  size : m'.locals.size = m.locals.size
  same : ∀ i, (∀ v ∈ vs, v.slot ≠ i) → m'.locals[i]? = m.locals[i]?

/-- The machine does what an evaluation does. It comes to a state that the value asks for, or an
instruction between `lo` and `hi` throws the same exception, with the same effects either way. -/
def Performs {α : Type} (prog : Listing) (lo hi : Nat) (vs : List Local) (m : Machine)
    (x : Eval α) (w : World) (arrives : α → Machine → Prop) : Prop :=
  ∃ r w', x w = some (r, w') ∧
    match r with
    | .ok a => ∃ k m', Steps prog k m m' ∧ m'.Shows vs w' ∧ Spares vs m m' ∧ arrives a m'
    | .error e => ∃ k m' m'', Steps prog k m m' ∧ lo ≤ m'.pc ∧ m'.pc < hi ∧
        tick prog 0 m' = unwind prog e.thrown m'.pc m'' ∧ m''.Shows vs w' ∧ Spares vs m m''

section Views

variable {m : Machine} {vs : List Local} {w : World} {slots : Slots}

/-- Values of their types make a world. -/
theorem Fits.exists_shows (h : m.Fits vs) (hvs : ∀ v ∈ vs, slots.Holds v) : ∃ w, m.Shows vs w := by
  classical
  -- A slot has one type, so one value serves all variables that share it.
  have hvalue : ∀ i, ∃ d : Datum, ∀ v ∈ vs, v.slot = i →
      d.Fits v.type ∧ m.locals[v.slot]? = some d.value := by
    intro i
    by_cases hi : ∃ v ∈ vs, v.slot = i
    · obtain ⟨v, hv, rfl⟩ := hi
      obtain ⟨d, hfits, hd⟩ := h v hv
      refine ⟨d, fun u hu huv => ?_⟩
      have htype : u.type = v.type := by
        have hslot := (hvs u hu).1
        rw [huv, (hvs v hv).1] at hslot
        simpa using hslot.symm
      rw [htype, huv]
      exact ⟨hfits, hd⟩
    · exact ⟨.null, fun v hv hvi => absurd ⟨v, hv, hvi⟩ hi⟩
  choose vars hvars using hvalue
  exact ⟨⟨vars, m.output.reverse, m.made⟩, fun v hv => (hvars _ v hv rfl).1,
    fun v hv => (hvars _ v hv rfl).2, rfl, rfl⟩

/-- What the slots are for, where only the variables `vs` count. -/
def slotsOf (vs : List Local) (size : Nat) : Slots :=
  (List.range size).map fun i => (vs.find? (·.slot = i)).map (·.type)

/-- Everything in the slots that no variable has. -/
def others (vs : List Local) (m : Machine) : List (Nat × Value) :=
  (List.range m.locals.size).filterMap fun i =>
    if ∃ v ∈ vs, v.slot = i then none else m.locals[i]?.map (i, ·)

variable {size i lo hi : Nat} {α : Type} {prog : Listing}

theorem slotsOf_getElem? (hi : i < size) :
    (slotsOf vs size)[i]? = some ((vs.find? (·.slot = i)).map (·.type)) := by
  simp [slotsOf, hi]

/-- A slot that counts is the slot of a variable. -/
theorem mem_of_slotsOf {t : Ty} (h : (slotsOf vs size)[i]? = some (some t)) :
    ∃ v ∈ vs, v.slot = i := by
  simp only [slotsOf, List.getElem?_map, Option.map_eq_some_iff] at h
  obtain ⟨j, hj, v, hv, _⟩ := h
  obtain ⟨_, rfl⟩ := List.getElem?_eq_some_iff.1 hj
  refine ⟨v, List.mem_of_find?_eq_some hv, ?_⟩
  simpa using List.find?_some hv

theorem slotsOf_holds (hvs : ∀ v ∈ vs, slots.Holds v) (hsize : ∀ v ∈ vs, v.slot < size) :
    ∀ v ∈ vs, (slotsOf vs size).Holds v := by
  intro v hv
  refine ⟨?_, (hvs v hv).2⟩
  rw [slotsOf_getElem? (hsize v hv)]
  cases hu : vs.find? (·.slot = v.slot) with
  | none => exact absurd (List.find?_eq_none.1 hu v hv) (by simp)
  | some u =>
    have hslot : u.slot = v.slot := by simpa using List.find?_some hu
    have htype := (hvs u (List.mem_of_find?_eq_some hu)).1
    rw [hslot, (hvs v hv).1] at htype
    exact htype.symm

theorem mem_others {p : Nat × Value} :
    p ∈ others vs m ↔ (∀ v ∈ vs, v.slot ≠ p.1) ∧ m.locals[p.1]? = some p.2 := by
  obtain ⟨i, x⟩ := p
  simp only [others, List.mem_filterMap, List.mem_range]
  constructor
  · rintro ⟨j, _, hj⟩
    split at hj
    · cases hj
    · rename_i hfree
      obtain ⟨y, hy, hxy⟩ := Option.map_eq_some_iff.1 hj
      cases hxy
      exact ⟨fun v hv hvi => hfree ⟨v, hv, hvi⟩, hy⟩
  · rintro ⟨hfree, hx⟩
    refine ⟨i, (Array.getElem?_eq_some_iff.1 hx).1, ?_⟩
    rw [if_neg fun ⟨v, hv, hvi⟩ => hfree v hv hvi, hx]
    rfl

/-- Seen as slots that count and slots that are kept, the memory agrees with the world. -/
theorem Shows.agrees (h : m.Shows vs w) :
    Agrees (slotsOf vs m.locals.size) (others vs m) w m.memory := by
  refine ⟨h.printed, h.made, by simp [slotsOf, memory], fun i t hi => ?_, fun p hp => ?_⟩
  · obtain ⟨v, hv, rfl⟩ := mem_of_slotsOf hi
    exact h.vars v hv
  · exact (mem_others.1 hp).2

theorem Shows.of_agrees {m' : Machine} (hvs : ∀ v ∈ vs, (slotsOf vs m.locals.size).Holds v)
    (htyped : w.Typed vs) (h : Agrees (slotsOf vs m.locals.size) (others vs m) w m'.memory) :
    m'.Shows vs w ∧ Spares vs m m' := by
  have hsize : m'.locals.size = m.locals.size := h.size.trans (by simp [slotsOf])
  refine ⟨⟨htyped, fun v hv => h.load (hvs v hv), h.printed, h.made⟩, hsize, fun i hfree => ?_⟩
  cases hi : m.locals[i]? with
  | some x => exact h.held (i, x) (mem_others.2 ⟨hfree, hi⟩)
  | none =>
    rw [Array.getElem?_eq_none_iff] at hi ⊢
    omega

/-- Following an evaluation with every other slot kept for later is performing it. -/
theorem performs_of_follows {x : Eval α} {P : α → Prop} {least : α → Nat}
    {next : α → Memory → Config} {arrives : α → Machine → Prop}
    (hvs : ∀ v ∈ vs, (slotsOf vs m.locals.size).Holds v) (hw : w.Typed vs)
    (hends : Ends (slotsOf vs m.locals.size) x w P)
    (h : Follows prog (slotsOf vs m.locals.size) (others vs m) lo hi m.config (x w) least next)
    (hnext : ∀ a m' mem, P a → m'.config = next a mem → m'.memory = mem ∧ arrives a m') :
    Performs prog lo hi vs m x w arrives := by
  obtain ⟨r, w', heq, hkeeps, hr⟩ := hends
  rw [heq] at h
  refine ⟨r, w', heq, ?_⟩
  have htyped := hw.keeps hvs hkeeps
  cases r with
  | ok a =>
    obtain ⟨mem, hagrees, hgoes⟩ := h
    obtain ⟨k, m', _, hsteps, hconfig⟩ := hgoes m rfl
    obtain ⟨rfl, harrives⟩ := hnext a m' mem hr hconfig
    obtain ⟨hshows, hspares⟩ := Shows.of_agrees hvs htyped hagrees
    exact ⟨k, m', hsteps, hshows, hspares, harrives⟩
  | error e =>
    obtain ⟨mem, hagrees, hthrows⟩ := h
    obtain ⟨k, m', m'', hsteps, hlo, hhi, htick, rfl⟩ := hthrows m rfl
    obtain ⟨hshows, hspares⟩ := Shows.of_agrees hvs htyped hagrees
    exact ⟨k, m', m'', hsteps, hlo, hhi, htick, hshows, hspares⟩

/-- What is made of the value afterwards may as well be part of where the machine arrives. -/
theorem Performs.of_map {β : Type} {x : Eval α} {f : α → β} {arrives : α → Machine → Prop}
    {arrives' : β → Machine → Prop}
    (h : Performs prog lo hi vs m (x >>= fun a => pure (f a)) w arrives')
    (harrives : ∀ a m', arrives' (f a) m' → arrives a m') :
    Performs prog lo hi vs m x w arrives := by
  obtain ⟨r, w', heq, h⟩ := h
  change (x w >>= _) = _ at heq
  cases hx : x w with
  | none =>
    rw [hx] at heq
    cases heq
  | some p =>
    obtain ⟨r₀, w₀⟩ := p
    rw [hx] at heq
    refine ⟨r₀, w₀, hx, ?_⟩
    cases r₀ with
    | ok a =>
      cases heq
      obtain ⟨k, m', hsteps, hshows, hspares, hm'⟩ := h
      exact ⟨k, m', hsteps, hshows, hspares, harrives a m' hm'⟩
    | error e =>
      cases heq
      exact h

end Views

end Jminus.Machine

namespace Jminus.Checked

open Code Meaning
open Machine (Performs Config)

/-- A double that is not a number fails every relation but `ne`. -/
theorem between_of_nan (rel : Relation) {x y : Float} (h : (x.isNaN || y.isNaN) = true) :
    between rel x y = decide (rel = .ne) := by
  have hnan : (x.isNaN || y.isNaN) = (x.toModel.compare y.toModel).isNone :=
    (compare_isNone _ _).symm
  have hnone : x.toModel.compare y.toModel = none := Option.isNone_iff_eq_none.1 (hnan ▸ h)
  have hswap : y.toModel.compare x.toModel = (x.toModel.compare y.toModel).map Ordering.swap :=
    compare_swap _ _
  rw [hnone] at hswap
  cases rel <;>
    simp only [between, double_lt, double_le, double_beq, bne, hnone, hswap] <;> decide

/-- Code that uses one label besides its own can stand at the start of a listing, with that label
behind it. -/
theorem Laid.exists_listing {n n' : Nat} {target : Label} {code : Code}
    (h : Laid n n' [target] [] code) (habsent : target ≠ .absent)
    (hnew : ¬ Between n n' target) :
    ∃ prog : Listing, code.At prog 0 ∧ prog.place? target = some code.size := by
  have hcount : ∀ l ∈ code.placed, Between n n' l := by
    intro l hl
    by_contra hout
    have hzero := h.once l
    rw [if_neg hout] at hzero
    exact List.count_eq_zero.1 hzero hl
  have hplaced : Code.placed (code ++ [.label target]) = code.placed ++ [target] :=
    Code.placed_append ..
  have hnodup : (Code.placed (code ++ [.label target])).Nodup := by
    rw [hplaced]
    refine List.Nodup.append ?_ (List.nodup_singleton _) ?_
    · refine List.nodup_iff_count_le_one.2 fun l => ?_
      rw [h.once]
      split <;> omega
    · rw [List.disjoint_singleton]
      exact fun hl => hnew (hcount target hl)
  have hfresh : ∀ l ∈ Code.placed (code ++ [.label target]),
      l ≠ .absent ∧ Listing.empty.place? l = none := by
    intro l hl
    refine ⟨?_, rfl⟩
    rw [hplaced] at hl
    rcases List.mem_append.1 hl with hl | hl
    · rintro rfl
      have hbetween := hcount _ hl
      simp only [Between, Label.absent] at hbetween
      omega
    · rw [List.mem_singleton.1 hl]
      exact habsent
  obtain ⟨prog, _, hgains⟩ := Listing.gains_code hnodup hfresh
  obtain ⟨hat, hlabel, _⟩ := at_append.1 hgains.placed
  exact ⟨prog, hat, hlabel.trans (by simp [Listing.empty])⟩

/-- A condition, in both forms of its code, does what evaluating it does. -/
structure Expr.Decides (e : Expr) : Prop where
  /-- Every machine whose variables have values of their types is in some world. -/
  shown : ∀ m : Machine, m.Fits e.locals → ∃ w, m.Shows e.locals w
  /-- The branch is taken if the value is the one asked for, and only then. -/
  branch : ∀ (target : Label) (onTrue : Bool) (n : Nat), ∃ code n',
    e.cond target onTrue n = .ok (code, n') ∧
    (target ≠ .absent → ¬ Between n n' target →
      ∃ prog : Listing, code.At prog 0 ∧ prog.place? target = some code.size) ∧
    ∀ (prog : Listing) (pc place : Nat), code.At prog pc → prog.place? target = some place →
      ∀ (m : Machine) (w : World), m.pc = pc → m.Shows e.locals w →
        Performs prog pc (pc + code.size) e.locals m (eval e >>= truth) w fun b m' =>
          m'.pc = (if b = onTrue then place else pc + code.size) ∧ m'.stack = m.stack
  /-- Materialized, the value is 1 or 0 on the stack. -/
  value : ∀ n : Nat, ∃ code n', Forms.materialize e.cond n = .ok (code, n') ∧
    ∀ (prog : Listing) (pc : Nat), code.At prog pc →
      ∀ (m : Machine) (w : World), m.pc = pc → m.Shows e.locals w →
        Performs prog pc (pc + code.size) e.locals m (eval e >>= truth) w fun b m' =>
          m'.pc = pc + code.size ∧ m'.stack = .int (if b then 1 else 0) :: m.stack
  /-- A comparison with a double that is not a number holds for `ne` alone. -/
  nan : ∀ rel type operand left right, e = .binary (.compare rel) type operand left right →
    ∀ (w w₁ w₂ : World) (x y : Float), eval left w = some (.ok (.double x), w₁) →
      eval right w₁ = some (.ok (.double y), w₂) → (x.isNaN || y.isNaN) = true →
      (eval e >>= truth) w = some (.ok (decide (rel = .ne)), w₂)

/-- With an operand that is no number only the test for being different holds. -/
theorem eval_compare_nan {rel : Relation} {type : Ty} {operand : Option Ty} {left right : Expr}
    {w w₁ w₂ : World} {x y : Float} (hl : eval left w = some (.ok (.double x), w₁))
    (hr : eval right w₁ = some (.ok (.double y), w₂)) (hnan : (x.isNaN || y.isNaN) = true) :
    (eval (.binary (.compare rel) type operand left right) >>= truth) w =
      some (.ok (decide (rel = .ne)), w₂) := by
  have hrelate : relate? rel (.double x) (.double y) = some (decide (rel = .ne)) :=
    congrArg some (between_of_nan rel hnan)
  simp only [eval, bind_assoc]
  change (eval left w >>= _) = _
  rw [hl]
  change (eval right w₁ >>= _) = _
  rw [hr]
  change (Eval.ofOption (relate? rel (.double x) (.double y)) w₂ >>= _) = _
  rw [hrelate]
  rfl

/-- A sound condition is decided in both forms. -/
theorem Expr.Sound.decides {slots : Slots} {vs : List Local} {e : Expr}
    (hvs : ∀ v ∈ vs, slots.Holds v) (h : e.Sound vs) (htype : e.type = .boolean) : e.Decides := by
  have hlocals : ∀ v ∈ e.locals, slots.Holds v := fun v hv => hvs v (h.locals_subset hv)
  have hsound : e.Sound e.locals := h.restrict (List.Subset.refl _)
  have hlays := forms_lays (storable_of_holds hlocals) hsound
  have hholds : ∀ {m : Machine} {w : World}, m.Shows e.locals w →
      ∀ v ∈ e.locals, (Machine.slotsOf e.locals m.locals.size).Holds v := fun hm =>
    Machine.slotsOf_holds hlocals fun v hv => (Array.getElem?_eq_some_iff.1 (hm.vars v hv)).1
  have hbranches : ∀ {prog : Listing} {m : Machine} {w : World}, m.Shows e.locals w →
      Branches prog (Machine.slotsOf e.locals m.locals.size) (Machine.others e.locals m) e.cond
        (eval e >>= truth) w := fun hm =>
    (forms_simulate (hholds hm) (fun v hv p hp hpv => (Machine.mem_others.1 hp).1 v hv hpv.symm)
      hsound).cond htype hm.typed
  have hends : ∀ {m : Machine} {w : World}, m.Shows e.locals w →
      Ends (Machine.slotsOf e.locals m.locals.size) (eval e >>= truth) w fun _ => True := fun hm =>
    condition_ends (hholds hm) ⟨hsound, htype⟩ hm.typed
  refine ⟨fun m hm => hm.exists_shows hlocals, fun target onTrue n => ?_, fun n => ?_, ?_⟩
  · obtain ⟨code, n', hcode, hlaid⟩ := hlays.cond target onTrue n
    refine ⟨code, n', hcode, hlaid.exists_listing, ?_⟩
    rintro prog pc place hat hplace m w rfl hm
    refine Machine.performs_of_follows (hholds hm) hm.typed (hends hm)
      (hbranches hm hcode hplace hat rfl hm.agrees) ?_
    intro b m' mem _ hconfig
    exact ⟨congrArg Config.mem hconfig, congrArg Config.pc hconfig, congrArg Config.stack hconfig⟩
  · obtain ⟨code, n', hcode, _⟩ := materialize_lays hlays.cond n
    refine ⟨code, n', hcode, ?_⟩
    rintro prog pc hat m w rfl hm
    have hpushed : Performs prog m.pc (m.pc + code.size) e.locals m
        ((eval e >>= truth) >>= fun b => pure (Datum.boolean b)) w fun d m' =>
          m'.pc = m.pc + code.size ∧ m'.stack = d.pushed ++ m.stack := by
      refine Machine.performs_of_follows (hholds hm) hm.typed
        ((hends hm).bind (Q := fun _ => True) fun b _ _ _ => .pure trivial)
        (materialize_pushes (hends hm) (hbranches hm) hcode hat rfl hm.agrees) ?_
      intro d m' mem _ hconfig
      exact ⟨congrArg Config.mem hconfig, congrArg Config.pc hconfig, congrArg Config.stack hconfig⟩
    exact hpushed.of_map fun b m' h => h
  · rintro rel type operand left right rfl w w₁ w₂ x y hl hr hnan
    exact eval_compare_nan hl hr hnan

end Jminus.Checked

namespace Jminus

/-- In an accepted text every boolean expression has code, in both forms, that does what evaluating
the expression does: with any target, asked for either value, at any place in any listing, from any
machine where the variables of the expression have values of their types. -/
theorem conditions_decide {file source : String} {exe : Executable}
    (h : (compile file source).result = .ok exe) :
    ∃ program, Checked.check (compile file source).stmts = .ok program ∧
      ∀ e : Checked.Expr, e.Appears program.stmts → e.type = .boolean → e.Decides := by
  obtain ⟨program, hcompiled⟩ := compile_accepted h
  obtain ⟨slots, _, hsound⟩ := hcompiled.sound
  obtain ⟨code, n, hcode, hholds⟩ := hcompiled.code
  refine ⟨program, hcompiled.analyzed, fun e he htype => ?_⟩
  obtain ⟨slots', us, hus, he⟩ := he.sound hsound hcode hholds
  exact he.decides hus htype

/-- The first statement is an if with a condition that is boolean. -/
def startsWithIf : List Checked.Stmt → Bool
  | .ifElse cond _ _ :: _ => cond.type = .boolean
  | _ => false

/-- Both operators, a negation and a comparison of doubles. -/
def deciding : String := "if (!(0.0 / 0.0 < 1.0) && (2 > 1 || 1 / 0 == 1)) println();"

set_option maxRecDepth 10000 in
theorem deciding_accepted : (compile "" deciding).failure? = none := by decide +kernel

set_option maxRecDepth 10000 in
theorem deciding_starts :
    (Checked.check (compile "" deciding).stmts).toOption.any (startsWithIf ·.stmts) = true := by
  decide +kernel

theorem conditions_decide_nested :
    ∃ program, Checked.check (compile "" deciding).stmts = .ok program ∧
      ∃ cond thenBranch elseBranch rest,
        program.stmts = .ifElse cond thenBranch elseBranch :: rest ∧ cond.Decides := by
  obtain ⟨exe, h⟩ := Compilation.result_of_failure? deciding_accepted
  obtain ⟨program, hcheck, hdecides⟩ := conditions_decide h
  refine ⟨program, hcheck, ?_⟩
  have hstarts : startsWithIf program.stmts = true := by
    have hany := deciding_starts
    rw [hcheck] at hany
    exact hany
  unfold startsWithIf at hstarts
  split at hstarts
  · rename_i cond thenBranch elseBranch rest hstmts
    have hoccurs : Checked.Occurs program.stmts (.ifElse cond thenBranch elseBranch :: rest) := by
      rw [hstmts]
    have happears := Checked.Expr.Appears.direct hoccurs List.mem_cons_self
    exact ⟨cond, thenBranch, elseBranch, rest, hstmts,
      hdecides cond happears (of_decide_eq_true hstarts)⟩
  · cases hstarts

end Jminus
