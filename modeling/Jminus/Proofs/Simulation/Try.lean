import Jminus.Proofs.Simulation.Stmt
import Mathlib

/-!
The code of try statements does what they mean.

What the try block throws goes to the catch clauses in their order, and then to the handler that
puts it aside for the finally clause; what a catch block throws goes to that handler at once. The
finally clause itself stands under none of them, in all of its copies.
-/
namespace Jminus.Checked.Meaning

open Code
open Machine (Memory Config Goes Throws accepts)

section Results

variable {env : Env} {n mid hi : Nat} {c : Config}

/-- Behind a try block: a normal end and an exception both reach the finally clause. -/
theorem Result.Follows.handled {out : Class → Option Label} {r : Result}
    {k : Raised → World → Result} {clean : World → Result}
    (h : r.Follows { env with out } n mid c)
    (hnormal : ∀ w mem, r = .done .normal w → env.Agrees w mem →
      (clean w).Follows env n hi ⟨mid, [], mem⟩)
    (hraised : ∀ x w mem, r = .done (.raised x) w → env.Agrees w mem →
      Raises env.prog out c x.thrown mem → ((k x w).withCleanup clean).Follows env n hi c) :
    ((r.orCatch k).withCleanup clean).Follows env n hi c := by
  match r, h with
  | .done .normal w, ⟨mem, hagrees, hgoes⟩ => exact (hnormal w mem rfl hagrees).after hgoes
  | .done (.brk id) w, h | .done (.cont id) w, h | .done .ret w, h | .spent, h | .stuck, h => exact h
  | .done (.raised x) w, ⟨mem, hagrees, hraises⟩ => exact hraised x w mem rfl hagrees hraises

theorem Result.orCatch_raised (r : Result) : r.orCatch (fun x w => .done (.raised x) w) = r := by
  match r with
  | .done .normal w | .done (.brk id) w | .done (.cont id) w | .done .ret w => rfl
  | .done (.raised x) w | .spent | .stuck => rfl

/-- What was kept for later is given up. -/
theorem Result.Follows.release {p : Nat × Value} {r : Result}
    (h : r.Follows { env with held := p :: env.held } n hi c) : r.Follows env n hi c := by
  match r, h with
  | .done .normal w, ⟨mem, hagrees, h⟩ | .done .ret w, ⟨mem, hagrees, h⟩
  | .done (.brk id) w, ⟨mem, hagrees, h⟩ | .done (.cont id) w, ⟨mem, hagrees, h⟩
  | .done (.raised x) w, ⟨mem, hagrees, h⟩ => exact ⟨mem, hagrees.release, h⟩
  | .spent, h => exact h
  | .stuck, _ => trivial

end Results

section Tables

variable {prog : Listing} {cls : Class} {p : Nat}

/-- The handler of a catch clause takes what the clause takes. -/
theorem accepts_catch {type : Ty} (h : type.isThrowable = true) (start stop handler : Label) :
    accepts ⟨start, stop, handler, type.path⟩ cls = takes type cls := by
  cases type with
  | ref caught =>
    have hne : caught.path ≠ "" := by cases caught <;> decide
    simp [accepts, takes, Ty.path, hne, Method.ofPath?_path]
  | _ => cases h

/-- The finally clause takes what is thrown in any of its ranges. -/
theorem handler?_delays (start : Label) (cs : List Caught) :
    prog.handler? (Code.handlers (cs.map (delays start))) cls p =
      if cs.any fun c => prog.within c.start c.stop p then some start else none := by
  induction cs with
  | nil => rfl
  | cons c cs ih =>
    rw [List.map_cons, delays, Code.handlers_handler, Listing.handler?_cons, ih, List.any_cons]
    cases hc : prog.within c.start c.stop p <;> simp [accepts]

structure Spans (prog : Listing) (t₀ t₁ lo : Nat) (code : Code) (caught : List Caught) : Prop where
  handlers : ∀ h ∈ code.handlers, ∀ p, prog.within h.start h.stop p = true →
    (lo ≤ p ∧ p < lo + code.size) ∨ (t₀ ≤ p ∧ p < t₁)
  caught : ∀ k ∈ caught, ∀ p, prog.within k.start k.stop p = true → lo ≤ p ∧ p < lo + code.size

variable {t₀ t₁ lo : Nat} {code : Code} {caught : List Caught}

/-- Outside the blocks their handlers take nothing. -/
theorem Spans.handler?_none (h : Spans prog t₀ t₁ lo code caught) (hp : p < lo ∨ lo + code.size ≤ p)
    (ht : t₁ ≤ p) : prog.handler? code.handlers cls p = none := by
  refine Listing.handler?_of_out fun k hk => ?_
  by_contra hin
  have hrange := h.handlers k hk p (by simpa using hin)
  omega

theorem Spans.any_caught (h : Spans prog t₀ t₁ lo code caught) (hp : p < lo ∨ lo + code.size ≤ p) :
    (caught.any fun k => prog.within k.start k.stop p) = false := by
  refine List.any_eq_false.2 fun k hk hin => ?_
  have hrange := h.caught k hk p hin
  omega

end Tables

variable {cs : List CatchClause} {last : Label} {pc n : Nat} {param : Local} {body : List Stmt}
  {x : Raised}

theorem catches_spans {env : Env} {slots : Slots} {frames : List Frame} {vs : List Local}
    (fit : env.Fits slots frames vs) (hcs : CatchClause.AllSound slots frames vs cs)
    {cleanup : Gen Code}
    (hclean : ∀ ⦃m f m' q⦄, cleanup m = .ok (f, m') → f.At env.prog q → Confined env.prog q f)
    {first stop : Label} {t₀ t₁ m m' : Nat} {code : Code} {caught : List Caught}
    (hgen : catchesCode cs env.exits cleanup last first stop m = .ok ((code, caught), m'))
    (hat : code.At env.prog pc) (hfirst : env.prog.place? first = some t₀)
    (hstop : env.prog.place? stop = some t₁) : Spans env.prog t₀ t₁ pc code caught := by
  induction cs generalizing m code caught pc with
  | nil =>
    cases hgen
    exact ⟨by simp, by simp⟩
  | cons clause cs ih =>
    obtain ⟨param, body⟩ := clause
    obtain ⟨hparam, _, hbody, hcs⟩ := hcs
    obtain ⟨a, m₁, ha, f, m₂, hf, c, more, hc, rfl, rfl⟩ := catches_cons_ok.1 hgen
    simp only [at_append, at_cons, Code.size_append, Code.size_cons, Code.size_nil,
      Item.size_label, Item.size_store, Item.size_goto, Item.size_handler, Nat.add_zero,
      ← Nat.add_assoc] at hat
    obtain ⟨⟨⟨⟨⟨⟨hlabel, _⟩, hata⟩, hend, _⟩, hatf⟩, _⟩, hatc⟩ := hat
    have hsize : Code.size ([.label (.nth (m + 1)), store param.type.cell param.slot] ++ a ++
        [.label (.nth (m + 2))] ++ f ++ [goto last,
          .handler ⟨first, stop, .nth (m + 1), param.type.path⟩] ++ c) =
        1 + a.size + f.size + 1 + c.size := by
      simp
      omega
    have hrest := ih hcs hc hatc
    have hvars : env.Fits slots frames (param :: vs) :=
      fit.with_vars (holds_cons (hparam.mono fit.below) fit.vars)
    have hconfa := hvars.confineds hbody ha hata
    have hconff := hclean hf hatf
    refine ⟨?_, ?_⟩
    · intro h hh p hp
      rw [hsize]
      simp only [Code.handlers_append, Code.handlers_label, Code.handlers_nil, store, goto,
        Code.handlers_plain, Code.handlers_jump, Code.handlers_handler, List.nil_append,
        List.append_nil, List.mem_append, List.mem_singleton] at hh
      rcases hh with ((hh | hh) | rfl) | hh
      · have hrange := hconfa h hh p hp
        omega
      · have hrange := hconff h hh p hp
        omega
      · rw [Listing.within_eq hfirst hstop] at hp
        simp only [Bool.and_eq_true, decide_eq_true_eq] at hp
        exact .inr hp
      · have hrange := hrest.handlers h hh p hp
        omega
    · intro k hk p hp
      rw [hsize]
      rcases List.mem_cons.1 hk with rfl | hk
      · rw [Listing.within_eq hlabel hend] at hp
        simp only [Bool.and_eq_true, decide_eq_true_eq] at hp
        omega
      · have hrange := hrest.caught k hk p hp
        omega

def Env.delaying (env : Env) (delay : Option Label) : Env :=
  { env with out := fun cls => delay.or (env.out cls) }

/-- A finally clause: each copy of its code does what it means, and so does the code that a delayed
exception reaches. -/
structure Cleans (env : Env) (n : Nat) (vs : List Local) (cleanup : Gen Code)
    (clean : World → Result) (delay : Option Label) (hi : Nat) : Prop where
  confined : ∀ ⦃m f m' q⦄, cleanup m = .ok (f, m') → f.At env.prog q → Confined env.prog q f
  copy : ∀ ⦃m f m' q w mem⦄, cleanup m = .ok (f, m') → f.At env.prog q →
    Guarded env.prog env.out q f → World.Typed vs w → env.Agrees w mem →
    (clean w).Follows env n (q + f.size) ⟨q, [], mem⟩
  delayed : ∀ ⦃x w mem c⦄, World.Typed vs w → env.Agrees w mem →
    Raises env.prog (env.delaying delay).out c (Raised.thrown x) mem →
    ((clean w).andThen (.done (.raised x))).Follows env n hi c

section Cleaning

variable {env : Env} {n : Nat} {vs : List Local} {cleanup : Gen Code} {clean : World → Result}
  {delay : Option Label} {hi : Nat}

/-- A block, a copy of the finally clause, and a jump to the end. -/
theorem Cleans.behind (h : Cleans env n vs cleanup clean delay hi) {r : Result} {c : Config}
    {q k m m' : Nat} {f : Code} (hr : r.Follows (env.delaying delay) n q c)
    (htyped : ∀ k w, r = .done k w → w.Typed vs) (hf : cleanup m = .ok (f, m'))
    (hat : f.At env.prog q) (hguard : Guarded env.prog env.out q f)
    (hgoes : ∀ mem, Goes env.prog k ⟨q + f.size, [], mem⟩ ⟨hi, [], mem⟩) :
    (r.withCleanup clean).Follows env n hi c := by
  rw [← Result.orCatch_raised r]
  refine hr.handled ?_ ?_
  · intro w mem heq hagrees
    exact (h.copy hf hat hguard (htyped _ w heq) hagrees).before hgoes
  · intro x w mem heq hagrees hraises
    exact h.delayed (htyped _ w heq) hagrees hraises

end Cleaning

/-- What becomes of an exception at the entry of a catch clause, and without an entry. -/
def Catches (env : Env) (n : Nat) (vs : List Local) (cs : List CatchClause)
    (clean : World → Result) (hi : Nat) (cls : Class) : Option Label → Prop
  | none => ∀ x : Raised, x.cls = cls → ∀ w, execCatches n cs x w = .done (.raised x) w
  | some l => ∃ q, env.prog.place? l = some q ∧ ∀ x : Raised, x.cls = cls → ∀ w mem,
    World.Typed vs w → env.Agrees w mem →
      ((execCatches n cs x w).withCleanup clean).Follows env n hi ⟨q, [x.thrown.value], mem⟩

/-- The code of catch clauses does what they mean. The try block lies between `t₀` and `t₁`. -/
def CatchesFollow (n : Nat) (cs : List CatchClause) : Prop :=
  ∀ ⦃env slots frames vs cleanup clean delay last first stop t₀ t₁ m code caught m' pc hi⦄,
    Env.Fits env slots frames vs → CatchClause.AllSound slots frames vs cs →
    Cleans env n vs cleanup clean delay hi →
    catchesCode cs env.exits cleanup last first stop m = .ok ((code, caught), m') →
    code.At env.prog pc → env.prog.place? first = some t₀ → env.prog.place? stop = some t₁ →
    t₁ ≤ pc → env.prog.place? last = some hi →
    (∀ p cls, pc ≤ p → p < pc + code.size → env.prog.handler? env.prog.handlers cls p =
      (env.prog.handler? code.handlers cls p).or
        ((if caught.any fun k => env.prog.within k.start k.stop p then delay else none).or
          (env.out cls))) →
    ∀ cls, ∃ entry, (∀ p, t₀ ≤ p → p < t₁ → env.prog.handler? code.handlers cls p = entry) ∧
      Catches env n vs cs clean hi cls entry

theorem nil_catches (n : Nat) : CatchesFollow n [] := by
  intro env slots frames vs cleanup clean delay last first stop t₀ t₁ m code caught m' pc hi _ _ _
    hgen _ _ _ _ _ _ cls
  cases hgen
  exact ⟨none, fun _ _ _ => rfl, fun _ _ _ => rfl⟩

theorem execCatches_of_not_takes (h : takes param.type x.cls = false) (w : World) :
    execCatches n (.mk param body :: cs) x w = execCatches n cs x w := by
  simp [execCatches, h]

theorem execCatches_of_takes (h : takes param.type x.cls = true) (w : World) :
    execCatches n (.mk param body :: cs) x w = execs n body (w.set param.slot x.datum) := by
  simp [execCatches, h]

/-- What a clause takes has the type of its parameter. -/
theorem takes_fits {type : Ty} (h : takes type x.cls = true) : x.datum.Fits type := by
  cases type with
  | ref caught => exact h
  | _ => cases h

/-- A catch block, from its entry on. -/
theorem catch_follows (ihb : StmtsFollow n body) {env : Env} {slots : Slots} {frames : List Frame}
    {vs : List Local} (fit : env.Fits slots frames vs) (hparam : slots.Holds param)
    (hbody : Stmt.AllSound slots frames (param :: vs) body) {cleanup : Gen Code}
    {clean : World → Result} {delay : Option Label} {hi : Nat}
    (hclean : Cleans env n vs cleanup clean delay hi) {m m₁ m₂ m₃ : Nat} {a f : Code}
    (ha : stmtsCode body env.exits m = .ok (a, m₁)) (hf : cleanup m₂ = .ok (f, m₃))
    (hlast : env.prog.place? last = some hi)
    (hstore : (store param.type.cell param.slot).At env.prog pc) (hata : a.At env.prog (pc + 1))
    (hatf : f.At env.prog (pc + 1 + a.size))
    (hgoto : (goto last).At env.prog (pc + 1 + a.size + f.size))
    (hga : Guarded env.prog (env.delaying delay).out (pc + 1) a)
    (hgf : Guarded env.prog env.out (pc + 1 + a.size) f) (hx : takes param.type x.cls = true)
    {w : World} {mem : Memory} (hw : w.Typed vs) (hagrees : env.Agrees w mem) :
    ((execs n body (w.set param.slot x.datum)).withCleanup clean).Follows env n hi
      ⟨pc, [x.thrown.value], mem⟩ := by
  have hparam' := hparam.mono fit.below
  have fit' : (env.delaying delay).Fits slots frames (param :: vs) :=
    { fit with vars := holds_cons hparam' fit.vars }
  have hkeeps := World.Keeps.set hparam' (takes_fits hx) w
  have hw' : (w.set param.slot x.datum).Typed (param :: vs) := by
    refine .cons ?_ (hw.keeps fit.vars hkeeps)
    simpa [World.set] using takes_fits hx
  have hrun := ihb fit' hbody hw' (hagrees.set hparam' (fit.free hparam') x.datum) ha hata rfl hga
  refine .after (Machine.goes_store hstore (hagrees.lt_size hparam'.1))
    (hclean.behind hrun ?_ hf hatf hgf fun mem => Machine.goes_goto hgoto hlast)
  intro k w' heq
  have hsafe := fit'.safes n hbody hw'
  rw [heq] at hsafe
  exact hw.keeps fit.vars (hkeeps.trans hsafe.1)

/-- The first clause that fits takes the exception. -/
theorem cons_catches (ihb : StmtsFollow n body) (ih : CatchesFollow n cs) :
    CatchesFollow n (.mk param body :: cs) := by
  intro env slots frames vs cleanup clean delay last first stop t₀ t₁ m code caught m' pc hi fit
    ⟨hparam, hthrow, hbody, hcs⟩ hclean hgen hat hfirst hstop hle hlast hguard cls
  obtain ⟨a, m₁, ha, f, m₂, hf, c, more, hc, rfl, rfl⟩ := catches_cons_ok.1 hgen
  simp only [at_append, at_cons, Code.size_append, Code.size_cons, Code.size_nil,
    Item.size_label, Item.size_store, Item.size_goto, Item.size_handler, Nat.add_zero,
    Nat.zero_add, ← Nat.add_assoc] at hat hguard
  obtain ⟨⟨⟨⟨⟨⟨hlabel, hstore, _⟩, hata⟩, hend, _⟩, hatf⟩, hgoto, _⟩, hatc⟩ := hat
  have hspans := catches_spans fit hcs hclean.confined hc hatc hfirst hstop
  have hconfa := (fit.with_vars (holds_cons (hparam.mono fit.below) fit.vars)).confineds hbody ha hata
  have hconff := hclean.confined hf hatf
  simp only [Code.handlers_append, Code.handlers_label, Code.handlers_nil, store, goto,
    Code.handlers_plain, Code.handlers_jump, Code.handlers_handler, List.nil_append,
    List.append_nil, Listing.handler?_append, Listing.handler?_cons, Listing.handler?_nil,
    accepts_catch hthrow, Listing.within_eq hfirst hstop, List.any_cons,
    Listing.within_eq hlabel hend] at hguard ⊢
  -- Behind the try block the entries do not count, and of the catch blocks only the one around.
  have hga : Guarded env.prog (env.delaying delay).out (pc + 1) a := by
    intro p cls hlo hp
    have hout : ¬ p < t₁ := by omega
    have hin : pc ≤ p ∧ p < pc + 1 + a.size := by omega
    rw [hguard p cls (by omega) (by omega), hconff.handler?_none (.inl hp),
      hspans.handler?_none (.inl (by omega)) (by omega)]
    simp [hout, hin, Env.delaying]
  have hgf : Guarded env.prog env.out (pc + 1 + a.size) f := by
    intro p cls hlo hp
    have hout : ¬ p < t₁ := by omega
    have hout' : ¬ p < pc + 1 + a.size := by omega
    rw [hguard p cls (by omega) (by omega), hconfa.handler?_none (.inr hlo),
      hspans.handler?_none (.inl (by omega)) (by omega), hspans.any_caught (.inl (by omega))]
    simp [hout, hout']
  have hrest : ∀ p cls, pc + 1 + a.size + f.size + 1 ≤ p →
      p < pc + 1 + a.size + f.size + 1 + c.size → env.prog.handler? env.prog.handlers cls p =
        (env.prog.handler? c.handlers cls p).or
          ((if more.any fun k => env.prog.within k.start k.stop p then delay else none).or
            (env.out cls)) := by
    intro p cls hlo hp
    have hout : ¬ p < t₁ := by omega
    have hout' : ¬ p < pc + 1 + a.size := by omega
    rw [hguard p cls (by omega) hp, hconfa.handler?_none (.inr (by omega)),
      hconff.handler?_none (.inr (by omega))]
    simp [hout, hout']
  obtain ⟨entry, hentry, hcatches⟩ :=
    ih fit hcs hclean hc hatc hfirst hstop (by omega) hlast hrest cls
  have hbefore : ∀ p, p < t₁ → env.prog.handler? a.handlers cls p = none ∧
      env.prog.handler? f.handlers cls p = none := fun p hp =>
    ⟨hconfa.handler?_none (.inl (by omega)), hconff.handler?_none (.inl (by omega))⟩
  cases htakes : takes param.type cls with
  | true =>
    refine ⟨some (.nth (m + 1)), fun p hlo hp => ?_, pc, hlabel, fun x hx w mem hw hagrees => ?_⟩
    · simp [hbefore p hp, hlo, hp]
    · subst hx
      rw [execCatches_of_takes htakes]
      exact catch_follows ihb fit hparam hbody hclean ha hf hlast hstore hata hatf hgoto hga hgf
        htakes hw hagrees
  | false =>
    have hskip : ∀ x : Raised, x.cls = cls → ∀ w,
        execCatches n (.mk param body :: cs) x w = execCatches n cs x w := by
      rintro x rfl w
      exact execCatches_of_not_takes htakes w
    refine ⟨entry, fun p hlo hp => ?_, ?_⟩
    · simp [hbefore p hp, hentry p hlo hp]
    · cases entry with
      | none => exact fun x hx w => (hskip x hx w).trans (hcatches x hx w)
      | some l =>
        obtain ⟨q, hq, hfollows⟩ := hcatches
        refine ⟨q, hq, fun x hx w mem hw hagrees => ?_⟩
        rw [hskip x hx w]
        exact hfollows x hx w mem hw hagrees

def CleanupFollows (n : Nat) : Cleanup → Prop
  | .absent => True
  | .mk _ body => StmtsFollow n body

section Cleanups

variable {env : Env} {slots : Slots} {frames : List Frame} {vs : List Local}

/-- The statements of a finally clause use the slots before its own. -/
theorem Env.Fits.before (fit : env.Fits slots frames vs) (slot : Nat) :
    env.Fits (slots.take slot) frames vs := by
  refine { fit with below := (List.take_prefix _ _).trans fit.below, held := fun p hp => ?_ }
  have hheld := fit.held p hp
  exact ⟨(List.length_take_le' slot slots).trans hheld.1, hheld.2⟩

variable {cleanup : Cleanup} {m m' q n pc : Nat} {f : Code} {w : World} {mem : Memory}

theorem Env.Fits.confined_cleanup (fit : env.Fits slots frames vs)
    (hsound : cleanup.Sound slots frames vs) (hgen : cleanupCode cleanup env.exits m = .ok (f, m'))
    (hat : f.At env.prog q) : Confined env.prog q f :=
  (cleanupCode_lays fit.vars fit.exits (hsound.mono fit.below (.refl frames))).confined hgen hat

theorem copy_follows (ih : CleanupFollows n cleanup) (fit : env.Fits slots frames vs)
    (hsound : cleanup.Sound slots frames vs) (hw : w.Typed vs) (hagrees : env.Agrees w mem)
    (hgen : cleanupCode cleanup env.exits m = .ok (f, m')) (hat : f.At env.prog q)
    (hguard : Guarded env.prog env.out q f) :
    (execCleanup n cleanup w).Follows env n (q + f.size) ⟨q, [], mem⟩ := by
  cases cleanup with
  | absent =>
    cases hgen
    exact ⟨mem, hagrees, .refl _ _⟩
  | mk slot body => exact ih (fit.before slot) hsound.2 hw hagrees hgen hat rfl hguard

/-- An exception is put aside, the finally clause runs, and the exception goes on. -/
theorem delay_follows {slot : Nat} {body : List Stmt} (ih : StmtsFollow n body)
    (fit : env.Fits slots frames vs) (hsound : (Cleanup.mk slot body).Sound slots frames vs)
    {hi : Nat} (hgen : stmtsCode body env.exits m = .ok (f, m'))
    (hstore : (store .ref slot).At env.prog pc) (hat : f.At env.prog (pc + 1))
    (hload : (load .ref slot).At env.prog (pc + 1 + f.size))
    (hthrow : (op .athrow).At env.prog (pc + 1 + f.size + 1))
    (hguard : Guarded env.prog env.out (pc + 1) f)
    (hout : ∀ cls, env.prog.handler? env.prog.handlers cls (pc + 1 + f.size + 1) = env.out cls)
    {x : Raised} (hw : w.Typed vs) (hagrees : env.Agrees w mem) :
    ((execs n body w).andThen (.done (.raised x))).Follows env n hi
      ⟨pc, [x.thrown.value], mem⟩ := by
  obtain ⟨hslot, hbody⟩ := hsound
  have hslot' := (Slots.take_prefix hslot fit.below).2
  have hlt := (List.getElem?_eq_some_iff.1 hslot).1
  have hheld := hagrees.hold hslot' (fun p hp => by have := (fit.held p hp).1; omega) x.thrown.value
  have fit' : Env.Fits { env with held := (slot, x.thrown.value) :: env.held } (slots.take slot)
      frames vs := by
    refine { fit.before slot with held := fun p hp => ?_ }
    rcases List.mem_cons.1 hp with rfl | hp
    · exact ⟨List.length_take_le slot slots, hslot'⟩
    · exact (fit.before slot).held p hp
  have hrun := ih fit' hbody hw hheld hgen hat rfl hguard
  refine .after (Machine.goes_store hstore (hagrees.lt_size hslot'))
    (Result.Follows.release (hrun.andThen ?_))
  intro w' mem' _ hagrees'
  have hkept := hagrees'.held _ List.mem_cons_self
  refine ⟨mem', hagrees', .after (Machine.goes_load hload hkept) ?_⟩
  refine (Machine.throws_object hthrow).raises fun p hlo hp => ?_
  obtain rfl : p = pc + 1 + f.size + 1 := by omega
  exact hout _

/-- The part of a try statement that delays exceptions. -/
theorem delayed_cleans (ih : CleanupFollows n cleanup) (fit : env.Fits slots frames vs)
    (hsound : cleanup.Sound slots frames vs) {first stop : Label} {caught : List Caught} (hi : Nat)
    {d : Code} (hgen : delayed cleanup env.exits first stop caught m = .ok (d, m'))
    (hat : d.At env.prog pc) (hguard : Guarded env.prog env.out pc d)
    (hbefore : ∀ p, pc ≤ p → ((⟨first, stop⟩ :: caught : List Caught).any fun k =>
      env.prog.within k.start k.stop p) = false) :
    ∃ delay, Cleans env n vs (cleanupCode cleanup env.exits) (execCleanup n cleanup) delay hi ∧
      ∀ p cls, p < pc → env.prog.handler? d.handlers cls p =
        if (⟨first, stop⟩ :: caught : List Caught).any fun k => env.prog.within k.start k.stop p
        then delay else none := by
  have hconfined : ∀ ⦃m f m' q⦄, cleanupCode cleanup env.exits m = .ok (f, m') →
      f.At env.prog q → Confined env.prog q f := fun m f m' q => fit.confined_cleanup hsound
  have hcopy : ∀ ⦃m f m' q w mem⦄, cleanupCode cleanup env.exits m = .ok (f, m') →
      f.At env.prog q → Guarded env.prog env.out q f → World.Typed vs w → env.Agrees w mem →
      (execCleanup n cleanup w).Follows env n (q + f.size) ⟨q, [], mem⟩ :=
    fun m f m' q w mem hgen hat hguard hw hagrees =>
      copy_follows ih fit hsound hw hagrees hgen hat hguard
  cases cleanup with
  | absent =>
    cases hgen
    refine ⟨none, ⟨hconfined, hcopy, fun x w mem c _ hagrees hraises => ?_⟩, fun p cls _ => ?_⟩
    · exact ⟨mem, hagrees, hraises.congr rfl⟩
    · simp
  | mk slot body =>
    obtain ⟨f, hf, rfl⟩ := delay_ok.1 hgen
    simp only [at_append, at_cons, Code.size_append, Code.size_cons, Code.size_nil,
      Item.size_label, Item.size_store, Nat.add_zero, Nat.zero_add, ← Nat.add_assoc] at hat
    obtain ⟨⟨⟨⟨hstart, hstore, hstop, _⟩, hatf⟩, hload, hthrow, _⟩, _⟩ := hat
    have hfind : ∀ p cls, env.prog.handler? (Code.handlers ([.label (.nth (m + 1)),
        store .ref slot, .label (.nth (m + 2))] ++ f ++ [load .ref slot, op .athrow] ++
          (delayRanges first stop caught m).map (delays (.nth (m + 1))))) cls p =
        (env.prog.handler? f.handlers cls p).or (if ((⟨first, stop⟩ :: caught : List Caught).any
          fun k => env.prog.within k.start k.stop p) || (decide (pc ≤ p) && decide (p < pc + 1))
          then some (.nth (m + 1)) else none) := by
      intro p cls
      rw [Code.handlers_append, Listing.handler?_append, handler?_delays]
      simp [store, load, op, delayRanges, Listing.within_eq hstart hstop, or_assoc]
    have hconff := hconfined hf hatf
    have hguard' : ∀ p cls, pc + 1 ≤ p → p < pc + 1 + f.size + 2 →
        env.prog.handler? env.prog.handlers cls p =
          (env.prog.handler? f.handlers cls p).or (env.out cls) := by
      intro p cls hlo hp
      have hsize : p < pc + Code.size ([.label (.nth (m + 1)), store .ref slot,
          .label (.nth (m + 2))] ++ f ++ [load .ref slot, op .athrow] ++
            (delayRanges first stop caught m).map (delays (.nth (m + 1)))) := by
        simp
        omega
      have hout : ¬ p < pc + 1 := by omega
      rw [hguard p cls (by omega) hsize, hfind, hbefore p (by omega)]
      simp [hout]
    refine ⟨some (.nth (m + 1)), ⟨hconfined, hcopy, ?_⟩, fun p cls hp => ?_⟩
    · intro x w mem c hw hagrees hraises
      refine .after (hraises.caught fit.resolved rfl hstart) ?_
      refine delay_follows ih fit hsound hf hstore hatf hload hthrow ?_ ?_ hw hagrees
      · exact fun p cls hlo hp => hguard' p cls hlo (by omega)
      · intro cls
        rw [hguard' _ cls (by omega) (by omega), hconff.handler?_none (.inr (by omega)),
          Option.none_or]
    · have hout : ¬ pc ≤ p := by omega
      rw [hfind, hconff.handler?_none (.inl (by omega)), Option.none_or]
      simp [hout]

end Cleanups

/-- A try statement ends as its blocks do, with the finally clause behind them. -/
theorem try_follows {catches : List CatchClause} {cleanup : Cleanup} (ihb : StmtsFollow n body)
    (ihc : CatchesFollow n catches) (ihf : CleanupFollows n cleanup) :
    StmtFollows n (.tryCatch body catches cleanup) := by
  intro env slots frames vs w mem m code m' pc hi fit ⟨hb, hc, hf⟩ hw hagrees hgen hat hhi hguard
  obtain ⟨a, m₁, hga, f, m₂, hgf, c, caught, m₃, hgc, d, hgd, rfl⟩ := try_ok.1 hgen
  simp only [at_append, at_cons, Code.size_append, Code.size_cons, Code.size_nil,
    Item.size_label, Item.size_goto, Nat.add_zero, Nat.zero_add, ← Nat.add_assoc] at hat hhi
  obtain ⟨⟨⟨⟨⟨⟨⟨⟨hfirst, _⟩, hata⟩, hstop, _⟩, hatf⟩, hgoto, _⟩, hatc⟩, hatd⟩, hlast, _⟩ := hat
  subst hhi
  have hconfa := fit.confineds hb hga hata
  have hconff := fit.confined_cleanup hf hgf hatf
  have hspans := catches_spans fit hc (fun _ _ _ _ => fit.confined_cleanup hf) hgc hatc hfirst hstop
  -- Four tables in a row, of which most do not reach a given part.
  have hfind : ∀ p cls, pc ≤ p → p < pc + a.size + f.size + 1 + c.size + d.size →
      env.prog.handler? env.prog.handlers cls p = (env.prog.handler? a.handlers cls p).or
        ((env.prog.handler? f.handlers cls p).or ((env.prog.handler? c.handlers cls p).or
          ((env.prog.handler? d.handlers cls p).or (env.out cls)))) := by
    intro p cls hlo hp
    rw [hguard p cls hlo (by simp; omega)]
    simp [goto, Option.or_assoc]
  have hgd' : Guarded env.prog env.out (pc + a.size + f.size + 1 + c.size) d := by
    intro p cls hlo hp
    rw [hfind p cls (by omega) hp, hconfa.handler?_none (.inr (by omega)),
      hconff.handler?_none (.inr (by omega)), hspans.handler?_none (.inr (by omega)) (by omega),
      Option.none_or, Option.none_or, Option.none_or]
  have houtside : ∀ p, pc + a.size ≤ p →
      p < pc + a.size + f.size + 1 ∨ pc + a.size + f.size + 1 + c.size ≤ p →
      ((⟨.nth (m + 1), .nth (m + 2)⟩ :: caught : List Caught).any fun k =>
        env.prog.within k.start k.stop p) = false := by
    intro p hlo hp
    have hout : ¬ p < pc + a.size := by omega
    rw [List.any_cons, hspans.any_caught hp, Listing.within_eq hfirst hstop]
    simp [hout]
  obtain ⟨delay, hclean, hdelay⟩ := delayed_cleans ihf fit hf
    (pc + a.size + f.size + 1 + c.size + d.size) hgd hatd hgd'
    fun p hp => houtside p (by omega) (.inr hp)
  have hgc' : ∀ p cls, pc + a.size + f.size + 1 ≤ p → p < pc + a.size + f.size + 1 + c.size →
      env.prog.handler? env.prog.handlers cls p = (env.prog.handler? c.handlers cls p).or
        ((if caught.any fun k => env.prog.within k.start k.stop p then delay else none).or
          (env.out cls)) := by
    intro p cls hlo hp
    have hout : ¬ p < pc + a.size := by omega
    rw [hfind p cls (by omega) (by omega), hconfa.handler?_none (.inr (by omega)),
      hconff.handler?_none (.inr (by omega)), hdelay p cls hp, List.any_cons,
      Listing.within_eq hfirst hstop]
    simp [hout]
  have hgf' : Guarded env.prog env.out (pc + a.size) f := by
    intro p cls hlo hp
    rw [hfind p cls (by omega) (by omega), hconfa.handler?_none (.inr (by omega)),
      hspans.handler?_none (.inl (by omega)) (by omega), hdelay p cls (by omega),
      houtside p hlo (.inl (by omega))]
    simp
  choose entry hentry hcatches using
    ihc fit hc hclean hgc hatc hfirst hstop (by omega) hlast hgc'
  have hga' : Guarded env.prog (fun cls => (entry cls).or (delay.or (env.out cls))) pc a := by
    intro p cls hlo hp
    rw [hfind p cls hlo (by omega), hconff.handler?_none (.inl (by omega)), hentry cls p hlo hp,
      hdelay p cls (by omega), List.any_cons, Listing.within_eq hfirst hstop]
    simp [hlo, hp]
  have fit' : Env.Fits { env with out := fun cls => (entry cls).or (delay.or (env.out cls)) } slots
      frames vs := { fit with }
  have htyped : ∀ k w', execs n body w = .done k w' → w'.Typed vs := by
    intro k w' heq
    have hsafe := fit.safes n hb hw
    rw [heq] at hsafe
    exact hw.keeps fit.vars hsafe.1
  refine (ihb fit' hb hw hagrees hga hata rfl hga').handled ?_ ?_
  · intro w' mem' heq hagrees'
    exact (hclean.copy hgf hatf hgf' (htyped _ w' heq) hagrees').before fun mem =>
      Machine.goes_goto hgoto hlast
  · intro x w' mem' heq hagrees' hraises
    have hw' := htyped _ w' heq
    have hx := hcatches x.cls
    cases he : entry x.cls with
    | none =>
      rw [he] at hx
      rw [hx x rfl w']
      exact hclean.delayed hw' hagrees' (hraises.congr (by simp [Raised.thrown, he, Env.delaying]))
    | some l =>
      rw [he] at hx
      obtain ⟨q, hq, hfollows⟩ := hx
      exact .after (hraises.caught fit.resolved (by simp [Raised.thrown, he]) hq)
        (hfollows x rfl w' mem' hw' hagrees')

end Jminus.Checked.Meaning
