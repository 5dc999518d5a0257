import Jminus.Proofs.Meaning.Typed
import Jminus.Proofs.Scoping
import Mathlib

/-!
Every mistake is reported once.

Take a program about which there is nothing to report, and put a name that is not in sight in the
place of some of its names. An expression with such a name gets the type `any`, or it keeps its own.
Either way nothing is reported of what is around it. The last part of a conditional is the
exception: with a mistake there, the conditional takes the type of the part before it, which may be
narrower than its own type was.
-/
namespace Jminus.Checked

open Analysis

mutual

/-- Names of an expression are replaced by `q`. The list has the new names, in the order of the
text, and none of them is in the last part of a conditional. -/
inductive ExprSlips (q : String) : Jminus.Expr → Jminus.Expr → List Name → Prop
  | refl (e : Jminus.Expr) : ExprSlips q e e []
  | var {old bad} (hbad : bad.text = q) : ExprSlips q (.var old) (.var bad) [bad]
  | target {op line old bad e e' ns} (hbad : bad.text = q) (he : ExprSlips q e e' ns) :
    ExprSlips q (.assign op line old e) (.assign op line bad e') (bad :: ns)
  | value {op line target e e' ns} (he : ExprSlips q e e' ns) :
    ExprSlips q (.assign op line target e) (.assign op line target e') ns
  | binary {op line l l' r r' ns ms} (hl : ExprSlips q l l' ns) (hr : ExprSlips q r r' ms) :
    ExprSlips q (.binary op line l r) (.binary op line l' r') (ns ++ ms)
  | logical {op line l l' r r' ns ms} (hl : ExprSlips q l l' ns) (hr : ExprSlips q r r' ms) :
    ExprSlips q (.logical op line l r) (.logical op line l' r') (ns ++ ms)
  | unary {op line e e' ns} (he : ExprSlips q e e' ns) :
    ExprSlips q (.unary op line e) (.unary op line e') ns
  | counter {op line side old bad} (hbad : bad.text = q) :
    ExprSlips q (.increment op line side old) (.increment op line side bad) [bad]
  | conditional {line c c' t t' f ns ms} (hc : ExprSlips q c c' ns) (ht : ExprSlips q t t' ms) :
    ExprSlips q (.conditional line c t f) (.conditional line c' t' f) (ns ++ ms)
  | call {name es es' ns} (hes : ExprsSlip q es es' ns) :
    ExprSlips q (.call name es) (.call name es') ns
  | group {e e' ns} (he : ExprSlips q e e' ns) : ExprSlips q (.group e) (.group e') ns

inductive ExprsSlip (q : String) : List Jminus.Expr → List Jminus.Expr → List Name → Prop
  | nil : ExprsSlip q [] [] []
  | cons {e e' es es' ns ms} (he : ExprSlips q e e' ns) (hes : ExprsSlip q es es' ms) :
    ExprsSlip q (e :: es) (e' :: es') (ns ++ ms)

end

/-- The report of a name that is not in sight. -/
def unseen (bad : Name) : Diagnostic := report bad.line (Cause.undefinedVariable.on bad.text)

/-- The type of an expression with replaced names: nothing is known of it, or all that was. -/
def Weaker (s t : Ty) : Prop := s = t ∨ s = .any

section Expressions

variable {env : Env} {q : String} {s s' t t' : Ty}

theorem binary_weaker {op : BinaryOp} {u v : Ty} (hs : Weaker s' s) (ht : Weaker t' t)
    (h : Ty.binary (some op) s t = some (u, v)) :
    ∃ u' v', Ty.binary (some op) s' t' = some (u', v') ∧ Weaker u' u := by
  rcases hs with rfl | rfl
  · rcases ht with rfl | rfl
    · exact ⟨u, v, h, .inl rfl⟩
    · exact ⟨.any, .any, by simp [Ty.binary], .inr rfl⟩
  · exact ⟨.any, .any, by simp [Ty.binary], .inr rfl⟩

theorem assign_weaker {line : Nat} (h : Weaker s' s) (hs : assignReports line s t = []) :
    assignReports line s' t = [] := by
  rcases h with rfl | rfl
  · exact hs
  · simp [assignReports, Ty.assignableTo]

theorem condition_weaker {line : Nat} (h : Weaker t' t) (ht : conditionReports line t = []) :
    conditionReports line t' = [] := by
  rcases h with rfl | rfl
  · exact ht
  · exact conditionReports_eq_nil.2 (.inl rfl)

/-- Whatever is known of its arguments, a call of a method that is known is no mistake. -/
theorem resolve_weaker {name : String} {ts ts' : List Ty} {m : Method}
    (hts : List.Forall₂ Weaker ts' ts) (h : Method.resolve name ts = .ok m) :
    ∃ m', Method.resolve name ts' = .ok m' := by
  obtain ⟨_, ⟨rfl, rfl⟩ | ⟨hname, t, rfl, ht⟩⟩ := Meaning.resolve_cases h
  · cases hts
    exact ⟨m, h⟩
  · obtain ⟨s, _, hs, hnil, rfl⟩ := List.forall₂_cons_right_iff.1 hts
    cases hnil
    rcases hs with rfl | rfl
    · exact ⟨m, h⟩
    · rcases hname with rfl | rfl <;> exact ⟨_, rfl⟩

theorem lookUp_unseen (hq : env.get? q = none) {bad : Name} (hbad : bad.text = q) :
    lookUp env bad = (none, [unseen bad]) := by
  rw [lookUp, hbad, hq, unseen, hbad]

mutual

/-- Each replaced name gets one report, and nothing can be said against the type of the
expression. -/
theorem checkExpr_slips (hq : env.get? q = none) : ∀ {e e' : Jminus.Expr} {ns : List Name},
    ExprSlips q e e' ns → (checkExpr env e).2 = [] →
      (checkExpr env e').2 = ns.map unseen ∧
        Weaker (checkExpr env e').1.type (checkExpr env e).1.type
  | _, _, _, .refl _, h => ⟨h, .inl rfl⟩
  | _, _, _, .var hbad, _ => by
    simp only [checkExpr, lookUp_unseen hq hbad]
    exact ⟨rfl, .inr rfl⟩
  | _, _, _, @ExprSlips.target _ op _ _ _ _ _ _ hbad he, h => by
    simp only [checkExpr, List.append_eq_nil_iff] at h
    obtain ⟨hvalue, _⟩ := checkExpr_slips hq he h.1.2
    simp only [checkExpr, lookUp_unseen hq hbad, hvalue]
    refine ⟨?_, .inr rfl⟩
    cases op <;>
      simp [assignReports, compoundReports, fitsCompound, typeOf, Ty.assignableTo, Ty.binary]
  | _, _, _, @ExprSlips.value _ op _ _ _ _ _ he, h => by
    simp only [checkExpr, List.append_eq_nil_iff] at h
    obtain ⟨hvalue, hsame | hany⟩ := checkExpr_slips hq he h.1.2
    · simp only [checkExpr, hvalue, h.1.1, hsame, h.2]
      exact ⟨by simp, .inl rfl⟩
    · simp only [checkExpr, hvalue, h.1.1, hany]
      refine ⟨?_, .inl rfl⟩
      cases op <;> simp [assignReports, compoundReports, fitsCompound, Ty.assignableTo, Ty.binary]
  | _, _, _, .binary hl hr, h => by
    simp only [checkExpr] at h
    split at h
    · rename_i result operand hop
      obtain ⟨hleft, hright⟩ := List.append_eq_nil_iff.1 h
      obtain ⟨hleft, hs⟩ := checkExpr_slips hq hl hleft
      obtain ⟨hright, ht⟩ := checkExpr_slips hq hr hright
      obtain ⟨u, v, hop', hweak⟩ := binary_weaker hs ht hop
      simp only [checkExpr, hop, hop', hleft, hright, List.map_append]
      exact ⟨trivial, hweak⟩
    · simp at h
  | _, _, _, .logical hl hr, h => by
    simp only [checkExpr, List.append_eq_nil_iff] at h
    obtain ⟨hleft, hs⟩ := checkExpr_slips hq hl h.1.1
    obtain ⟨hright, ht⟩ := checkExpr_slips hq hr h.2.1
    simp only [checkExpr, hleft, hright, condition_weaker hs h.1.2, condition_weaker ht h.2.2,
      List.append_nil, List.map_append]
    exact ⟨trivial, .inl rfl⟩
  | _, _, _, .unary he, h => by
    simp only [checkExpr] at h ⊢
    split at h
    · rename_i hany
      obtain ⟨hoperand, hweak⟩ := checkExpr_slips hq he h
      have hany' := hweak.elim (·.trans hany) id
      simp only [hoperand, hany, hany', if_true]
      exact ⟨trivial, .inr rfl⟩
    · split at h
      · rename_i hknown hfits
        obtain ⟨hoperand, hsame | hany⟩ := checkExpr_slips hq he h
        · simp only [hoperand, hsame, hknown, hfits, if_true, if_false]
          exact ⟨trivial, .inl rfl⟩
        · simp only [hoperand, hany, if_true]
          exact ⟨trivial, .inr rfl⟩
      · simp at h
  | _, _, _, .counter hbad, _ => by
    simp only [checkExpr, lookUp_unseen hq hbad]
    exact ⟨by simp [typeOf], .inr rfl⟩
  | _, _, _, .conditional hc ht, h => by
    simp only [checkExpr] at h
    split at h
    · rename_i u hu
      simp only [List.append_eq_nil_iff] at h
      obtain ⟨⟨⟨hcond, hboolean⟩, hthen⟩, helse⟩ := h
      obtain ⟨hcond, hs⟩ := checkExpr_slips hq hc hcond
      obtain ⟨hthen, hsame | hany⟩ := checkExpr_slips hq ht hthen
      · simp only [checkExpr, hcond, hthen, helse, condition_weaker hs hboolean, hsame, hu]
        exact ⟨by simp, .inl rfl⟩
      · simp only [checkExpr, hcond, hthen, helse, condition_weaker hs hboolean, hany]
        simp [Ty.conditional, Ty.assignableTo, Weaker, Expr.type]
    · simp at h
  | _, _, _, .call hes, h => by
    simp only [checkExpr] at h
    split at h
    · rename_i m hm
      obtain ⟨hargs, hweak⟩ := checkExprs_slip hq hes h
      obtain ⟨m', hm'⟩ := resolve_weaker hweak hm
      simp only [checkExpr, hargs, hm, hm']
      exact ⟨trivial, .inl rfl⟩
    · simp at h
  | _, _, _, .group he, h => by
    simp only [checkExpr] at h ⊢
    exact checkExpr_slips hq he h

theorem checkExprs_slip (hq : env.get? q = none) : ∀ {es es' : List Jminus.Expr} {ns : List Name},
    ExprsSlip q es es' ns → (checkExprs env es).2 = [] →
      (checkExprs env es').2 = ns.map unseen ∧ List.Forall₂ Weaker
        ((checkExprs env es').1.map Expr.type) ((checkExprs env es).1.map Expr.type)
  | _, _, _, .nil, _ => ⟨rfl, .nil⟩
  | _, _, _, .cons he hes, h => by
    obtain ⟨hhead, htail⟩ := List.append_eq_nil_iff.1 h
    obtain ⟨hhead, hweak⟩ := checkExpr_slips hq he hhead
    obtain ⟨htail, hweaks⟩ := checkExprs_slip hq hes htail
    simp only [checkExprs, hhead, htail, List.map_append]
    exact ⟨trivial, .cons hweak hweaks⟩

end

end Expressions

/-- The variables have different names, and none of them is `q`. -/
structure Lacks (q : String) (vs : List Local) : Prop where
  named : Named vs
  absent : ∀ v ∈ vs, v.name ≠ q

/-- Where `x` reports nothing and `q` is not in sight, `y` does the same, but for a result of its
own and for the reports of these names. -/
structure Slips {α : Type} (q : String) (R : α → α → Prop) (ns : List Name) (x y : Analysis α) :
    Prop where
  refl : ∀ a, R a a
  total : Total x
  runs : ∀ ⦃st a st'⦄, Silent x st a st' → Lacks q st.inSight →
    Lacks q st'.inSight ∧ ∃ b, R a b ∧ y st = .ok (b, st'.tells (ns.map unseen))

section Actions

variable {α β : Type} {x y z : Analysis α} {f g : α → Analysis β} {q : String}
  {R : α → α → Prop} {S : β → β → Prop} {ns ms : List Name} {st st' : State}

theorem Lacks.get? (h : Lacks q st.inSight) : st.env.get? q = none :=
  List.find?_eq_none.2 fun v hv => by simpa using h.absent v hv

/-- A statement that does not declare the name keeps it out of sight. -/
theorem Lacks.behind {s : Jminus.Stmt} {a : Stmt} (h : Lacks q st.inSight)
    (hs : ∀ type name init, s = .var type name init → name.text ≠ q)
    (hrun : Silent (checkStmt s) st a st') : Lacks q st'.inSight := by
  obtain ⟨hscoped, hhands⟩ := checkStmt_scoped s h.named hrun
  refine ⟨hhands.names, ?_⟩
  rw [hhands.sight]
  refine List.forall_mem_append.2 ⟨?_, h.absent⟩
  cases hscoped with
  | var hv => simpa [Stmt.declares, hv.text] using hs _ _ _ rfl
  | varInit hv => simpa [Stmt.declares, hv.text] using hs _ _ _ rfl
  | _ => simp [Stmt.declares]

/-- What was reported before makes no difference. -/
theorem Silent.tells {a : α} (hx : Total x) (h : Silent x st a st') (ds : List Diagnostic) :
    Silent x (st.tells ds) a (st'.tells ds) := by
  obtain ⟨b, st₁, hrun, _⟩ := hx { st with diagnostics := [] }
  have hown := hrun st.diagnostics
  have hmore := hrun (st.diagnostics ++ ds)
  simp only [State.carries, List.append_nil] at hown hmore
  cases h.1.symm.trans hown
  have hnone : st₁.diagnostics = [] := List.append_right_eq_self.1 h.2
  simp only [Silent, State.tells, hmore, hnone, List.append_nil, and_self]

namespace Slips

/-- The same on both sides. -/
theorem same (hR : ∀ a, R a a) (hx : Total x)
    (hkeeps : ∀ ⦃st a st'⦄, Silent x st a st' → Lacks q st.inSight → Lacks q st'.inSight) :
    Slips q R [] x x :=
  ⟨hR, hx, fun _ a _ h hst => ⟨hkeeps h hst, a, hR a, by simp [h.1, State.tells]⟩⟩

theorem adds {x : Analysis Local} {name : Name} {t : Ty} (hname : name.text ≠ q)
    (hx : Acts x fun st v st' =>
      st.env.get? name.text = none ∧ v = (st.env.add name.text t).1 ∧ st' = st.adds name t) :
    Slips q Eq [] x x := by
  refine same Eq.refl hx.total fun st v st' h hst => ?_
  obtain ⟨hnew, rfl, rfl⟩ := hx.silent.1 h
  have hhands := State.Hands.adds hst.named t hnew
  exact ⟨hhands.names, hhands.sight ▸ List.forall_mem_cons.2 ⟨hname, hst.absent⟩⟩

theorem allocate : Slips q Eq [] Analysis.allocate Analysis.allocate := by
  refine same Eq.refl Calm.allocate.total fun st slot st' h hst => ?_
  obtain ⟨rfl, rfl⟩ := Acts.allocate.silent.1 h
  exact hst

theorem pure (a b : α) : Slips q ⊤ [] (Pure.pure a) (Pure.pure b) := by
  refine ⟨fun _ => trivial, .pure a, fun st c st' h hst => ?_⟩
  obtain ⟨rfl, rfl⟩ := (Acts.pure a).silent.1 h
  exact ⟨hst, b, trivial, by simp [State.tells]; rfl⟩

theorem bind (hx : Slips q R ns x y) (hf : ∀ a b, R a b → Slips q S ms (f a) (g b)) :
    Slips q S (ns ++ ms) (x >>= f) (y >>= g) := by
  have hf' := fun a => hf a a (hx.refl a)
  obtain ⟨a₀, _⟩ := hx.total.run {}
  refine ⟨(hf' a₀).refl, hx.total.bind fun a => (hf' a).total, fun st c st' h hst => ?_⟩
  obtain ⟨a, st₁, ha, hc⟩ := ((Acts.self hx.total).bind fun a => .self (hf' a).total).silent.1 h
  obtain ⟨hst₁, b, hab, hb⟩ := hx.runs ha hst
  obtain ⟨hst', d, hcd, hd⟩ := (hf a b hab).runs (hc.tells (hf' a).total _) hst₁
  exact ⟨hst', d, hcd, (bind_of_ok hb).trans (hd.trans (by simp [State.tells]))⟩

theorem andThen (hx : Slips q R ns x y) (hf : ∀ a b, R a b → Slips q S [] (f a) (g b)) :
    Slips q S ns (x >>= f) (y >>= g) :=
  List.append_nil ns ▸ hx.bind hf

theorem map (hx : Slips q R ns x y) (k k' : α → β) :
    Slips q ⊤ ns (x >>= fun a => Pure.pure (k a)) (y >>= fun b => Pure.pure (k' b)) :=
  hx.andThen fun a b _ => pure (k a) (k' b)

/-- The same comes first on both sides, with the same result. -/
theorem after {P : State → α → Prop} (hx : Acts x fun st a st' => P st a ∧ st' = st)
    (hf : ∀ a, Slips q S ms (f a) (g a)) : Slips q S ms (x >>= f) (x >>= g) := by
  have hsame : Slips q Eq [] x x := by
    refine same Eq.refl hx.total fun st a st' h hst => ?_
    obtain ⟨_, rfl⟩ := hx.silent.1 h
    exact hst
  exact hsame.bind fun a _ hab => hab ▸ hf a

theorem inScope (hx : Slips q R ns x y) :
    Slips q R ns (Analysis.inScope x) (Analysis.inScope y) := by
  refine ⟨hx.refl, hx.total.inScope, fun st a st' h hst => ?_⟩
  obtain ⟨st₁, hrun, rfl⟩ := (Acts.self hx.total).inScope.silent.1 h
  obtain ⟨_, b, hab, hb⟩ := hx.runs hrun hst
  have hsight : st₁.left.inSight = st.inSight := congrArg List.flatten (hrun.grows hx.total).outer
  exact ⟨hsight ▸ hst, b, hab, inScope_ok.2 ⟨_, hb, rfl⟩⟩

theorem inFrame (kind : FrameKind) (hx : Slips q R ns x y) :
    Slips q ⊤ ns (Analysis.inFrame kind x) (Analysis.inFrame kind y) := by
  refine ⟨fun _ => trivial, hx.total.inFrame kind, fun st r st' h hst => ?_⟩
  obtain ⟨st₁, hrun, flows, hpop, rfl⟩ := inFrame_ok.1 h.1
  obtain ⟨hst₁, b, _, hb⟩ := hx.runs ⟨hrun, h.2⟩ hst
  exact ⟨hst₁, (r.1, b), trivial, inFrame_ok.2 ⟨_, hb, flows, hpop, rfl⟩⟩

theorem tell {ds es : List Diagnostic} (hds : Mistakes ds) (h : ds = [] → es = []) :
    Slips q ⊤ [] (Analysis.tell ds) (Analysis.tell es) := by
  refine ⟨fun _ => trivial, (Calm.tell hds).total, fun st _ st' hrun hst => ?_⟩
  obtain ⟨hnone, rfl⟩ := (Acts.tell hds).silent.1 hrun
  exact ⟨hst, (), trivial, by rw [h hnone]; rfl⟩

/-- What is reported unless a condition holds, if the other condition is no stronger. -/
theorem required {c d : Prop} [Decidable c] [Decidable d] {line : Nat} {p : Problem}
    (hp : Mistakes [report line p]) (hcd : c → d) (hxy : Slips q R ns x y) :
    Slips q R ns (if c then x else Analysis.tell [report line p] >>= fun _ => x)
      (if d then y else z) := by
  have hacts := Acts.required (c := c) hp (Acts.self hxy.total)
  refine ⟨hxy.refl, hacts.total, fun st a st' h hst => ?_⟩
  obtain ⟨hc, h⟩ := hacts.silent.1 h
  rw [if_pos (hcd hc)]
  exact hxy.runs h hst

theorem expr {e e' : Jminus.Expr} (he : ExprSlips q e e' ns) :
    Slips q (fun a b => Weaker b.type a.type) ns (Analysis.expr e) (Analysis.expr e') := by
  refine ⟨fun _ => .inl rfl, (Calm.expr e).total, fun st a st' h hst => ?_⟩
  obtain ⟨ha, rfl⟩ := (Acts.expr e).silent.1 h
  obtain ⟨hreports, hweak⟩ := checkExpr_slips hst.get? he (congrArg Prod.snd ha)
  rw [ha] at hweak
  exact ⟨hst, _, hweak, by rw [← hreports]; rfl⟩

theorem exprs {es es' : List Jminus.Expr} (hes : ExprsSlip q es es' ns) :
    Slips q ⊤ ns (Analysis.exprs es) (Analysis.exprs es') := by
  refine ⟨fun _ => trivial, (Calm.exprs es).total, fun st as st' h hst => ?_⟩
  obtain ⟨has, rfl⟩ := (Acts.exprs es).silent.1 h
  obtain ⟨hreports, _⟩ := checkExprs_slip hst.get? hes (congrArg Prod.snd has)
  exact ⟨hst, _, trivial, by rw [← hreports]; rfl⟩

theorem condition (line : Nat) {e e' : Jminus.Expr} (he : ExprSlips q e e' ns) :
    Slips q ⊤ ns (Analysis.condition line e) (Analysis.condition line e') :=
  (expr he).andThen fun a _ hweak =>
    (tell (conditionReports_mistakes line a.type) (condition_weaker hweak)).map _ _

theorem conditions (line : Nat) {c c' : Option Jminus.Expr}
    (hc : ExprsSlip q c.toList c'.toList ns) :
    Slips q ⊤ ns (c.mapM (Analysis.condition line)) (c'.mapM (Analysis.condition line)) := by
  cases c with
  | none =>
    cases c' with
    | none =>
      cases hc
      exact pure none none
    | some e' => cases hc
  | some e =>
    cases c' with
    | none => cases hc
    | some e' =>
      obtain _ | ⟨he, ⟨⟩⟩ := hc
      exact List.append_nil _ ▸ (condition line he).map some some

end Slips

end Actions

mutual

/-- Names in the expressions of a statement are replaced by `q`, which is not declared beside
them. -/
inductive StmtSlips (q : String) : Jminus.Stmt → Jminus.Stmt → List Name → Prop
  | refl {s} (hs : ∀ type name init, s = .var type name init → name.text ≠ q) :
    StmtSlips q s s []
  | expr {e e' ns} (he : ExprSlips q e e' ns) : StmtSlips q (.expr e) (.expr e') ns
  | var {type name e e' ns} (hname : name.text ≠ q) (he : ExprSlips q e e' ns) :
    StmtSlips q (.var type name (some e)) (.var type name (some e')) ns
  | block {ss ss' ns} (hss : StmtsSlip q ss ss' ns) : StmtSlips q (.block ss) (.block ss') ns
  | ifOnly {line e e' s s' ns ms} (he : ExprSlips q e e' ns) (hs : StmtSlips q s s' ms) :
    StmtSlips q (.ifElse line e s none) (.ifElse line e' s' none) (ns ++ ms)
  | ifElse {line e e' s s' t t' ns ms ks} (he : ExprSlips q e e' ns) (hs : StmtSlips q s s' ms)
    (ht : StmtSlips q t t' ks) :
    StmtSlips q (.ifElse line e s (some t)) (.ifElse line e' s' (some t')) (ns ++ (ms ++ ks))
  | whileLoop {line e e' s s' ns ms} (he : ExprSlips q e e' ns) (hs : StmtSlips q s s' ms) :
    StmtSlips q (.whileLoop line e s) (.whileLoop line e' s') (ns ++ ms)
  | doLoop {line e e' s s' ns ms} (hs : StmtSlips q s s' ns) (he : ExprSlips q e e' ms) :
    StmtSlips q (.doLoop line s e) (.doLoop line s' e') (ns ++ ms)
  | forLoop {line ss ss' c c' us us' s s' ns ms ks ls} (hss : StmtsSlip q ss ss' ns)
    (hc : ExprsSlip q c.toList c'.toList ms) (hus : ExprsSlip q us us' ks)
    (hs : StmtSlips q s s' ls) :
    StmtSlips q (.forLoop line ss c us s) (.forLoop line ss' c' us' s') (ns ++ (ms ++ (ks ++ ls)))
  | switch {line e e' gs gs' ns ms} (he : ExprSlips q e e' ns) (hgs : GroupsSlip q gs gs' ms) :
    StmtSlips q (.switch line e gs) (.switch line e' gs') (ns ++ ms)
  | throw {line e e' ns} (he : ExprSlips q e e' ns) :
    StmtSlips q (.throw line e) (.throw line e') ns
  | tryCatch {ss ss' cs cs' ns ms} (hss : StmtsSlip q ss ss' ns) (hcs : CatchesSlip q cs cs' ms) :
    StmtSlips q (.tryCatch ss cs none) (.tryCatch ss' cs' none) (ns ++ ms)
  | tryFinally {ss ss' cs cs' fs fs' ns ms ks} (hss : StmtsSlip q ss ss' ns)
    (hcs : CatchesSlip q cs cs' ms) (hfs : StmtsSlip q fs fs' ks) :
    StmtSlips q (.tryCatch ss cs (some fs)) (.tryCatch ss' cs' (some fs')) (ns ++ (ms ++ ks))

inductive StmtsSlip (q : String) : List Jminus.Stmt → List Jminus.Stmt → List Name → Prop
  | nil : StmtsSlip q [] [] []
  | cons {s s' ss ss' ns ms} (hs : StmtSlips q s s' ns) (hss : StmtsSlip q ss ss' ms) :
    StmtsSlip q (s :: ss) (s' :: ss') (ns ++ ms)

inductive GroupsSlip (q : String) :
    List Jminus.SwitchGroup → List Jminus.SwitchGroup → List Name → Prop
  | nil : GroupsSlip q [] [] []
  | cons {ls ss ss' gs gs' ns ms} (hss : StmtsSlip q ss ss' ns) (hgs : GroupsSlip q gs gs' ms) :
    GroupsSlip q (.mk ls ss :: gs) (.mk ls ss' :: gs') (ns ++ ms)

inductive CatchesSlip (q : String) :
    List Jminus.CatchClause → List Jminus.CatchClause → List Name → Prop
  | nil : CatchesSlip q [] [] []
  | cons {type name ss ss' cs cs' ns ms} (hname : name.text ≠ q) (hss : StmtsSlip q ss ss' ns)
    (hcs : CatchesSlip q cs cs' ms) :
    CatchesSlip q (.mk type name ss :: cs) (.mk type name ss' :: cs') (ns ++ ms)

end

section Statements

variable {q : String}

mutual

theorem checkStmt_slips : ∀ {s s' : Jminus.Stmt} {ns : List Name}, StmtSlips q s s' ns →
    Slips q ⊤ ns (checkStmt s) (checkStmt s')
  | s, _, _, .refl hs =>
    .same (fun _ => trivial) (checkStmt_total s) fun _ _ _ h hst => hst.behind hs h
  | _, _, _, .expr he => (Slips.expr he).map _ _
  | _, _, _, @StmtSlips.var _ type name _ _ _ hname he =>
    .after (Acts.declaredType type name) fun t => (Slips.expr he).andThen fun a b hweak =>
      (Slips.tell (assignReports_mistakes name.line a.type t) (assign_weaker hweak)).andThen
        fun _ _ _ => (Slips.adds hname (Acts.declare name t)).map _ _
  | _, _, _, .block hss => (checkStmts_slip hss).inScope.map _ _
  | _, _, _, .ifOnly he hs =>
    (Slips.condition _ he).bind fun _ _ _ => (checkStmt_slips hs).inScope.map _ _
  | _, _, _, .ifElse he hs ht => (Slips.condition _ he).bind fun _ _ _ =>
    (checkStmt_slips hs).inScope.bind fun _ _ _ => (checkStmt_slips ht).inScope.map _ _
  | _, _, _, .whileLoop he hs => (Slips.inFrame .loop ((Slips.condition _ he).bind fun _ _ _ =>
    (checkStmt_slips hs).inScope.map _ _)).map _ _
  | _, _, _, .doLoop hs he => (Slips.inFrame .loop ((checkStmt_slips hs).inScope.bind fun _ _ _ =>
    (Slips.condition _ he).map _ _)).map _ _
  | _, _, _, .forLoop hss hc hus hs =>
    (Slips.inFrame .loop (Slips.inScope ((checkStmts_slip hss).bind fun _ _ _ =>
      (Slips.conditions _ hc).bind fun _ _ _ => (Slips.exprs hus).bind fun _ _ _ =>
        (checkStmt_slips hs).inScope.map _ _))).map _ _
  | _, _, _, .switch he hgs => (Slips.inFrame .switch ((Slips.expr he).bind fun a b hweak =>
      .required (by simp [Cause.on]) (by rcases hweak with hsame | hany <;> simp_all)
        ((checkGroups_slip hgs _ {}).map _ _))).map _ _
  | _, _, _, .throw he => (Slips.expr he).andThen fun a b hweak =>
    .required (by simp [Cause.on]) (by rcases hweak with hsame | hany <;> simp_all) (.pure _ _)
  | _, _, _, .tryCatch hss hcs => (checkStmts_slip hss).inScope.bind fun _ _ _ =>
    (checkCatches_slip hcs).map _ _
  | _, _, _, .tryFinally hss hcs hfs => (checkStmts_slip hss).inScope.bind fun _ _ _ =>
    (checkCatches_slip hcs).bind fun _ _ _ => (checkStmts_slip hfs).inScope.andThen fun _ _ _ =>
      Slips.allocate.map _ _

theorem checkStmts_slip : ∀ {ss ss' : List Jminus.Stmt} {ns : List Name}, StmtsSlip q ss ss' ns →
    Slips q ⊤ ns (checkStmts ss) (checkStmts ss')
  | _, _, _, .nil => .pure [] []
  | _, _, _, .cons hs hss => (checkStmt_slips hs).bind fun _ _ _ => (checkStmts_slip hss).map _ _

theorem checkGroups_slip : ∀ {gs gs' : List Jminus.SwitchGroup} {ns : List Name},
    GroupsSlip q gs gs' ns →
      ∀ line seen, Slips q ⊤ ns (checkGroups line seen gs) (checkGroups line seen gs')
  | _, _, _, .nil, _, _ => .pure [] []
  | _, _, _, @GroupsSlip.cons _ ls _ _ _ _ _ _ hss hgs, line, seen =>
    .after (Acts.labels line seen ls) fun r =>
      (checkStmts_slip hss).inScope.bind fun _ _ _ => (checkGroups_slip hgs line r.2).map _ _

theorem checkCatches_slip : ∀ {cs cs' : List Jminus.CatchClause} {ns : List Name},
    CatchesSlip q cs cs' ns → Slips q ⊤ ns (checkCatches cs) (checkCatches cs')
  | _, _, _, .nil => .pure [] []
  | _, _, _, @CatchesSlip.cons _ type name _ _ _ _ _ _ hname hss hcs =>
    (Slips.inScope (.after (Acts.caughtType type) fun t =>
      (Slips.adds hname (Acts.declareCaught name t)).bind fun _ _ _ =>
        (checkStmts_slip hss).inScope.map _ _)).bind fun _ _ _ =>
          (checkCatches_slip hcs).map _ _

end

end Statements

/-- Every mistake is reported once. If there is nothing to report about a program and some names in
its expressions are replaced by a name that is not in sight, outside of the last parts of
conditionals, the reports are that these names are not known. -/
theorem slip_reported_once {program program' : List Jminus.Stmt} {q : String} {ns : List Name}
    {checked : Program} (hcheck : check program = .ok checked) (hclean : checked.diagnostics = [])
    (hslip : StmtsSlip q program program' ns) :
    ∃ checked', check program' = .ok checked' ∧ checked'.diagnostics = ns.map unseen := by
  obtain ⟨stmts, st, hrun, _, hown⟩ := check_run program
  cases hcheck.symm.trans hown
  have hstart : Lacks q (State.inSight {}) := ⟨List.nodup_nil, by simp [State.inSight]⟩
  obtain ⟨_, stmts', _, hrun'⟩ := (checkStmts_slip hslip).runs ⟨hrun, hclean⟩ hstart
  obtain ⟨_, _, hrun'', _, hcheck'⟩ := check_run program'
  cases hrun'.symm.trans hrun''
  exact ⟨_, hcheck', by simpa [State.tells] using hclean⟩

/-- A variable is declared, and a sum of a name and a number is printed. -/
def summing (name : Name) : List Jminus.Stmt :=
  [.var ⟨"int", 1⟩ ⟨"x", 1⟩ (some (.literal ⟨.int, "1", 1⟩)),
    .expr (.call ⟨"println", 2⟩
      [.binary (.compute (.arith .add)) 2 (.var name) (.literal ⟨.int, "2", 2⟩)])]

theorem slip_reported_once_summing :
    ∃ checked', check (summing ⟨"y", 2⟩) = .ok checked' ∧
      checked'.diagnostics = [unseen ⟨"y", 2⟩] := by
  have hclean : ((check (summing ⟨"x", 2⟩)).toOption.map (·.diagnostics)) = some [] := by
    decide +kernel
  obtain ⟨checked, hcheck, _⟩ := check_total (summing ⟨"x", 2⟩)
  rw [hcheck] at hclean
  refine slip_reported_once hcheck (Option.some.inj hclean) (.cons (.refl ?_) (.cons (.expr (.call
    (.cons (.binary (.var rfl) (.refl _)) .nil))) .nil))
  rintro type name init ⟨⟩
  decide

/-- A conditional of an exception and a name is compared with a string. -/
def choosing (name : Name) : List Jminus.Stmt :=
  [.var ⟨"Object", 1⟩ ⟨"o", 1⟩ (some (.literal ⟨.null, "null", 1⟩)),
    .expr (.call ⟨"println", 1⟩ [.binary (.compare .eq) 1
      (.group (.conditional 1 (.literal ⟨.bool true, "true", 1⟩) (.new ⟨"ArithmeticException", 1⟩)
        (.var name))) (.literal ⟨.string "s", "\"s\"", 1⟩)])]

/-- In the last part of a conditional the same mistake is reported twice. -/
theorem choosing_reported_twice :
    (check (choosing ⟨"o", 1⟩)).toOption.map (·.diagnostics) = some [] ∧
      (check (choosing ⟨"q", 1⟩)).toOption.map (·.diagnostics) =
        some [unseen ⟨"q", 1⟩,
          report 1 (Cause.operandType.on "ArithmeticException == String")] := by
  decide +kernel

end Jminus.Checked
