import Jminus.Checked.Analysis
import Jminus.Proofs.Typing
import Mathlib

/-!
Checking an expression: whatever it reports is an error and not about a jump, and if it reports
nothing then the checked expression is sound and has a type.
-/
namespace Jminus.Checked

/-- Reports that analysis made, all of them errors. -/
def Reports (ds : List Diagnostic) : Prop := ∀ d ∈ ds, ∃ line p, d = report line p

namespace Reports

theorem nil : Reports [] := by
  intro d hd
  cases hd

theorem singleton (line : Nat) (p : Problem) : Reports [report line p] := by
  intro d hd
  exact ⟨line, p, List.mem_singleton.1 hd⟩

theorem append {ds es : List Diagnostic} (hds : Reports ds) (hes : Reports es) :
    Reports (ds ++ es) := by
  intro d hmem
  exact (List.mem_append.1 hmem).elim (hds d) (hes d)

end Reports

/-- Reports none of which is about a jump. -/
def Mistakes (ds : List Diagnostic) : Prop :=
  ∀ d ∈ ds, ∃ line p, d = report line p ∧ p.cause ≠ .breakOutside ∧ p.cause ≠ .continueOutside

namespace Mistakes

variable {ds es : List Diagnostic}

@[simp] theorem nil : Mistakes [] := by
  intro d hd
  cases hd

@[simp] theorem singleton {line : Nat} {p : Problem} :
    Mistakes [report line p] ↔ p.cause ≠ .breakOutside ∧ p.cause ≠ .continueOutside := by
  constructor
  · intro h
    obtain ⟨_, q, heq, hq⟩ := h _ List.mem_cons_self
    cases heq
    exact hq
  · intro hp d hd
    exact ⟨line, p, List.mem_singleton.1 hd, hp⟩

@[simp] theorem append : Mistakes (ds ++ es) ↔ Mistakes ds ∧ Mistakes es := by
  simp only [Mistakes, List.mem_append, or_imp, forall_and]

theorem reports (h : Mistakes ds) : Reports ds := by
  intro d hd
  obtain ⟨line, p, heq, _⟩ := h d hd
  exact ⟨line, p, heq⟩

end Mistakes

/-- What is reported of a literal is not about a jump. -/
theorem checkLiteral_mistakes (lit : Literal) : Mistakes (checkLiteral lit).2 := by
  unfold checkLiteral
  split
  case h_1 | h_2 | h_3 =>
    dsimp only
    split <;> simp [noValue, Cause.on]
  all_goals simp

theorem lookUp_mistakes (env : Env) (name : Name) : Mistakes (lookUp env name).2 := by
  unfold lookUp
  split <;> simp [Cause.on]

theorem conditionReports_mistakes (line : Nat) (t : Ty) : Mistakes (conditionReports line t) := by
  unfold conditionReports
  split <;> simp [Cause.on]

theorem assignReports_mistakes (line : Nat) (got want : Ty) :
    Mistakes (assignReports line got want) := by
  unfold assignReports
  split <;> simp [Cause.on]

theorem compoundReports_mistakes (line : Nat) (op : Operator) (want got : Ty) :
    Mistakes (compoundReports line op want got) := by
  unfold compoundReports
  split <;> simp [Cause.on]

theorem resolve_mistakes {name : String} {args : List Ty} {p : Problem} (line : Nat)
    (h : Method.resolve name args = .error p) : Mistakes [report line p] := by
  unfold Method.resolve Method.resolve.unlessVoid at h
  split_ifs at h <;> cases h <;> simp [Cause.on]

attribute [simp] checkLiteral_mistakes lookUp_mistakes conditionReports_mistakes
  assignReports_mistakes compoundReports_mistakes

mutual

theorem checkExpr_mistakes (env : Env) : ∀ e, Mistakes (checkExpr env e).2
  | .literal lit => by simp [checkExpr]
  | .var name => by simp [checkExpr]
  | .assign .plain _ _ value => by simp [checkExpr, checkExpr_mistakes env value]
  | .assign (.compound _) _ _ value => by simp [checkExpr, checkExpr_mistakes env value]
  | .binary _ _ left right => by
    have hl := checkExpr_mistakes env left
    have hr := checkExpr_mistakes env right
    simp only [checkExpr]
    split <;> simp [hl, hr, Cause.on]
  | .logical _ _ left right => by
    simp [checkExpr, checkExpr_mistakes env left, checkExpr_mistakes env right]
  | .unary _ _ operand => by
    have h := checkExpr_mistakes env operand
    simp only [checkExpr]
    split
    · exact h
    · split <;> simp [h, Cause.on]
  | .increment _ _ _ _ => by
    simp only [checkExpr]
    split <;> simp [Cause.on]
  | .conditional _ cond thenPart elsePart => by
    have hc := checkExpr_mistakes env cond
    have ht := checkExpr_mistakes env thenPart
    have he := checkExpr_mistakes env elsePart
    simp only [checkExpr]
    split <;> simp [hc, ht, he, Cause.on]
  | .new _ => by
    simp only [checkExpr]
    split
    · simp [Cause.on]
    · split <;> simp [Cause.on]
  | .call name args => by
    have h := checkExprs_mistakes env args
    simp only [checkExpr]
    split
    · exact h
    · rename_i hresolve
      exact Mistakes.append.2 ⟨h, resolve_mistakes name.line hresolve⟩
  | .group inner => by simp [checkExpr, checkExpr_mistakes env inner]

theorem checkExprs_mistakes (env : Env) : ∀ es, Mistakes (checkExprs env es).2
  | [] => by simp [checkExprs]
  | e :: es => by simp [checkExprs, checkExpr_mistakes env e, checkExprs_mistakes env es]

end

def Storable (vs : List Local) : Prop := ∀ v ∈ vs, v.type.isStorable = true

variable {vs : List Local} {t got want : Ty} {line : Nat}

theorem storable_of_holds {slots : Slots} (hvs : ∀ v ∈ vs, slots.Holds v) : Storable vs :=
  fun v hv => (hvs v hv).2

theorem ne_any_of_storable (h : t.isStorable = true) : t ≠ .any := by
  rintro rfl
  cases h

/-- An operator with known operands has a known result. -/
theorem ne_any_of_binary {op : BinaryOp} {l r operand : Ty} (hl : l ≠ .any) (hr : r ≠ .any)
    (h : Ty.binary (some op) l r = some (t, operand)) : t ≠ .any := by
  simp only [Ty.binary, hl, hr, decide_false, Bool.or_self, Bool.false_eq_true, if_false] at h
  rintro rfl
  cases op with
  | compute o => cases o <;> grind
  | compare rel => grind

theorem ne_any_of_conditional {a b : Ty} (ha : a ≠ .any) (hb : b ≠ .any)
    (h : Ty.conditional a b = some t) : t ≠ .any := by
  unfold Ty.conditional at h
  grind

theorem Constant.Fits.ne_any {value : Option Constant} (h : Constant.Fits t value) : t ≠ .any := by
  rintro rfl
  cases value <;> exact h

/-- Sound expressions have known types. -/
theorem Expr.Sound.type_ne_any (hvs : Storable vs) :
    ∀ {e : Expr}, e.Sound vs → e.type ≠ .any
  | .literal _ _, h => Constant.Fits.ne_any h
  | .var _, ⟨x, hx, hv⟩ => by
    subst hv
    exact ne_any_of_storable (hvs x hx)
  | .assign _ _ _, ⟨_, x, hx, ht, _⟩ => by
    subst ht
    exact ne_any_of_storable (hvs x hx)
  | .binary _ _ _ _ _, ⟨hl, hr, _, _, h⟩ =>
    ne_any_of_binary (hl.type_ne_any hvs) (hr.type_ne_any hvs) h
  | .logical _ _ _, _ => by simp [Expr.type]
  | .unary _ _ operand, ⟨h, ht, _⟩ => by
    rw [Expr.type, ht]
    exact h.type_ne_any hvs
  | .increment _ _ _, ⟨x, hx, ht, _⟩ => by
    subst ht
    exact ne_any_of_storable (hvs x hx)
  | .conditional _ _ _ _, ⟨_, _, ht, he, h⟩ =>
    ne_any_of_conditional (ht.type_ne_any hvs) (he.type_ne_any hvs) h
  | .new _, h => by
    rw [Expr.type]
    rintro rfl
    rcases h with h | h <;> cases h
  | .call _ _, ⟨_, m, _, hm, _⟩ => by
    subst hm
    simp [Expr.type]
  | .group inner, h => by
    rw [Expr.type]
    exact Expr.Sound.type_ne_any hvs (e := inner) h

/-- A literal without a report has a constant of its type. -/
theorem checkLiteral_sound {lit : Literal} (h : (checkLiteral lit).2 = []) :
    ∃ type value, (checkLiteral lit).1 = .literal type value ∧ Constant.Fits type value := by
  unfold checkLiteral at h ⊢
  split at h
  case h_1 | h_2 | h_3 =>
    dsimp only at h ⊢
    split at h
    · rename_i hvalue
      simp only [hvalue]
      exact ⟨_, _, rfl, trivial⟩
    · cases h
  case h_4 c _ => exact ⟨_, _, rfl, c, rfl⟩
  all_goals exact ⟨_, _, rfl, trivial⟩

/-- A name without a report is a variable in sight. -/
theorem lookUp_sound {env : Env} {name : Name} (h : (lookUp env name).2 = []) :
    ∃ x ∈ env.scopes.flatten, (lookUp env name).1 = some x := by
  unfold lookUp at h ⊢
  split at h
  · rename_i v hv
    exact ⟨v, List.mem_of_find?_eq_some hv, rfl⟩
  · cases h

/-- A condition has to be boolean, if its type is known. -/
theorem conditionReports_eq_nil : conditionReports line t = [] ↔ t = .any ∨ t = .boolean := by
  simp [conditionReports, or_iff_not_imp_left]

theorem assignReports_eq_nil : assignReports line got want = [] ↔ got.assignableTo want = true := by
  simp [assignReports]

theorem compoundReports_eq_nil {op : Operator} :
    compoundReports line op want got = [] ↔ fitsCompound op want got = true := by
  simp [compoundReports]

theorem condition_of_reports (hne : t ≠ .any) (h : conditionReports line t = []) :
    t = .boolean := by
  unfold conditionReports at h
  split at h
  · rename_i ht
    simpa [hne] using ht
  · cases h

theorem assignable_of_reports (h : assignReports line got want = []) :
    got.assignableTo want = true := by
  unfold assignReports at h
  split at h
  · assumption
  · cases h

/-- A compound assignment has to have a result that fits. -/
theorem compound_of_reports {o : Operator} (h : compoundReports line o want got = []) :
    ∃ result operand, Ty.binary (some (.compute o)) want got = some (result, operand) ∧
      result.assignableTo want = true := by
  unfold compoundReports at h
  split at h
  · rename_i hfit
    simp only [fitsCompound, Option.any_eq_true] at hfit
    obtain ⟨⟨result, operand⟩, hb, ha⟩ := hfit
    exact ⟨result, operand, hb, ha⟩
  · cases h

mutual

/-- An expression about which there is nothing to report. -/
theorem checkExpr_sound {env : Env} (hvs : Storable env.scopes.flatten) :
    ∀ e, (checkExpr env e).2 = [] → (checkExpr env e).1.Sound env.scopes.flatten
  | .literal lit, h => by
    obtain ⟨type, value, heq, hfits⟩ := checkLiteral_sound h
    rw [checkExpr, heq]
    exact hfits
  | .var name, h => lookUp_sound h
  | .assign .plain line target value, h => by
    simp only [checkExpr, List.append_eq_nil_iff] at h
    obtain ⟨x, hx, hv⟩ := lookUp_sound h.1.1
    have hassign := assignable_of_reports h.2
    rw [hv] at hassign
    exact ⟨checkExpr_sound hvs value h.1.2, x, hx, hv, hassign⟩
  | .assign (.compound o) line target value, h => by
    simp only [checkExpr, List.append_eq_nil_iff] at h
    obtain ⟨x, hx, hv⟩ := lookUp_sound h.1.1
    have hcompound := compound_of_reports h.2
    rw [hv] at hcompound
    exact ⟨checkExpr_sound hvs value h.1.2, x, hx, hv, hcompound⟩
  | .binary op line left right, h => by
    simp only [checkExpr] at h ⊢
    split at h
    · rename_i result operand hbinary
      rw [List.append_eq_nil_iff] at h
      dsimp only
      exact ⟨checkExpr_sound hvs left h.1, checkExpr_sound hvs right h.2, operand, rfl, hbinary⟩
    · simp at h
  | .logical op line left right, h => by
    simp only [checkExpr, List.append_eq_nil_iff] at h
    have hl := checkExpr_sound hvs left h.1.1
    have hr := checkExpr_sound hvs right h.2.1
    exact ⟨hl, condition_of_reports (hl.type_ne_any hvs) h.1.2,
      hr, condition_of_reports (hr.type_ne_any hvs) h.2.2⟩
  | .unary op line operand, h => by
    have ih := checkExpr_sound hvs operand
    simp only [checkExpr] at h ⊢
    split at h
    · rename_i hany
      exact absurd hany ((ih h).type_ne_any hvs)
    · rename_i hany
      split at h
      · rename_i hunary
        simp only [hany, hunary, if_false, if_true]
        exact ⟨ih h, rfl, hunary⟩
      · simp at h
  | .increment op line side target, h => by
    simp only [checkExpr, List.append_eq_nil_iff] at h
    obtain ⟨x, hx, hv⟩ := lookUp_sound h.1
    refine ⟨x, hx, hv, ?_⟩
    have hfit := h.2
    rw [hv] at hfit
    have hne : x.type ≠ .any := ne_any_of_storable (hvs x hx)
    simpa [typeOf, hne] using hfit
  | .conditional line cond thenPart elsePart, h => by
    simp only [checkExpr] at h ⊢
    split at h
    · rename_i t htype
      simp only [List.append_eq_nil_iff] at h
      dsimp only
      have hc := checkExpr_sound hvs cond h.1.1.1
      exact ⟨hc, condition_of_reports (hc.type_ne_any hvs) h.1.1.2,
        checkExpr_sound hvs thenPart h.1.2, checkExpr_sound hvs elsePart h.2, htype⟩
    · simp at h
  | .new className, h => by
    simp only [checkExpr] at h ⊢
    split at h
    · cases h
    · rename_i t _
      split at h
      · rename_i hclass
        simp only [*, if_true]
        simpa [Expr.Sound] using hclass
      · cases h
  | .call name args, h => by
    simp only [checkExpr] at h ⊢
    split at h
    · rename_i method hresolve
      dsimp only
      exact ⟨checkExprs_sound hvs args h, method, name.text, rfl, hresolve⟩
    · simp at h
  | .group inner, h => checkExpr_sound hvs inner h

theorem checkExprs_sound {env : Env} (hvs : Storable env.scopes.flatten) :
    ∀ es, (checkExprs env es).2 = [] → Expr.AllSound env.scopes.flatten (checkExprs env es).1
  | [], _ => trivial
  | e :: es, h => by
    simp only [checkExprs, List.append_eq_nil_iff] at h
    exact ⟨checkExpr_sound hvs e h.1, checkExprs_sound hvs es h.2⟩

end

end Jminus.Checked
