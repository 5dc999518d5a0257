import Jminus.Proofs.Grammar.Phrases
import Mathlib

/-!
What stands behind the end of file is never looked at.

A rule of the parser looks at the next token and takes it if it fits. An end of file fits nowhere,
so a rule stops there at the latest, and two lists that agree up to an end of file are read alike.
This is proved rule by rule; the measures are those of the rules.
-/
namespace Jminus.Parser

open Grammar

/-- An end of file is among the tokens. -/
def Ended (ts : List Token) : Prop := ∃ t ∈ ts, t.kind = .eof

/-- Results of one rule on the tokens `ts` and on the same tokens with `more` behind them. They say
the same, and what is left still has an end of file. -/
inductive Alike {α : Type} {b b' : Nat} (ts more : List Token) :
    Result α b → Result α b' → Prop
  | read {rest : List Token} (a : α) (h : rest.length < b) (h' : (rest ++ more).length < b')
    (hrest : rest <:+ ts) (hended : Ended rest) :
    Alike ts more (.ok ⟨a, rest, h⟩) (.ok ⟨a, rest ++ more, h'⟩)
  | failed {rest : List Token} (p : Problem) (line : Nat) (hrest : rest <:+ ts)
    (hended : Ended rest) :
    Alike ts more (.error ⟨p, line, rest.length⟩) (.error ⟨p, line, (rest ++ more).length⟩)

variable {α β γ : Type} {b b' c c' : Nat} {t : Token} {ts us more : List Token}

namespace Ended

theorem exists_cons (h : Ended ts) : ∃ t us, ts = t :: us := by
  obtain ⟨u, hu, _⟩ := h
  exact List.exists_cons_of_ne_nil (List.ne_nil_of_mem hu)

theorem exists_shorter (h : Ended ts) : ∃ t us, ts = t :: us ∧ us.length < ts.length := by
  obtain ⟨t, us, rfl⟩ := h.exists_cons
  exact ⟨t, us, rfl, Nat.lt_succ_self _⟩

/-- Behind a token of another kind the end of file is still to come. -/
theorem skip (h : Ended (t :: us)) (ht : t.kind ≠ .eof) : Ended us := by
  obtain ⟨u, hu, heof⟩ := h
  rcases List.mem_cons.1 hu with rfl | hu
  · exact absurd heof ht
  · exact ⟨u, hu, heof⟩

theorem past {k : Kind} (h : Ended (t :: us)) (ht : t.kind = k) (hk : k ≠ .eof) : Ended us :=
  h.skip (ht ▸ hk)

/-- A token that fits somewhere is no end of file. -/
theorem skip_some {f : Kind → Option γ} {a : γ} (h : Ended (t :: us)) (ht : f t.kind = some a)
    (heof : f .eof = none) : Ended us := by
  refine h.skip fun hk => ?_
  rw [hk, heof] at ht
  cases ht

/-- What is next does not depend on what comes behind the end of file. -/
theorem head_append (h : Ended ts) : (ts ++ more).headD endOfFile = ts.headD endOfFile := by
  obtain ⟨t, us, rfl⟩ := h.exists_cons
  rfl

theorem nextIs_append (h : Ended ts) (k : Kind) : nextIs k (ts ++ more) = nextIs k ts := by
  rw [nextIs, h.head_append, nextIs]

end Ended

namespace Alike

variable {x : Result α b} {x' : Result α b'}

/-- Results may be compared further to the front. -/
theorem mono (h : Alike us more x x') (hus : us <:+ ts) : Alike ts more x x' := by
  cases h with
  | read a h h' hrest hended => exact .read a h h' (hrest.trans hus) hended
  | failed p line hrest hended => exact .failed p line (hrest.trans hus) hended

/-- Rules in a row are alike if each of them is. -/
theorem bind {f : Parsed α b → Result β c} {f' : Parsed α b' → Result β c'}
    (hx : Alike ts more x x') (hf : ∀ a rest h h', Ended rest →
      Alike rest more (f ⟨a, rest, h⟩) (f' ⟨a, rest ++ more, h'⟩)) :
    Alike ts more (x >>= f) (x' >>= f') := by
  cases hx with
  | read a h h' hrest hended => exact (hf a _ h h' hended).mono hrest
  | failed p line hrest hended => exact .failed p line hrest hended

theorem fail (p : Problem) (t : Token) (h : Ended ts) :
    Alike ts more (failAt p t ts : Result α b) (failAt p t (ts ++ more) : Result α b') :=
  .failed _ _ (List.suffix_refl ts) h

/-- A failure names the token that is next, which is the same. -/
theorem failNext (p : Problem) (h : Ended ts) :
    Alike ts more (Parser.failNext p ts : Result α b)
      (Parser.failNext p (ts ++ more) : Result α b') := by
  obtain ⟨t, us, rfl⟩ := h.exists_cons
  exact .fail p t h

theorem here {a : α} {h : ts.length < b} {h' : (ts ++ more).length < b'} (hended : Ended ts) :
    Alike ts more (.ok ⟨a, ts, h⟩ : Result α b) (.ok ⟨a, ts ++ more, h'⟩ : Result α b') :=
  .read a h h' (List.suffix_refl ts) hended

/-- A rule that takes one token first. -/
theorem behind (h : Alike us more x x') : Alike (t :: us) more x x' :=
  h.mono (List.suffix_cons t us)

end Alike

/-- One token that is expected. -/
theorem expect_alike {k : Kind} (cause : Cause) (h : Ended ts) (hk : k ≠ .eof) :
    Alike ts more (expect k cause ts) (expect k cause (ts ++ more)) := by
  obtain ⟨t, us, rfl⟩ := h.exists_cons
  by_cases ht : t.kind = k
  · simp only [expect, List.cons_append, ht, if_true]
    exact (Alike.here (h.past ht hk)).behind
  · simp only [expect, List.cons_append, ht, if_false]
    exact .failNext _ h

/-- A dotted name ends before the end of file. -/
theorem qualified_alike {ts more : List Token} (text : String) (h : Ended ts) :
    Alike ts more (.ok (qualified text ts)) (.ok (qualified text (ts ++ more))) := by
  obtain ⟨d, us, rfl⟩ := h.exists_cons
  by_cases hd : d.kind = .dot
  · have hus : Ended us := h.past hd (by decide)
    obtain ⟨n, vs, rfl⟩ := hus.exists_cons
    rw [qualified.eq_def, qualified.eq_def text (d :: n :: vs ++ more)]
    by_cases hn : n.kind = .identifier
    · have hvs : Ended vs := hus.past hn (by decide)
      have hmore : Alike vs more _ _ := qualified_alike (text ++ "." ++ n.lexeme) hvs
      simp only [List.cons_append, hd, hn, and_self, if_true]
      generalize qualified (text ++ "." ++ n.lexeme) vs = q at hmore ⊢
      generalize qualified (text ++ "." ++ n.lexeme) (vs ++ more) = q' at hmore ⊢
      cases hmore with
      | read a _ _ hrest hended => exact (Alike.read a _ _ hrest hended).behind.behind
    · simp only [List.cons_append, hn, and_false, if_false]
      exact .here h
  · have hstop : ∀ vs, qualified text (d :: vs) = ⟨text, d :: vs, Nat.lt_succ_self _⟩ :=
      fun vs => qualified_eq_of_not_dot hd
    rw [List.cons_append, hstop, hstop]
    exact .here h
termination_by ts.length

/-- Whether a declaration starts is seen before the end of file. -/
theorem startsDeclaration_alike (h : Ended ts) :
    startsDeclaration (ts ++ more) = startsDeclaration ts := by
  obtain ⟨t, us, rfl⟩ := h.exists_cons
  by_cases hname : t.kind = .identifier
  · have hus : Ended us := h.past hname (by decide)
    have hmore : Alike us more _ _ := qualified_alike t.lexeme hus
    simp only [startsDeclaration, List.cons_append]
    generalize qualified t.lexeme us = q at hmore ⊢
    generalize qualified t.lexeme (us ++ more) = q' at hmore ⊢
    cases hmore with
    | read a _ _ hrest hended =>
      obtain ⟨u, vs, rfl⟩ := hended.exists_cons
      rfl
  · simp [startsDeclaration, hname]

theorem typeName_alike (h : Ended ts) :
    Alike ts more (typeName ts) (typeName (ts ++ more)) := by
  obtain ⟨t, us, rfl⟩ := h.exists_cons
  simp only [typeName, List.cons_append]
  by_cases hprim : isPrimitive t.kind = true
  · have hus : Ended us := h.skip fun hk => by rw [hk] at hprim; cases hprim
    simp only [hprim, if_true]
    exact (Alike.here hus).behind
  rw [if_neg hprim, if_neg hprim]
  by_cases hname : t.kind = .identifier
  · have hus : Ended us := h.past hname (by decide)
    have hmore : Alike us more _ _ := qualified_alike t.lexeme hus
    simp only [hname, if_true]
    generalize qualified t.lexeme us = q at hmore ⊢
    generalize qualified t.lexeme (us ++ more) = q' at hmore ⊢
    cases hmore with
    | read a _ _ hrest hended => exact (Alike.read _ _ _ hrest hended).behind
  · simp only [hname, if_false]
    exact .failNext _ h

theorem increments_alike {ts more : List Token} (e : Expr) (h : Ended ts) :
    Alike ts more (increments e ts) (increments e (ts ++ more)) := by
  obtain ⟨t, us, rfl, hlt⟩ := h.exists_shorter
  rw [List.cons_append, increments, increments]
  cases hop : incrementOp? t.kind with
  | none => exact .here h
  | some op =>
    have hus := h.skip_some hop rfl
    cases e.target? with
    | none => exact (Alike.fail _ t hus).behind
    | some target =>
      refine Alike.behind (.bind (increments_alike _ hus) fun e' rest _ _ hended => ?_)
      exact .here hended
termination_by ts.length

/-- A minus and the number behind it are both before the end of file. -/
theorem ended_of_negative {e : Expr} (h : Ended us)
    (he : negativeLiteral? t (us.headD endOfFile) = some e) :
    ∃ u vs, us = u :: vs ∧ Ended vs := by
  obtain ⟨u, vs, rfl⟩ := h.exists_cons
  refine ⟨u, vs, rfl, h.skip fun hk => ?_⟩
  simp [negativeLiteral?, hk, isNumeric] at he

mutual

/-- The first part ends before the end of file, and so an operator behind it is the same. -/
theorem expression_alike {ts more : List Token} (h : Ended ts) :
    Alike ts more (expression ts) (expression (ts ++ more)) := by
  rw [expression, expression]
  refine .bind (conditional_alike h) fun left rest hless _ hended => ?_
  obtain ⟨t, us, rfl, hlt⟩ := hended.exists_shorter
  simp only [List.cons_append]
  cases hop : assignOp? t.kind with
  | none => exact .here hended
  | some op =>
    have hus := hended.skip_some hop rfl
    refine .behind (.bind (expression_alike hus) fun value rest _ _ hended => ?_)
    dsimp only
    cases left.target? with
    | none => exact .fail _ t hended
    | some target => exact .here hended
termination_by (ts.length, 30)

theorem conditional_alike {ts more : List Token} (h : Ended ts) :
    Alike ts more (conditional ts) (conditional (ts ++ more)) := by
  rw [conditional, conditional]
  refine .bind (chain_alike 10 h) fun cond rest hless _ hended => ?_
  obtain ⟨q, us, rfl, hlt⟩ := hended.exists_shorter
  simp only [List.cons_append]
  by_cases hq : q.kind = .question
  · have hus : Ended us := hended.past hq (by decide)
    simp only [hq, if_true]
    refine .behind (.bind (expression_alike hus) fun a ts₂ h₂ _ hended₂ => ?_)
    refine .bind (expect_alike _ hended₂ (by decide)) fun _ ts₃ (h₃ : ts₃.length < ts₂.length) _ hended₃ => ?_
    exact .bind (conditional_alike hended₃) fun _ _ _ _ => .here
  · simp only [hq, if_false]
    exact .here hended
termination_by (ts.length, 20)

theorem chain_alike {ts more : List Token} (n : Nat) (h : Ended ts) :
    Alike ts more (chain n ts) (chain n (ts ++ more)) := by
  cases n with
  | zero =>
    rw [chain, chain]
    exact unary_alike h
  | succ n =>
    rw [chain, chain]
    refine .bind (chain_alike n h) fun left rest hless _ hended => ?_
    exact .bind (links_alike n left hended) fun _ _ _ _ => .here
termination_by (ts.length, n + 5)

theorem links_alike {ts more : List Token} (n : Nat) (left : Expr) (h : Ended ts) :
    Alike ts more (links n left ts) (links n left (ts ++ more)) := by
  obtain ⟨t, us, rfl, hlt⟩ := h.exists_shorter
  rw [List.cons_append, links, links]
  cases hj : joinerAt? n t.kind with
  | none => exact .here h
  | some j =>
    have hus := h.skip_some hj rfl
    refine .behind (.bind (chain_alike n hus) fun right rest hless _ hended => ?_)
    exact .bind (links_alike n _ hended) fun _ _ _ _ => .here
termination_by (ts.length, n + 5)

theorem unary_alike {ts more : List Token} (h : Ended ts) :
    Alike ts more (unary ts) (unary (ts ++ more)) := by
  have hprimary : Alike ts more (primary ts) (primary (ts ++ more)) := primary_alike h
  obtain ⟨t, us, rfl, hlt⟩ := h.exists_shorter
  rw [List.cons_append, unary, unary]
  cases hinc : incrementOp? t.kind with
  | some op =>
    have hus := h.skip_some hinc rfl
    refine .behind (.bind (unary_alike hus) fun e rest _ _ hended => ?_)
    dsimp only
    cases e.target? with
    | none => exact .fail _ t hended
    | some target => exact .here hended
  | none =>
    cases hop : unaryOp? t.kind with
    | some op =>
      have hus := h.skip_some hop rfl
      rw [hus.head_append]
      cases hneg : negativeLiteral? t (us.headD endOfFile) with
      | some literal =>
        obtain ⟨u, vs, rfl, hended⟩ := ended_of_negative hus hneg
        exact .behind (.behind (.here hended))
      | none =>
        exact .behind (.bind (unary_alike hus) fun _ _ _ _ => .here)
    | none =>
      refine .bind hprimary fun e rest _ _ hended => ?_
      exact .bind (increments_alike e hended) fun _ _ _ _ => .here
termination_by (ts.length, 4)

/-- The cases are those of the rule. -/
theorem primary_alike {ts more : List Token} (h : Ended ts) :
    Alike ts more (primary ts) (primary (ts ++ more)) := by
  obtain ⟨t, us, rfl, hlt⟩ := h.exists_shorter
  rw [List.cons_append, primary.eq_def, primary.eq_def (t :: (us ++ more))]
  dsimp only
  cases hform : literalForm? t with
  | some form =>
    have hus : Ended us := h.skip fun hk => by simp [literalForm?, hk] at hform
    exact .behind (.here hus)
  | none =>
    dsimp only
    by_cases hnew : t.kind = .kwNew
    · have hus : Ended us := h.past hnew (by decide)
      simp only [hnew, if_true]
      refine .behind (.bind (typeName_alike hus) fun name ts₂ _ _ h₂ => ?_)
      refine .bind (expect_alike _ h₂ (by decide)) fun _ ts₃ _ _ h₃ => ?_
      exact .bind (expect_alike _ h₃ (by decide)) fun _ _ _ _ => .here
    by_cases hname : t.kind = .identifier
    · have hus : Ended us := h.past hname (by decide)
      obtain ⟨p, vs, rfl⟩ := hus.exists_cons
      simp only [List.cons_append, hname, reduceCtorEq, if_true, if_false]
      by_cases hp : p.kind = .leftParen
      · have hvs : Ended vs := hus.past hp (by decide)
        simp only [hp, if_true]
        exact .behind (.behind (.bind (arguments_alike hvs) fun _ _ _ _ => .here))
      · simp only [hp, if_false]
        exact .behind (.here hus)
    by_cases hgroup : t.kind = .leftParen
    · have hus : Ended us := h.past hgroup (by decide)
      simp only [hgroup, reduceCtorEq, if_true, if_false]
      refine .behind (.bind (expression_alike hus) fun e ts₂ _ _ h₂ => ?_)
      exact .bind (expect_alike _ h₂ (by decide)) fun _ _ _ _ => .here
    · simp only [hnew, hname, hgroup, if_false]
      split
      · exact .failNext _ h
      · exact .failNext _ h
termination_by (ts.length, 2)

theorem arguments_alike {ts more : List Token} (h : Ended ts) :
    Alike ts more (arguments ts) (arguments (ts ++ more)) := by
  have hmany : Alike ts more (expressionsTo ts) (expressionsTo (ts ++ more)) :=
    expressionsTo_alike h
  obtain ⟨t, us, rfl⟩ := h.exists_cons
  rw [List.cons_append, arguments, arguments]
  by_cases ht : t.kind = .rightParen
  · simp only [ht, if_true]
    exact .behind (.here (h.past ht (by decide)))
  · simp only [ht, if_false]
    exact hmany
termination_by (ts.length, 50)

theorem expressionsTo_alike {ts more : List Token} (h : Ended ts) :
    Alike ts more (expressionsTo ts) (expressionsTo (ts ++ more)) := by
  rw [expressionsTo, expressionsTo]
  refine .bind (expression_alike h) fun e rest hless _ hended => ?_
  obtain ⟨t, us, rfl, hlt⟩ := hended.exists_shorter
  simp only [List.cons_append]
  by_cases hcomma : t.kind = .comma
  · have hus : Ended us := hended.past hcomma (by decide)
    simp only [hcomma, if_true]
    exact .behind (.bind (expressionsTo_alike hus) fun _ _ _ _ => .here)
  by_cases hparen : t.kind = .rightParen
  · simp only [hparen, reduceCtorEq, if_true, if_false]
    exact .behind (.here (hended.past hparen (by decide)))
  · simp only [hcomma, hparen, if_false]
    exact .failNext _ hended
termination_by (ts.length, 40)

end

theorem parenthesized_alike (h : Ended ts) :
    Alike ts more (parenthesized ts) (parenthesized (ts ++ more)) := by
  refine .bind (expect_alike _ h (by decide)) fun _ ts₁ _ _ h₁ => ?_
  refine .bind (expression_alike h₁) fun e ts₂ _ _ h₂ => ?_
  exact .bind (expect_alike _ h₂ (by decide)) fun _ _ _ _ => .here

theorem expressions_alike {ts more : List Token} (h : Ended ts) :
    Alike ts more (expressions ts) (expressions (ts ++ more)) := by
  rw [expressions, expressions]
  refine .bind (expression_alike h) fun e rest hless _ hended => ?_
  obtain ⟨t, us, rfl, hlt⟩ := hended.exists_shorter
  simp only [List.cons_append]
  by_cases hcomma : t.kind = .comma
  · have hus : Ended us := hended.past hcomma (by decide)
    simp only [hcomma, if_true]
    exact .behind (.bind (expressions_alike hus) fun _ _ _ _ => .here)
  · simp only [hcomma, if_false]
    exact .here hended
termination_by ts.length

theorem initializer_alike (h : Ended ts) :
    Alike ts more (initializer ts) (initializer (ts ++ more)) := by
  obtain ⟨t, us, rfl⟩ := h.exists_cons
  rw [List.cons_append, initializer, initializer]
  by_cases ht : t.kind = .assign
  · have hus : Ended us := h.past ht (by decide)
    simp only [ht, if_true]
    exact .behind (.bind (expression_alike hus) fun _ _ _ _ => .here)
  · simp only [ht, if_false]
    exact .here h

theorem declarators_alike {ts more : List Token} (type : Name) (h : Ended ts) :
    Alike ts more (declarators type ts) (declarators type (ts ++ more)) := by
  rw [declarators, declarators]
  refine .bind (expect_alike _ h (by decide)) fun name ts₁ hless _ h₁ => ?_
  refine .bind (initializer_alike h₁) fun init ts₂ hless' _ h₂ => ?_
  obtain ⟨t, us, rfl, hlt⟩ := h₂.exists_shorter
  simp only [List.cons_append]
  by_cases hcomma : t.kind = .comma
  · have hus : Ended us := h₂.past hcomma (by decide)
    simp only [hcomma, if_true]
    exact .behind (.bind (declarators_alike type hus) fun _ _ _ _ => .here)
  · simp only [hcomma, if_false]
    exact .here h₂
termination_by ts.length

theorem localVariables_alike (h : Ended ts) :
    Alike ts more (localVariables ts) (localVariables (ts ++ more)) := by
  refine .bind (typeName_alike h) fun type ts₁ _ _ h₁ => ?_
  exact .bind (declarators_alike type h₁) fun _ _ _ _ => .here

theorem forInit_alike (h : Ended ts) : Alike ts more (forInit ts) (forInit (ts ++ more)) := by
  rw [forInit, forInit, h.nextIs_append, startsDeclaration_alike h]
  split
  · exact .here h
  split
  · exact .bind (localVariables_alike h) fun _ _ _ _ => .here
  · exact .bind (expressions_alike h) fun _ _ _ _ => .here

theorem expressionUnless_alike (stop : Kind) (h : Ended ts) :
    Alike ts more (expressionUnless stop ts) (expressionUnless stop (ts ++ more)) := by
  rw [expressionUnless, expressionUnless, h.nextIs_append]
  split
  · exact .here h
  · exact .bind (expression_alike h) fun _ _ _ _ => .here

theorem forUpdate_alike (h : Ended ts) :
    Alike ts more (forUpdate ts) (forUpdate (ts ++ more)) := by
  rw [forUpdate, forUpdate, h.nextIs_append]
  split
  · exact .here h
  · exact .bind (expressions_alike h) fun _ _ _ _ => .here

theorem forHeader_alike (h : Ended ts) :
    Alike ts more (forHeader ts) (forHeader (ts ++ more)) := by
  refine .bind (expect_alike _ h (by decide)) fun _ ts₁ _ _ h₁ => ?_
  refine .bind (forInit_alike h₁) fun init ts₂ _ _ h₂ => ?_
  refine .bind (expect_alike _ h₂ (by decide)) fun _ ts₃ _ _ h₃ => ?_
  refine .bind (expressionUnless_alike .semi h₃) fun cond ts₄ _ _ h₄ => ?_
  refine .bind (expect_alike _ h₄ (by decide)) fun _ ts₅ _ _ h₅ => ?_
  refine .bind (forUpdate_alike h₅) fun update ts₆ _ _ h₆ => ?_
  exact .bind (expect_alike _ h₆ (by decide)) fun _ _ _ _ => .here

theorem caseLabel_alike (h : Ended ts) :
    Alike ts more (caseLabel ts) (caseLabel (ts ++ more)) := by
  obtain ⟨t, us, rfl⟩ := h.exists_cons
  rw [List.cons_append, caseLabel, caseLabel]
  by_cases hdefault : t.kind = .kwDefault
  · have hus : Ended us := h.past hdefault (by decide)
    simp only [hdefault, if_true]
    exact .behind (.bind (expect_alike _ hus (by decide)) fun _ _ _ _ => .here)
  by_cases hcase : t.kind = .kwCase
  · have hus : Ended us := h.past hcase (by decide)
    simp only [hcase, reduceCtorEq, if_true, if_false]
    refine .behind (.bind (expression_alike hus) fun e ts₂ _ _ h₂ => ?_)
    exact .bind (expect_alike _ h₂ (by decide)) fun _ _ _ _ => .here
  · simp only [hdefault, hcase, if_false]
    exact .failNext _ h

theorem caseLabels_alike {ts more : List Token} (h : Ended ts) :
    Alike ts more (caseLabels ts) (caseLabels (ts ++ more)) := by
  rw [caseLabels, caseLabels, h.nextIs_append, h.nextIs_append]
  split
  · refine .bind (caseLabel_alike h) fun label ts₁ hless _ h₁ => ?_
    exact .bind (caseLabels_alike h₁) fun _ _ _ _ => .here
  · exact .here h
termination_by ts.length

theorem groupLabels_alike (h : Ended ts) :
    Alike ts more (groupLabels ts) (groupLabels (ts ++ more)) := by
  refine .bind (caseLabel_alike h) fun label ts₁ _ _ h₁ => ?_
  exact .bind (caseLabels_alike h₁) fun _ _ _ _ => .here

theorem catchHeader_alike (h : Ended ts) :
    Alike ts more (catchHeader ts) (catchHeader (ts ++ more)) := by
  refine .bind (expect_alike _ h (by decide)) fun _ ts₁ _ _ h₁ => ?_
  refine .bind (typeName_alike h₁) fun type ts₂ _ _ h₂ => ?_
  refine .bind (expect_alike _ h₂ (by decide)) fun name ts₃ _ _ h₃ => ?_
  exact .bind (expect_alike _ h₃ (by decide)) fun _ _ _ _ => .here

mutual

theorem blockStatement_alike {ts more : List Token} (h : Ended ts) :
    Alike ts more (blockStatement ts) (blockStatement (ts ++ more)) := by
  rw [blockStatement, blockStatement, startsDeclaration_alike h]
  split
  · refine .bind (localVariables_alike h) fun decls ts₁ _ _ h₁ => ?_
    exact .bind (expect_alike _ h₁ (by decide)) fun _ _ _ _ => .here
  · exact .bind (statement_alike h) fun _ _ _ _ => .here
termination_by (ts.length, 2)

/-- Statements stop at the end of file at the latest. -/
theorem statements_alike {ts more : List Token} (stop : Kind → Bool) (h : Ended ts) :
    Alike ts more (statements stop ts) (statements stop (ts ++ more)) := by
  rw [statements, statements, h.head_append]
  split
  · exact .here h
  · refine .bind (blockStatement_alike h) fun first ts₁ hless _ h₁ => ?_
    exact .bind (statements_alike stop h₁) fun _ _ _ _ => .here
termination_by (ts.length, 3)

theorem blockRest_alike {ts more : List Token} (h : Ended ts) :
    Alike ts more (blockRest ts) (blockRest (ts ++ more)) := by
  rw [blockRest, blockRest]
  refine .bind (statements_alike endsBlock h) fun body ts₁ _ _ h₁ => ?_
  exact .bind (expect_alike _ h₁ (by decide)) fun _ _ _ _ => .here
termination_by (ts.length, 4)

theorem block_alike {ts more : List Token} (h : Ended ts) :
    Alike ts more (block ts) (block (ts ++ more)) := by
  rw [block, block]
  refine .bind (expect_alike _ h (by decide)) fun _ ts₁ hless _ h₁ => ?_
  exact .bind (blockRest_alike h₁) fun _ _ _ _ => .here
termination_by (ts.length, 1)

theorem switchGroups_alike {ts more : List Token} (h : Ended ts) :
    Alike ts more (switchGroups ts) (switchGroups (ts ++ more)) := by
  rw [switchGroups, switchGroups, h.head_append]
  split
  · exact .bind (expect_alike _ h (by decide)) fun _ _ _ _ => .here
  · refine .bind (groupLabels_alike h) fun labels ts₁ hless _ h₁ => ?_
    refine .bind (statements_alike endsGroup h₁) fun body ts₂ hless' _ h₂ => ?_
    exact .bind (switchGroups_alike h₂) fun _ _ _ _ => .here
termination_by (ts.length, 1)

theorem catchClauses_alike {ts more : List Token} (h : Ended ts) :
    Alike ts more (catchClauses ts) (catchClauses (ts ++ more)) := by
  obtain ⟨t, us, rfl, hlt⟩ := h.exists_shorter
  rw [List.cons_append, catchClauses, catchClauses]
  by_cases ht : t.kind = .kwCatch
  · have hus : Ended us := h.past ht (by decide)
    simp only [ht, if_true]
    refine .behind (.bind (catchHeader_alike hus) fun header ts₂ hless _ h₂ => ?_)
    refine .bind (block_alike h₂) fun body ts₃ (_ : ts₃.length < ts₂.length) _ h₃ => ?_
    exact .bind (catchClauses_alike h₃) fun _ _ _ _ => .here
  · simp only [ht, if_false]
    exact .here h
termination_by (ts.length, 0)

theorem finallyClause_alike {ts more : List Token} (h : Ended ts) :
    Alike ts more (finallyClause ts) (finallyClause (ts ++ more)) := by
  obtain ⟨t, us, rfl, hlt⟩ := h.exists_shorter
  rw [List.cons_append, finallyClause, finallyClause]
  by_cases ht : t.kind = .kwFinally
  · have hus : Ended us := h.past ht (by decide)
    simp only [ht, if_true]
    exact .behind (.bind (block_alike hus) fun _ _ _ _ => .here)
  · simp only [ht, if_false]
    exact .here h
termination_by (ts.length, 0)

theorem elseClause_alike {ts more : List Token} (h : Ended ts) :
    Alike ts more (elseClause ts) (elseClause (ts ++ more)) := by
  obtain ⟨t, us, rfl, hlt⟩ := h.exists_shorter
  rw [List.cons_append, elseClause, elseClause]
  by_cases ht : t.kind = .kwElse
  · have hus : Ended us := h.past ht (by decide)
    simp only [ht, if_true]
    exact .behind (.bind (statement_alike hus) fun _ _ _ _ => .here)
  · simp only [ht, if_false]
    exact .here h
termination_by (ts.length, 0)

/-- No statement looks behind the end of file. -/
theorem statement_alike {ts more : List Token} (h : Ended ts) :
    Alike ts more (statement ts) (statement (ts ++ more)) := by
  obtain ⟨t, us, rfl, hlt⟩ := h.exists_shorter
  rw [List.cons_append, statement.eq_def, statement.eq_def (t :: (us ++ more))]
  dsimp only
  -- One case for each token that opens a statement, in the order of the rule.
  split
  · rename_i ht
    refine .behind (.bind (blockRest_alike (h.past ht (by decide))) fun _ _ _ _ => .here)
  · rename_i ht
    refine .behind (.bind (parenthesized_alike (h.past ht (by decide))) fun cond ts₂ _ _ h₂ => ?_)
    refine .bind (statement_alike h₂) fun thenBranch ts₃ (_ : ts₃.length < ts₂.length) _ h₃ => ?_
    exact .bind (elseClause_alike h₃) fun _ _ _ _ => .here
  · rename_i ht
    refine .behind (.bind (parenthesized_alike (h.past ht (by decide))) fun cond ts₂ _ _ h₂ => ?_)
    exact .bind (statement_alike h₂) fun _ _ _ _ => .here
  · rename_i ht
    refine .behind (.bind (statement_alike (h.past ht (by decide))) fun body ts₂ _ _ h₂ => ?_)
    refine .bind (expect_alike _ h₂ (by decide)) fun _ ts₃ _ _ h₃ => ?_
    refine .bind (parenthesized_alike h₃) fun cond ts₄ _ _ h₄ => ?_
    exact .bind (expect_alike _ h₄ (by decide)) fun _ _ _ _ => .here
  · rename_i ht
    refine .behind (.bind (forHeader_alike (h.past ht (by decide))) fun header ts₂ _ _ h₂ => ?_)
    exact .bind (statement_alike h₂) fun _ _ _ _ => .here
  · rename_i ht
    refine .behind (.bind (parenthesized_alike (h.past ht (by decide))) fun cond ts₂ _ _ h₂ => ?_)
    refine .bind (expect_alike _ h₂ (by decide)) fun _ ts₃ (_ : ts₃.length < ts₂.length) _ h₃ => ?_
    exact .bind (switchGroups_alike h₃) fun _ _ _ _ => .here
  · rename_i ht
    have hus := h.past ht (by decide)
    exact .behind (.bind (expect_alike _ hus (by decide)) fun _ _ _ _ => .here)
  · rename_i ht
    have hus := h.past ht (by decide)
    exact .behind (.bind (expect_alike _ hus (by decide)) fun _ _ _ _ => .here)
  · rename_i ht
    refine .behind
      (.bind (expressionUnless_alike .semi (h.past ht (by decide))) fun value ts₂ _ _ h₂ => ?_)
    exact .bind (expect_alike _ h₂ (by decide)) fun _ _ _ _ => .here
  · rename_i ht
    refine .behind (.bind (expression_alike (h.past ht (by decide))) fun value ts₂ _ _ h₂ => ?_)
    exact .bind (expect_alike _ h₂ (by decide)) fun _ _ _ _ => .here
  · rename_i ht
    refine .behind (.bind (block_alike (h.past ht (by decide))) fun body ts₂ _ _ h₂ => ?_)
    refine .bind (catchClauses_alike h₂) fun catches ts₃ (_ : ts₃.length < ts₂.length + 1) _ h₃ => ?_
    refine .bind (finallyClause_alike h₃) fun cleanup ts₄ _ _ h₄ => ?_
    dsimp only
    split
    · exact .failNext _ h₄
    · exact .here h₄
  · rename_i ht
    exact .behind (.here (h.past ht (by decide)))
  · refine .bind (expression_alike h) fun e ts₂ _ _ h₂ => ?_
    exact .bind (expect_alike _ h₂ (by decide)) fun _ _ _ _ => .here
termination_by (ts.length, 0)

end

end Jminus.Parser
