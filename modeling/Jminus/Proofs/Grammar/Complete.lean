import Jminus.Proofs.Grammar.Phrases
import Jminus.Proofs.Grammar.Sound
import Mathlib

/-!
The parser reads every phrase of the grammar, and back: what it reads without complaint is one.

The parser reads on as long as it can, so a phrase is read to its end only where what follows cannot
continue it. The kinds that end a phrase are said first; the grammar puts nothing else behind it.
-/
namespace Jminus.Grammar

open Jminus.Parser

/-- An operand, and operands joined by operators of the levels below `n`, end before this kind. -/
structure EndsChain (n : Nat) (k : Kind) : Prop where
  call : k ≠ .leftParen
  increment : incrementOp? k = none
  join : ∀ m < n, joinerAt? m k = none

def endsExpression (k : Kind) : Bool :=
  k = .rightParen || k = .comma || k = .colon || k = .semi

def endsStatement (k : Kind) : Bool :=
  k ≠ .kwElse && k ≠ .kwCatch && k ≠ .kwFinally

/-- The statement ends before this kind. Only one that ends in an if without an else can take an
else. -/
structure Follows (s : Stmt) (k : Kind) : Prop where
  noCatch : k ≠ .kwCatch
  noFinally : k ≠ .kwFinally
  noElse : endsOpen s = true → k ≠ .kwElse

section Kinds

variable {n : Nat} {k : Kind}

/-- What joins on no level ends chains of all levels. -/
theorem EndsChain.of_no_joiner (hcall : k ≠ .leftParen) (hinc : incrementOp? k = none)
    (hj : joiner? k = none) : EndsChain n k :=
  ⟨hcall, hinc, fun m _ => by rw [joinerAt?, hj]; rfl⟩

theorem EndsChain.mono {m : Nat} (h : EndsChain n k) (hm : m ≤ n) : EndsChain m k :=
  ⟨h.call, h.increment, fun i hi => h.join i (Nat.lt_of_lt_of_le hi hm)⟩

theorem Assigns.endsChain {op : AssignOp} (h : Assigns k op) : EndsChain n k := by
  cases h <;> exact .of_no_joiner nofun rfl rfl

theorem endsChain_of_question (h : k = .question) : EndsChain n k := by
  subst h
  exact .of_no_joiner nofun rfl rfl

theorem endsChain_of_expression (h : endsExpression k = true) : EndsChain n k := by
  cases k <;> cases h <;> exact .of_no_joiner nofun rfl rfl

/-- What joins at a level does not join at a tighter one. -/
theorem Joins.endsChain {j : Joiner} (h : Joins n k j) : EndsChain n k := by
  refine ⟨?_, ?_, fun m hm => ?_⟩
  · rintro rfl
    cases h
  · cases h <;> rfl
  · obtain ⟨hj, hn⟩ := Option.filter_eq_some_iff.1 (joins_iff.1 h)
    rw [decide_eq_true_eq] at hn
    rw [joinerAt?, hj, Option.filter_some, if_neg]
    simp only [hn, decide_eq_true_eq]
    omega

theorem Assigns.not_question {op : AssignOp} (h : Assigns k op) : k ≠ .question := by
  rintro rfl
  cases h

theorem not_question_of_expression (h : endsExpression k = true) : k ≠ .question := by
  rintro rfl
  cases h

theorem not_assign_of_expression (h : endsExpression k = true) : assignOp? k = none := by
  cases k <;> first | rfl | cases h

theorem not_ends_of_opens (h : opensExpression k = true) : endsExpression k = false := by
  cases k <;> first | rfl | cases h

theorem endsStatement_of_opens (h : opensBlockStatement k = true) : endsStatement k = true := by
  cases k <;> first | rfl | cases h

theorem not_endsGroup_of_opens (h : opensBlockStatement k = true) : endsGroup k = false := by
  cases k <;> first | rfl | cases h

theorem not_endsBlock_of_opens (h : opensBlockStatement k = true) : endsBlock k = false := by
  cases k <;> first | rfl | cases h

theorem endsStatement_of_endsGroup (h : endsGroup k = true) : endsStatement k = true := by
  cases k <;> first | rfl | cases h

theorem endsStatement_of_endsBlock (h : endsBlock k = true) : endsStatement k = true := by
  cases k <;> first | rfl | cases h

/-- What ends every statement ends this one. -/
theorem Follows.of_ends {s : Stmt} (h : endsStatement k = true) : Follows s k := by
  simp only [endsStatement, Bool.and_eq_true, decide_eq_true_eq] at h
  exact ⟨h.1.2, h.2, fun _ => h.1.1⟩

end Kinds

variable {ts : List Token} {k : Kind} {t : Token} {e : Expr} {decls : List Stmt}

/-- Before an expression no token stands that would end it. -/
theorem Opens.not_next (h : Opens ts) (hk : endsExpression k = true) (rest : List Token) :
    nextKind (ts ++ rest) ≠ k := by
  intro heq
  have hopens := h.next rest
  rw [heq] at hopens
  exact absurd hk (by rw [not_ends_of_opens hopens]; decide)

/-- A dotted name is read to its end. -/
theorem Qualified.complete {text text' : String} (h : Qualified text ts text') (rest : List Token)
    (hrest : nextKind rest ≠ .dot) :
    (qualified text (ts ++ rest)).value = text' ∧ (qualified text (ts ++ rest)).rest = rest := by
  induction h with
  | nil => exact qualified_of_not_dot hrest
  | cons hdot hname _ ih =>
    simp only [List.cons_append]
    rw [qualified.eq_def]
    simp only [hdot, hname, and_self, if_true]
    exact ih

theorem TypeName.complete {ts : List Token} {name : Name} (h : TypeName ts name)
    (rest : List Token) (hrest : nextKind rest ≠ .dot) :
    Yields (typeName (ts ++ rest)) name rest := by
  cases h with
  | primitive hprim => exact yields_typeName.2 (.inl ⟨primitive_iff.1 hprim, rfl, rfl⟩)
  | named hname hqualified =>
    obtain ⟨hvalue, hbehind⟩ := hqualified.complete rest hrest
    rw [List.cons_append]
    exact yields_typeName.2 (.inr ⟨hname, by rw [hvalue], hbehind.symm⟩)

def StartsBare (ts : List Token) : Prop :=
  ∃ t us, ts = t :: us ∧ incrementOp? t.kind = none ∧ unaryOp? t.kind = none

theorem Denotes.bare {d : Decoded} {form : LiteralForm} (h : Denotes k d form) :
    incrementOp? k = none ∧ unaryOp? k = none := by
  cases h <;> exact ⟨rfl, rfl⟩

/-- An operand starts with no operator. -/
theorem Primary.bare (h : Primary ts e) : StartsBare ts := by
  cases h with
  | literal hform => exact ⟨_, _, rfl, hform.bare⟩
  | var ht => exact ⟨_, _, rfl, by rw [ht]; exact ⟨rfl, rfl⟩⟩
  | new ht => exact ⟨_, _, rfl, by rw [ht]; exact ⟨rfl, rfl⟩⟩
  | call ht => exact ⟨_, _, rfl, by rw [ht]; exact ⟨rfl, rfl⟩⟩
  | group hl => exact ⟨_, _, rfl, by rw [hl]; exact ⟨rfl, rfl⟩⟩

theorem Target.bare {name : Name} (h : Target ts name) : StartsBare ts := by
  cases h with
  | var ht => exact ⟨_, _, rfl, by rw [ht]; exact ⟨rfl, rfl⟩⟩
  | group hl => exact ⟨_, _, rfl, by rw [hl]; exact ⟨rfl, rfl⟩⟩

theorem Prefixes.not_increment {op : UnaryOp} (h : Prefixes k op) : incrementOp? k = none := by
  cases h <;> rfl

theorem Increments.not_call {op : IncrementOp} (h : Increments k op) : k ≠ .leftParen := by
  rintro rfl
  cases h

/-- Operators before an operand are read as its grammar has them: a minus is part of a number only
where the number is next. -/
theorem negativeLiteral_none {u : Token} (h : t.kind = .minus → ¬Numeric u.kind) :
    negativeLiteral? t u = none := by
  rw [negativeLiteral?, if_neg]
  rintro ⟨ht, hu⟩
  exact h ht (numeric_iff.2 hu)

section Operands

variable {rest rest' : List Token} {e' : Expr}

/-- An operand that starts with no operator is read by way of its primary. -/
theorem StartsBare.unary (h : StartsBare ts) (hread : Yields (primary (ts ++ rest)) e rest)
    (hmore : Yields (increments e rest) e' rest') : Yields (unary (ts ++ rest)) e' rest' := by
  obtain ⟨t, us, rfl, hinc, hop⟩ := h
  exact (yields_unary_primary hinc hop).2 ⟨e, rest, hread, hmore⟩

theorem increments_none (h : incrementOp? (nextKind rest) = none) :
    Yields (increments e rest) e rest :=
  yields_increments.2 (.inl ⟨h, rfl, rfl⟩)

/-- A single operand is a chain of every level. -/
theorem chain_of_unary {n : Nat} (h : Yields (unary ts) e rest)
    (hrest : EndsChain n (nextKind rest)) : Yields (chain n ts) e rest := by
  induction n with
  | zero => exact yields_chain_zero.2 h
  | succ n ih =>
    have hend := hrest.join n (Nat.lt_succ_self n)
    exact yields_chain_succ.2
      ⟨e, rest, ih (hrest.mono (Nat.le_succ n)), yields_links.2 (.inl ⟨hend, rfl, rfl⟩)⟩

theorem conditional_of_unary (h : Yields (unary ts) e rest)
    (hrest : EndsChain 10 (nextKind rest)) (hquestion : nextKind rest ≠ .question) :
    Yields (conditional ts) e rest :=
  yields_conditional.2 (.inl ⟨chain_of_unary h hrest, hquestion⟩)

/-- Where an expression ends, a single operand is one. -/
theorem expression_of_unary (h : Yields (unary ts) e rest)
    (hrest : endsExpression (nextKind rest) = true) : Yields (expression ts) e rest :=
  yields_expression.2 (.inl ⟨conditional_of_unary h (endsChain_of_expression hrest)
    (not_question_of_expression hrest), not_assign_of_expression hrest⟩)

end Operands

/-- A target is read as an operand that names its variable. -/
theorem Target.complete {name : Name} (h : Target ts name) :
    ∃ e, e.target? = some name ∧
      ∀ rest, nextKind rest ≠ .leftParen → Yields (primary (ts ++ rest)) e rest := by
  induction h with
  | @var t ht =>
    exact ⟨.var ⟨t.lexeme, t.line⟩, rfl, fun rest hrest =>
      (yields_primary_name ht).2 (.inl ⟨hrest, rfl, rfl⟩)⟩
  | @group l r us name hl htarget hr ih =>
    obtain ⟨e, hname, hread⟩ := ih
    refine ⟨.group e, hname, fun rest _ => ?_⟩
    have hends : endsExpression (nextKind (r :: rest)) = true := by
      rw [nextKind_cons, hr]
      rfl
    have hinner := hread (r :: rest) (by rw [nextKind_cons, hr]; decide)
    have hunary := htarget.bare.unary hinner
      (increments_none (endsChain_of_expression (n := 0) hends).increment)
    rw [List.append_assoc]
    exact (yields_primary_group hl).2 ⟨e, r, expression_of_unary hunary hends, hr, rfl⟩

theorem Target.unary {name : Name} (h : Target ts name) :
    ∃ e, e.target? = some name ∧
      ∀ rest, EndsChain 0 (nextKind rest) → Yields (Parser.unary (ts ++ rest)) e rest := by
  obtain ⟨e, hname, hread⟩ := h.complete
  exact ⟨e, hname, fun rest hrest =>
    h.bare.unary (hread rest hrest.call) (increments_none hrest.increment)⟩

/-- Behind `e` the parser reads `e'`, by operators of level `n - 1` and their operands. -/
def Extends (n : Nat) (e : Expr) (rest : List Token) (e' : Expr) (rest' : List Token) : Prop :=
  match n with
  | 0 => e' = e ∧ rest' = rest
  | n + 1 => Yields (links n e rest) e' rest'

/-- Where the chain ends nothing is added. -/
theorem Extends.of_ends {n : Nat} {rest : List Token} (h : EndsChain n (nextKind rest)) :
    Extends n e rest e rest := by
  cases n with
  | zero => exact ⟨rfl, rfl⟩
  | succ n => exact yields_links.2 (.inl ⟨h.join n (Nat.lt_succ_self n), rfl, rfl⟩)

mutual

theorem Primary.complete : ∀ {ts e}, Primary ts e → ∀ rest, nextKind rest ≠ .leftParen →
    Yields (primary (ts ++ rest)) e rest
  | _, _, .literal hform, _, _ => (yields_primary_literal (denotes_iff.1 hform)).2 ⟨rfl, rfl⟩
  | _, _, .var ht, _, hrest => (yields_primary_name ht).2 (.inl ⟨hrest, rfl, rfl⟩)
  | _, _, @Primary.new _ _ _ l r ht htype hl hr, rest, _ => by
    rw [List.append_assoc]
    have htype := htype.complete (l :: r :: rest) (by rw [nextKind_cons, hl]; decide)
    exact (yields_primary_new ht).2 ⟨_, l, r, htype, hl, hr, rfl⟩
  | _, _, @Primary.call _ l _ _ _ ht hl hargs hr, _, _ => by
    rw [List.append_assoc]
    exact (yields_primary_name ht).2 (.inr ⟨l, _, _, rfl, hl, hargs.complete hr, rfl⟩)
  | _, _, @Primary.group _ _ _ r hl hinner hr, rest, _ => by
    rw [List.append_assoc]
    have hinner := hinner.complete (r :: rest) (by rw [nextKind_cons, hr]; rfl)
    exact (yields_primary_group hl).2 ⟨_, r, hinner, hr, rfl⟩

theorem Arguments.complete : ∀ {ts args}, Arguments ts args → ∀ {r rest}, r.kind = .rightParen →
    Yields (arguments (ts ++ r :: rest)) args rest
  | _, _, .none, r, _, hr => yields_arguments.2 (.inl ⟨r, rfl, hr, rfl⟩)
  | _, _, .some hes, _, _, hr =>
    yields_arguments.2 (.inr ⟨hes.opens.not_next rfl _, hes.completeTo hr⟩)

theorem Expressions.completeTo : ∀ {ts es}, Expressions ts es → ∀ {r rest},
    r.kind = .rightParen → Yields (expressionsTo (ts ++ r :: rest)) es rest
  | _, _, .one he, r, rest, hr => by
    have he := he.complete (r :: rest) (by rw [nextKind_cons, hr]; rfl)
    exact yields_expressionsTo.2 (.inl ⟨_, r, he, hr, rfl⟩)
  | _, _, @Expressions.more _ _ comma us _ he hcomma hmore, r, rest, hr => by
    rw [List.append_assoc]
    have he := he.complete (comma :: us ++ r :: rest) (by
      rw [List.cons_append, nextKind_cons, hcomma]; rfl)
    exact yields_expressionsTo.2 (.inr ⟨_, comma, _, _, he, hcomma, hmore.completeTo hr, rfl⟩)

/-- Operands are read whole, with the operators around them. -/
theorem Unary.complete : ∀ {ts e}, Unary ts e → ∀ rest, EndsChain 0 (nextKind rest) →
    Yields (unary (ts ++ rest)) e rest
  | _, _, .operand (.primary h), rest, hrest =>
    h.bare.unary (h.complete rest hrest.call) (increments_none hrest.increment)
  | _, _, .operand (@Postfix.increment _ name t op htarget hop), rest, hrest => by
    obtain ⟨left, hname, hread⟩ := htarget.complete
    rw [List.append_assoc]
    exact htarget.bare.unary (hread (t :: rest) hop.not_call) (yields_increments.2
      (.inr ⟨t, rest, op, name, rfl, increments_iff.1 hop, hname, increments_none hrest.increment⟩))
  | _, _, .increment hop htarget, rest, hrest => by
    obtain ⟨operand, hname, hread⟩ := htarget.unary
    exact (yields_unary_increment (increments_iff.1 hop)).2 ⟨operand, _, hread rest hrest, hname, rfl⟩
  | _, _, @Unary.negative t u form ht hu hform, _, _ => by
    have hop : unaryOp? t.kind = some .neg := by rw [ht]; rfl
    have hinc : incrementOp? t.kind = none := by rw [ht]; rfl
    refine (yields_unary_operator hinc hop).2 (.inl ⟨?_, rfl⟩)
    simp [negativeLiteral?, ht, numeric_iff.1 hu, denotes_iff.1 hform]
  | _, _, .operator hop h hminus, rest, hrest => by
    have hread := h.complete rest hrest
    obtain ⟨u, us, rfl, _⟩ := h.opens
    exact (yields_unary_operator hop.not_increment (prefixes_iff.1 hop)).2
      (.inr ⟨negativeLiteral_none fun ht => hminus ht u rfl, _, hread, rfl⟩)

/-- Whatever follows a chain on its level is read together with it: the parser starts at the first
operand and goes on to the right. -/
theorem Chain.extend : ∀ {n ts e}, Chain n ts e → ∀ {rest e' rest'},
    EndsChain (n - 1) (nextKind rest) → Extends n e rest e' rest' →
    Yields (chain n (ts ++ rest)) e' rest'
  | _, _, _, .operand h, rest, _, _, hrest, ⟨rfl, rfl⟩ => yields_chain_zero.2 (h.complete rest hrest)
  | _, _, _, @Chain.up n _ e h, rest, _, _, hrest, hmore =>
    yields_chain_succ.2 ⟨e, rest, h.extend (hrest.mono (Nat.sub_le n 1)) (.of_ends hrest), hmore⟩
  | _, _, _, @Chain.join n _ _ t j us right hleft hj hright, rest, _, _, hrest, hmore => by
    rw [List.append_assoc]
    have hright := hright.extend (hrest.mono (Nat.sub_le n 1)) (.of_ends hrest)
    exact hleft.extend hj.endsChain (yields_links.2
      (.inr ⟨t, us ++ rest, j, right, rest, rfl, joins_iff.1 hj, hright, hmore⟩))

/-- The part behind the question mark ends at the colon, and the last part where the whole ends. -/
theorem Conditional.complete : ∀ {ts e}, Conditional ts e → ∀ rest,
    EndsChain 10 (nextKind rest) → nextKind rest ≠ .question →
    Yields (conditional (ts ++ rest)) e rest
  | _, _, .chain h, _, hrest, hquestion =>
    yields_conditional.2 (.inl ⟨h.extend (hrest.mono (by decide)) (.of_ends hrest), hquestion⟩)
  | _, _, @Conditional.choice _ c q us a colon vs b hcond hq hthen hcolon helse, rest, hrest,
      hquestion => by
    rw [List.append_assoc, List.append_assoc]
    have hends : ∀ n, EndsChain n (nextKind (q :: us ++ (colon :: vs ++ rest))) :=
      fun n => endsChain_of_question hq
    have hcond := hcond.extend (hends 9) (.of_ends (hends 10))
    have hthen := hthen.complete (colon :: vs ++ rest) (by
      rw [List.cons_append, nextKind_cons, hcolon]; rfl)
    exact yields_conditional.2 (.inr ⟨c, q, _, a, colon, _, b, hcond, hq, hthen, hcolon,
      helse.complete rest hrest hquestion, rfl⟩)

/-- An expression is read whole before whatever ends one. -/
theorem Expression.complete : ∀ {ts e}, Expression ts e → ∀ rest,
    endsExpression (nextKind rest) = true → Yields (expression (ts ++ rest)) e rest
  | _, _, .conditional h, rest, hrest => by
    have h := h.complete rest (endsChain_of_expression hrest) (not_question_of_expression hrest)
    exact yields_expression.2 (.inl ⟨h, not_assign_of_expression hrest⟩)
  | _, _, @Expression.assign _ name t op vs value htarget hop hvalue, rest, hrest => by
    obtain ⟨left, hname, hread⟩ := htarget.unary
    rw [List.append_assoc]
    have hleft := conditional_of_unary (hread (t :: vs ++ rest) hop.endsChain) hop.endsChain
      hop.not_question
    exact yields_expression.2 (.inr ⟨left, t, _, op, value, name, hleft, assigns_iff.1 hop,
      hvalue.complete rest hrest, hname, rfl⟩)

end

theorem Expression.before (h : Expression ts e) (ht : endsExpression t.kind = true)
    (rest : List Token) : Yields (expression (ts ++ t :: rest)) e (t :: rest) :=
  h.complete (t :: rest) ht

theorem Parenthesized.complete (h : Parenthesized ts e) (rest : List Token) :
    Yields (parenthesized (ts ++ rest)) e rest := by
  cases h with
  | @mk l us _ r hl he hr =>
    rw [List.append_assoc]
    exact yields_parenthesized.2 ⟨l, _, r, rfl, hl, he.before (by rw [hr]; rfl) rest, hr⟩

mutual

theorem Expressions.complete : ∀ {ts es}, Expressions ts es → ∀ {t}, endsExpression t.kind = true →
    t.kind ≠ .comma → ∀ rest, Yields (expressions (ts ++ t :: rest)) es (t :: rest)
  | _, _, .one he, _, ht, hcomma, rest =>
    yields_expressions.2 (.inl ⟨_, he.before ht rest, hcomma, rfl⟩)
  | _, _, @Expressions.more _ e c vs es he hc hmore, t, ht, hcomma, rest => by
    rw [List.append_assoc]
    have he := he.before (by rw [hc]; rfl) (vs ++ t :: rest)
    exact yields_expressions.2 (.inr ⟨e, c, _, es, he, hc, hmore.complete ht hcomma rest, rfl⟩)

theorem Arguments.update : ∀ {ts es}, Arguments ts es → ∀ {t}, t.kind = .rightParen → ∀ rest,
    Yields (forUpdate (ts ++ t :: rest)) es (t :: rest)
  | _, _, .none, _, ht, _ => yields_forUpdate.2 (.inl ⟨ht, rfl, rfl⟩)
  | _, _, .some hes, _, ht, rest => yields_forUpdate.2 (.inr ⟨hes.opens.not_next rfl _,
      hes.complete (by rw [ht]; rfl) (by rw [ht]; decide) rest⟩)

end

/-- What may be missing is read or left out, by the token behind it. -/
theorem Maybe.complete {value : Option Expr} (h : Maybe ts value)
    (ht : endsExpression t.kind = true) (rest : List Token) :
    Yields (expressionUnless t.kind (ts ++ t :: rest)) value (t :: rest) := by
  cases h with
  | absent => exact yields_expressionUnless.2 (.inl ⟨rfl, rfl, rfl⟩)
  | present he =>
    exact yields_expressionUnless.2 (.inr ⟨he.opens.not_next ht _, _, he.before ht rest, rfl⟩)

theorem Initializer.complete {init : Option Expr} (h : Initializer ts init)
    (ht : endsExpression t.kind = true) (rest : List Token) :
    Yields (initializer (ts ++ t :: rest)) init (t :: rest) := by
  cases h with
  | absent =>
    refine yields_initializer.2 (.inl ⟨fun hassign => ?_, rfl, rfl⟩)
    rw [List.nil_append, nextKind_cons] at hassign
    rw [hassign] at ht
    cases ht
  | present hassign he =>
    exact yields_initializer.2 (.inr ⟨_, _, _, rfl, hassign, he.before ht rest, rfl⟩)

/-- Declarators are read up to the semicolon. -/
theorem Declarators.complete {type : Name} (h : Declarators type ts decls) (ht : t.kind = .semi)
    (rest : List Token) : Yields (declarators type (ts ++ t :: rest)) decls (t :: rest) := by
  induction h with
  | @one v is init hv hinit =>
    have hinit := hinit.complete (t := t) (by rw [ht]; rfl) rest
    exact yields_declarators.2 ⟨v, _, init, _, rfl, hv, hinit,
      .inl ⟨by rw [nextKind_cons, ht]; decide, rfl, rfl⟩⟩
  | @more v is init c us decls hv hinit hc _ ih =>
    rw [List.append_assoc]
    have hinit := hinit.complete (t := c) (by rw [hc]; rfl) (us ++ t :: rest)
    exact yields_declarators.2 ⟨v, _, init, _, rfl, hv, hinit,
      .inr ⟨c, _, decls, rfl, hc, ih, rfl⟩⟩

theorem Declarators.opens {type : Name} (h : Declarators type ts decls) :
    ∃ t us, ts = t :: us ∧ t.kind = .identifier := by
  cases h with
  | one ht => exact ⟨_, _, rfl, ht⟩
  | more ht => exact ⟨_, _, rfl, ht⟩

theorem Declaration.complete {ts : List Token} {decls : List Stmt} {t : Token}
    (h : Declaration ts decls) (ht : t.kind = .semi) (rest : List Token) :
    Yields (localVariables (ts ++ t :: rest)) decls (t :: rest) := by
  cases h with
  | mk htype hdecls =>
    obtain ⟨v, vs, rfl, hv⟩ := hdecls.opens
    rw [List.append_assoc]
    have htype := htype.complete (v :: vs ++ t :: rest) (by
      rw [List.cons_append, nextKind_cons, hv]; decide)
    exact yields_localVariables.2 ⟨_, _, htype, hdecls.complete ht rest⟩

/-- A declaration is told from a statement by the name behind its type. -/
theorem Declaration.declares (h : Declaration ts decls) (rest : List Token) :
    startsDeclaration (ts ++ rest) = true := by
  cases h with
  | mk htype hdecls =>
    obtain ⟨v, vs, rfl, hv⟩ := hdecls.opens
    rw [List.append_assoc]
    cases htype with
    | primitive hprim => simp [startsDeclaration, primitive_iff.1 hprim]
    | named hname hqualified =>
      have hbehind := (hqualified.complete (v :: vs ++ rest) (by
        rw [List.cons_append, nextKind_cons, hv]; decide)).2
      rw [List.cons_append, startsDeclaration, hbehind, List.cons_append,
        (nextIs_eq .identifier (v :: (vs ++ rest))).2 hv]
      simp [hname]

/-- A declaration is never empty. -/
theorem Declaration.not_semi (h : Declaration ts decls) (rest : List Token) :
    nextKind (ts ++ rest) ≠ .semi := by
  cases h with
  | mk htype _ =>
    obtain ⟨t, us, rfl, ht⟩ := htype.opens
    intro hsemi
    rw [List.append_assoc, List.cons_append, nextKind_cons] at hsemi
    rw [hsemi] at ht
    rcases ht with ht | ht <;> cases ht

theorem ForInit.complete {ts : List Token} {init : List Stmt} {t : Token} (h : ForInit ts init)
    (ht : t.kind = .semi) (rest : List Token) :
    Yields (forInit (ts ++ t :: rest)) init (t :: rest) := by
  have hends : endsExpression t.kind = true := by rw [ht]; rfl
  cases h with
  | none => exact yields_forInit.2 (.inl ⟨ht, rfl, rfl⟩)
  | declaration hdecls =>
    exact yields_forInit.2
      (.inr (.inl ⟨hdecls.not_semi _, hdecls.declares _, hdecls.complete ht rest⟩))
  | expressions hes =>
    exact yields_forInit.2 (.inr (.inr ⟨hes.opens.not_next rfl _,
      hes.opens.not_declares (by rw [ht]; rfl), _,
      hes.complete hends (by rw [ht]; decide) rest, rfl⟩))

theorem ForHeader.complete {ts : List Token} {init : List Stmt} {cond : Option Expr}
    {update : List Expr} (h : ForHeader ts init cond update) (rest : List Token) :
    Yields (forHeader (ts ++ rest)) (init, cond, update) rest := by
  cases h with
  | @mk l is _ s₁ cs _ s₂ us _ r hl hinit hs₁ hcond hs₂ hupdate hr =>
    have hcond := hcond.complete (t := s₂) (by rw [hs₂]; rfl) (us ++ r :: rest)
    rw [hs₂] at hcond
    have hsplit : (l :: is ++ s₁ :: cs ++ s₂ :: us ++ [r]) ++ rest =
        l :: (is ++ s₁ :: (cs ++ s₂ :: (us ++ r :: rest))) := by simp
    rw [hsplit]
    exact yields_forHeader.2 ⟨l, _, s₁, _, s₂, _, r, rfl, hl, hinit.complete hs₁ _, hs₁, hcond, hs₂,
      hupdate.update hr rest, hr⟩

theorem CaseLabel.complete {label : Option Expr} (h : CaseLabel ts label) (rest : List Token) :
    Yields (caseLabel (ts ++ rest)) label rest := by
  cases h with
  | default ht hcolon => exact (yields_caseLabel_default ht).2 ⟨_, rfl, hcolon, rfl⟩
  | case ht he hcolon =>
    rw [List.append_assoc]
    exact (yields_caseLabel_case ht).2 ⟨_, _, he.before (by rw [hcolon]; rfl) rest, hcolon, rfl⟩

/-- Labels are read as long as labels follow. -/
theorem CaseLabels.complete {ts rest : List Token} {labels : List (Option Expr)}
    (h : CaseLabels ts labels) (hcase : nextKind rest ≠ .kwCase)
    (hdefault : nextKind rest ≠ .kwDefault) : Yields (groupLabels (ts ++ rest)) labels rest := by
  induction h with
  | one hlabel =>
    exact yields_groupLabels.2 ⟨_, rest, [], hlabel.complete rest,
      yields_caseLabels.2 (.inl ⟨hcase, hdefault, rfl, rfl⟩), rfl⟩
  | more hlabel _ ih =>
    rw [List.append_assoc]
    obtain ⟨next, us, more, hnext, hmore, rfl⟩ := yields_groupLabels.1 ih
    exact yields_groupLabels.2 ⟨_, _, _, hlabel.complete _,
      yields_caseLabels.2 (.inr ⟨next, us, more, hnext, hmore, rfl⟩), rfl⟩

theorem CaseLabels.opens {labels : List (Option Expr)} (h : CaseLabels ts labels) :
    ∃ t us, ts = t :: us ∧ (t.kind = .kwCase ∨ t.kind = .kwDefault) := by
  have hlabel : ∀ {us label}, CaseLabel us label →
      ∃ t vs, us = t :: vs ∧ (t.kind = .kwCase ∨ t.kind = .kwDefault) := by
    intro us label h
    cases h with
    | default ht => exact ⟨_, _, rfl, .inr ht⟩
    | case ht => exact ⟨_, _, rfl, .inl ht⟩
  cases h with
  | one h => exact hlabel h
  | more h _ =>
    obtain ⟨t, us, rfl, ht⟩ := hlabel h
    exact ⟨t, _, rfl, ht⟩

theorem CatchHeader.complete {ts : List Token} {type name : Name} (h : CatchHeader ts type name)
    (rest : List Token) : Yields (catchHeader (ts ++ rest)) (type, name) rest := by
  cases h with
  | @mk l us _ t r hl htype ht hr =>
    rw [List.append_assoc]
    have htype := htype.complete (t :: r :: rest) (by rw [nextKind_cons, ht]; decide)
    exact yields_catchHeader.2 ⟨l, _, t, r, rfl, hl, htype, ht, hr, rfl⟩

theorem Statements.opens {ts : List Token} {ss : List Stmt} (h : Statements ts ss) :
    ts = [] ∧ ss = [] ∨ ∃ t us, ts = t :: us ∧ opensBlockStatement t.kind = true := by
  cases h with
  | nil => exact .inl ⟨rfl, rfl⟩
  | cons h _ =>
    obtain ⟨t, us, rfl, ht⟩ := h.opens
    exact .inr ⟨t, _, rfl, ht⟩

/-- Groups start with a label. -/
theorem Groups.opens {ts : List Token} {groups : List SwitchGroup} (h : Groups ts groups) :
    ts = [] ∨ ∃ t us, ts = t :: us ∧ (t.kind = .kwCase ∨ t.kind = .kwDefault) := by
  cases h with
  | nil => exact .inl rfl
  | cons hlabels =>
    obtain ⟨t, us, rfl, ht⟩ := hlabels.opens
    exact .inr ⟨t, _, rfl, ht⟩

/-- Behind the statements of a group stands another group or the end of the switch. -/
theorem Groups.endsGroup {ts : List Token} {groups : List SwitchGroup} {r : Token}
    (h : Groups ts groups) (hr : r.kind = .rightCurly) (rest : List Token) :
    Parser.endsGroup (nextKind (ts ++ r :: rest)) = true := by
  rcases h.opens with rfl | ⟨t, us, rfl, ht | ht⟩
  · rw [List.nil_append, nextKind_cons, hr]
    rfl
  · rw [List.cons_append, nextKind_cons, ht]
    rfl
  · rw [List.cons_append, nextKind_cons, ht]
    rfl

/-- Behind the labels of a group stands no other label: the group has statements, or it is the
last one. -/
theorem Groups.behind_labels {gs : List Token} {body : List Stmt} {groups : List SwitchGroup}
    {r : Token} (hbody : Statements ts body) (hgroups : Groups gs groups)
    (hlast : body = [] → groups = []) (hr : r.kind = .rightCurly) (rest : List Token) :
    nextKind (ts ++ (gs ++ r :: rest)) ≠ .kwCase ∧
      nextKind (ts ++ (gs ++ r :: rest)) ≠ .kwDefault := by
  rcases hbody.opens with ⟨rfl, hnil⟩ | ⟨t, us, rfl, ht⟩
  · cases hlast hnil
    cases hgroups
    rw [List.nil_append, List.nil_append, nextKind_cons, hr]
    exact ⟨nofun, nofun⟩
  · rw [List.cons_append, nextKind_cons]
    constructor <;> (intro hk; rw [hk] at ht; cases ht)

theorem endsBlock_next {r : Token} (hr : r.kind = .rightCurly) (rest : List Token) :
    endsBlock (nextKind (r :: rest)) = true := by
  rw [nextKind_cons, hr]
  rfl

mutual

theorem BlockStatement.complete : ∀ {ts ss}, BlockStatement ts ss → ∀ rest,
    endsStatement (nextKind rest) = true → Yields (blockStatement (ts ++ rest)) ss rest
  | _, _, @BlockStatement.declaration _ _ semi hdecls hsemi, rest, _ => by
    rw [List.append_assoc]
    exact yields_blockStatement.2
      (.inl ⟨hdecls.declares _, semi, hdecls.complete hsemi rest, hsemi⟩)
  | _, _, .statement h, rest, hrest =>
    yields_blockStatement.2 (.inr ⟨h.not_declares rest, _, h.complete rest (.of_ends hrest), rfl⟩)

/-- Statements are read up to a kind that stops them, and none of them starts with such a kind. -/
theorem Statements.complete : ∀ {ts ss}, Statements ts ss → ∀ {stop : Kind → Bool} {rest},
    (∀ {k}, opensBlockStatement k = true → stop k = false) →
    (∀ {k}, stop k = true → endsStatement k = true) → stop (nextKind rest) = true →
    Yields (statements stop (ts ++ rest)) ss rest
  | _, _, .nil, _, _, _, _, hrest => yields_statements.2 (.inl ⟨hrest, rfl, rfl⟩)
  | _, _, @Statements.cons _ ss₁ vs ss₂ hfirst hmore, _, rest, hopens, hends, hrest => by
    rw [List.append_assoc]
    have hnext : endsStatement (nextKind (vs ++ rest)) = true := by
      rcases hmore.opens with ⟨rfl, _⟩ | ⟨v, vs, rfl, hv⟩
      · exact hends hrest
      · exact endsStatement_of_opens hv
    have hread := hfirst.complete (vs ++ rest) hnext
    have hrest := hmore.complete hopens hends hrest
    obtain ⟨t, us, rfl, ht⟩ := hfirst.opens
    exact yields_statements.2 (.inr ⟨hopens ht, ss₁, vs ++ rest, ss₂, hread, hrest, rfl⟩)

theorem Block.complete : ∀ {ts body}, Block ts body → ∀ rest,
    Yields (Parser.block (ts ++ rest)) body rest
  | _, _, @Block.mk l _ _ r hl hbody hr, rest => by
    rw [List.append_assoc]
    have hbody := hbody.complete not_endsBlock_of_opens endsStatement_of_endsBlock
      (endsBlock_next hr rest)
    exact yields_block.2 ⟨l, _, rfl, hl, yields_blockRest.2 ⟨r, hbody, hr⟩⟩

theorem Groups.complete : ∀ {ts groups}, Groups ts groups → ∀ {r}, r.kind = .rightCurly → ∀ rest,
    Yields (switchGroups (ts ++ r :: rest)) groups rest
  | _, _, .nil, r, hr, _ => yields_switchGroups.2 (.inl ⟨r, rfl, hr, rfl⟩)
  | _, _, @Groups.cons _ labels _ body gs groups hlabels hbody hgroups hlast, r, hr, rest => by
    obtain ⟨hcase, hdefault⟩ := Groups.behind_labels hbody hgroups hlast hr rest
    have hread := hlabels.complete hcase hdefault
    have hbody := hbody.complete not_endsGroup_of_opens endsStatement_of_endsGroup
      (hgroups.endsGroup hr rest)
    have hgroups := hgroups.complete hr rest
    obtain ⟨t, ls, rfl, ht⟩ := hlabels.opens
    rw [List.append_assoc, List.append_assoc]
    have hgo : endsBlock t.kind = false := by
      rcases ht with ht | ht <;> rw [ht] <;> rfl
    exact yields_switchGroups.2
      (.inr ⟨labels, _, body, gs ++ r :: rest, groups, hgo, hread, hbody, hgroups, rfl⟩)

/-- Clauses are read as long as `catch` follows. -/
theorem Catches.complete : ∀ {ts catches}, Catches ts catches → ∀ {rest},
    nextKind rest ≠ .kwCatch → Yields (catchClauses (ts ++ rest)) catches rest
  | _, _, .nil, _, hrest => yields_catchClauses.2 (.inl ⟨hrest, rfl, rfl⟩)
  | _, _, @Catches.cons t _ type name _ body _ catches ht hheader hbody hmore, _, hrest => by
    rw [List.append_assoc, List.append_assoc]
    exact yields_catchClauses.2 (.inr ⟨t, _, type, name, _, body, _, catches, rfl, ht,
      hheader.complete _, hbody.complete _, hmore.complete hrest, rfl⟩)

/-- A clause is read if `finally` follows. -/
theorem Finally.complete : ∀ {ts cleanup}, Finally ts cleanup → ∀ {rest},
    nextKind rest ≠ .kwFinally → Yields (finallyClause (ts ++ rest)) cleanup rest
  | _, _, .absent, _, hrest => yields_finallyClause.2 (.inl ⟨hrest, rfl, rfl⟩)
  | _, _, .present ht hbody, rest, _ =>
    yields_finallyClause.2 (.inr ⟨_, _, _, rfl, ht, hbody.complete rest, rfl⟩)

/-- A statement is read whole before what may follow it. Of two branches the first one is closed, so
it leaves the else to its if. -/
theorem Statement.complete : ∀ {ts s}, Statement ts s → ∀ rest, Follows s (nextKind rest) →
    Yields (statement (ts ++ rest)) s rest
  | _, _, .block (@Block.mk _ _ _ r hl hbody hr), rest, _ => by
    rw [List.append_assoc]
    have hbody := hbody.complete not_endsBlock_of_opens endsStatement_of_endsBlock
      (endsBlock_next hr rest)
    exact (yields_statement_block hl).2 ⟨_, yields_blockRest.2 ⟨r, hbody, hr⟩, rfl⟩
  | _, _, @Statement.ifThen _ _ cond _ s ht hcond hs, rest, hrest => by
    rw [List.append_assoc]
    have hnext : nextKind rest ≠ .kwElse := hrest.noElse rfl
    exact (yields_statement_if ht).2 ⟨cond, _, s, rest, none, hcond.complete _,
      hs.complete rest ⟨hrest.noCatch, hrest.noFinally, fun _ => hnext⟩,
      yields_elseClause.2 (.inl ⟨hnext, rfl, rfl⟩), rfl⟩
  | _, _, @Statement.ifElse _ _ cond _ s₁ e vs s₂ ht hcond hs₁ hclosed he hs₂, rest, hrest => by
    rw [List.append_assoc, List.append_assoc]
    have hs₁ := hs₁.complete (e :: vs ++ rest) (by
      rw [List.cons_append, nextKind_cons, he]
      exact ⟨nofun, nofun, fun hopen => by rw [hclosed] at hopen; cases hopen⟩)
    have hs₂ := hs₂.complete rest ⟨hrest.noCatch, hrest.noFinally, hrest.noElse⟩
    exact (yields_statement_if ht).2 ⟨cond, _, s₁, _, some s₂, hcond.complete _, hs₁,
      yields_elseClause.2 (.inr ⟨e, _, s₂, rfl, he, hs₂, rfl⟩), rfl⟩
  | _, _, .whileLoop ht hcond hbody, rest, hrest => by
    rw [List.append_assoc]
    have hbody := hbody.complete rest ⟨hrest.noCatch, hrest.noFinally, hrest.noElse⟩
    exact (yields_statement_while ht).2 ⟨_, _, _, hcond.complete _, hbody, rfl⟩
  | _, _, @Statement.doLoop _ _ body w cs cond semi ht hbody hw hcond hsemi, rest, _ => by
    rw [List.append_assoc, List.append_assoc]
    have hbody := hbody.complete (w :: cs ++ ([semi] ++ rest)) (by
      rw [List.cons_append, nextKind_cons, hw]
      exact .of_ends rfl)
    exact (yields_statement_do ht).2
      ⟨body, w, _, cond, semi, hbody, hw, hcond.complete _, hsemi, rfl⟩
  | _, _, .forLoop ht hheader hbody, rest, hrest => by
    rw [List.append_assoc]
    have hbody := hbody.complete rest ⟨hrest.noCatch, hrest.noFinally, hrest.noElse⟩
    exact (yields_statement_for ht).2 ⟨_, _, _, _, _, hheader.complete _, hbody, rfl⟩
  | _, _, @Statement.switch _ _ subject l _ groups _ ht hsubject hl hgroups hr, rest, _ => by
    rw [List.append_assoc, List.append_assoc]
    exact (yields_statement_switch ht).2
      ⟨subject, l, _, groups, hsubject.complete _, hl, hgroups.complete hr rest, rfl⟩
  | _, _, .brk ht hsemi, _, _ => (yields_statement_break ht).2 ⟨_, rfl, hsemi, rfl⟩
  | _, _, .cont ht hsemi, _, _ => (yields_statement_continue ht).2 ⟨_, rfl, hsemi, rfl⟩
  | _, _, @Statement.ret _ _ value semi ht hvalue hsemi, rest, _ => by
    rw [List.append_assoc]
    have hvalue := hvalue.complete (t := semi) (by rw [hsemi]; rfl) rest
    rw [hsemi] at hvalue
    exact (yields_statement_return ht).2 ⟨value, semi, hvalue, hsemi, rfl⟩
  | _, _, .throw ht hvalue hsemi, rest, _ => by
    rw [List.append_assoc]
    exact (yields_statement_throw ht).2
      ⟨_, _, hvalue.before (by rw [hsemi]; rfl) rest, hsemi, rfl⟩
  | _, _, @Statement.tryCatch _ _ body _ catches fs cleanup ht hbody hcatches hcleanup hsome, rest,
      hrest => by
    have hnext : nextKind (fs ++ rest) ≠ .kwCatch := by
      cases hcleanup with
      | absent => exact hrest.noCatch
      | present hf _ =>
        rw [List.cons_append, nextKind_cons, hf]
        nofun
    rw [List.append_assoc, List.append_assoc]
    exact (yields_statement_try ht).2 ⟨body, _, catches, _, cleanup, hbody.complete _,
      hcatches.complete hnext, hcleanup.complete hrest.noFinally, hsome, rfl⟩
  | _, _, .empty ht, _, _ => (yields_statement_empty ht).2 ⟨rfl, rfl⟩
  | _, _, @Statement.expr _ e semi he hsemi, rest, _ => by
    rw [List.append_assoc]
    have hread := he.before (t := semi) (by rw [hsemi]; rfl) rest
    obtain ⟨t, us, rfl, ht, _⟩ := he.opens
    exact (yields_statement_expr (not_opensStatement_of_opensExpression ht)).2
      ⟨e, semi, hread, hsemi, rfl⟩

end

theorem program_eof {eof : Token} (h : eof.kind = .eof) (rest : List Token) :
    program (eof :: rest) = ([], []) := by
  rw [program.eq_def]
  simp [h]

/-- A program is its first statement and the program behind that. -/
theorem program_of_yields {rest : List Token} {ss : List Stmt} (ht : t.kind ≠ .eof)
    (h : Yields (blockStatement (t :: ts)) ss rest) :
    program (t :: ts) = (ss ++ (program rest).1, (program rest).2) := by
  obtain ⟨_, h⟩ := h
  rw [program.eq_def]
  simp only [ht, dite_false, h]

/-- A program without complaints starts with a statement. -/
theorem yields_of_program (ht : t.kind ≠ .eof) (h : (program (t :: ts)).2 = []) :
    ∃ ss rest, Yields (blockStatement (t :: ts)) ss rest := by
  rw [program.eq_def] at h
  simp only [ht, dite_false] at h
  split at h
  · rename_i first rest hless hfirst
    exact ⟨first, rest, hless, hfirst⟩
  · cases h

mutual

/-- Statements are read one by one, and what follows is read as if it stood alone. -/
theorem Statements.program_before : ∀ {ts ss}, Statements ts ss → ∀ {rest},
    endsStatement (nextKind rest) = true →
    Parser.program (ts ++ rest) = (ss ++ (Parser.program rest).1, (Parser.program rest).2)
  | _, _, .nil, _, _ => rfl
  | _, _, @Statements.cons _ ss₁ vs ss₂ hfirst hmore, rest, hrest => by
    have hmore' := hmore.program_before hrest
    have hnext : endsStatement (nextKind (vs ++ rest)) = true := by
      rcases hmore.opens with ⟨rfl, _⟩ | ⟨v, vs, rfl, hv⟩
      · exact hrest
      · exact endsStatement_of_opens hv
    have hread := hfirst.complete _ hnext
    obtain ⟨t, us, rfl, ht⟩ := hfirst.opens
    have hstart : t.kind ≠ .eof := by
      intro heof
      rw [heof] at ht
      cases ht
    rw [List.cons_append] at hread
    rw [List.append_assoc, List.cons_append, program_of_yields hstart hread, hmore',
      List.append_assoc]

/-- Statements are read as the program that they are. -/
theorem Statements.program : ∀ {ts ss}, Statements ts ss → ∀ {eof}, eof.kind = .eof →
    Parser.program (ts ++ [eof]) = (ss, [])
  | _, _, h, _, heof => by
    rw [h.program_before (by rw [nextKind_cons, heof]; rfl), program_eof heof, List.append_nil]

end

/-- What is read without complaint is a list of statements. A statement ends with a semicolon or a
brace, so none takes the token at the end. -/
theorem program_sound {ts : List Token} {ss : List Stmt} {eof : Token} (heof : eof.kind = .eof)
    (hts : ∀ t ∈ ts, t.kind ≠ .eof) (h : program (ts ++ [eof]) = (ss, [])) : Statements ts ss := by
  match ts with
  | [] =>
    rw [List.nil_append, program_eof heof] at h
    cases h
    exact .nil
  | t :: ts =>
    have ht : t.kind ≠ .eof := hts t List.mem_cons_self
    rw [List.cons_append] at h
    obtain ⟨first, rest, hfirst⟩ := yields_of_program ht (by rw [h])
    have hless := hfirst.less
    rw [program_of_yields ht hfirst] at h
    obtain ⟨us, hus, hphrase⟩ := blockStatement_sound hfirst
    obtain ⟨vs, last, rfl, hlast⟩ := hphrase.closes
    -- The rest still has the token at the end.
    have hend : ∃ ws, rest = ws ++ [eof] := by
      rcases List.eq_nil_or_concat rest with rfl | ⟨ws, w, rfl⟩
      · rw [List.append_nil, ← List.cons_append] at hus
        obtain ⟨_, rfl⟩ := List.append_inj' hus rfl |>.imp_right List.singleton_inj.1
        rw [heof] at hlast
        rcases hlast with hlast | hlast <;> cases hlast
      · rw [List.concat_eq_append, ← List.append_assoc, ← List.cons_append] at hus
        obtain ⟨_, rfl⟩ := List.append_inj' hus rfl |>.imp_right List.singleton_inj.1
        exact ⟨ws, List.concat_eq_append⟩
    obtain ⟨ws, rfl⟩ := hend
    have hshorter : ws.length < ts.length + 1 := by simpa using hless
    rw [← List.append_assoc, ← List.cons_append] at hus
    have hsplit : t :: ts = vs ++ [last] ++ ws := List.append_cancel_right hus
    rw [Prod.mk.injEq] at h
    rw [hsplit, ← h.1]
    have hmore : program (ws ++ [eof]) = ((program (ws ++ [eof])).1, []) := Prod.ext rfl h.2
    refine .cons hphrase (program_sound heof (fun w hw => hts w ?_) hmore)
    rw [hsplit]
    exact List.mem_append_right _ hw
termination_by ts.length

/-- The parser accepts exactly its grammar. On tokens that end with their only end of file, it
complains about nothing and yields `ss` if and only if the tokens before that end are statements
`ss`, and then they are no others. -/
theorem program_iff_statements (ts : List Token) (eof : Token) (ss : List Stmt)
    (heof : eof.kind = .eof) (hts : ∀ t ∈ ts, t.kind ≠ .eof) :
    (program (ts ++ [eof]) = (ss, []) ↔ Statements ts ss) ∧
      ∀ ss', Statements ts ss → Statements ts ss' → ss' = ss := by
  refine ⟨⟨program_sound heof hts, fun h => h.program heof⟩, fun ss' h h' => ?_⟩
  have hboth : (ss', []) = (ss, []) := (h'.program heof).symm.trans (h.program heof)
  exact (Prod.mk.inj hboth).1

/-- `if (a) if (a) ; else ;`, token by token. -/
def danglingElse : List Token :=
  [.kwIf, .leftParen, .identifier, .rightParen, .kwIf, .leftParen, .identifier, .rightParen, .semi,
    .kwElse, .semi].map fun k => { kind := k, lexeme := "a", line := 1 }

/-- The else of `danglingElse` belongs to the inner if. -/
theorem program_iff_statements_else :
    program (danglingElse ++ [endOfFile]) =
      ([.ifElse 1 (.var ⟨"a", 1⟩) (.ifElse 1 (.var ⟨"a", 1⟩) .empty (some .empty)) none], []) := by
  refine (program_iff_statements danglingElse endOfFile _ rfl (by decide)).1.2 ?_
  have hcond : Parenthesized ((danglingElse.drop 1).take 3) (.var ⟨"a", 1⟩) :=
    .mk rfl (.conditional (Primary.conditional (.var rfl))) rfl
  have hinner : Statement (danglingElse.drop 4) (.ifElse 1 (.var ⟨"a", 1⟩) .empty (some .empty)) :=
    .ifElse rfl hcond (.empty rfl) rfl rfl (.empty rfl)
  exact .cons (.statement (.ifThen rfl hcond hinner)) .nil

end Jminus.Grammar
