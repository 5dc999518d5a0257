import Jminus.Tree.Parser
import Mathlib

/-!
What each rule of the parser does, in one line each: which rules it calls in which order, and what
it looks at in between. Nothing else opens the rules.
-/
namespace Jminus.Parser

variable {α β : Type} {b b' : Nat}

/-- A rule that succeeds: the value that it read and what is left. -/
def Yields (r : Result α b) (a : α) (rest : List Token) : Prop := ∃ h, r = .ok ⟨a, rest, h⟩

/-- A rule takes a token at least, or else its bound says how many it may leave. -/
theorem Yields.less {r : Result α b} {a : α} {rest : List Token} (h : Yields r a rest) :
    rest.length < b := h.1

theorem Yields.tail_less {r : Result α b} {a : α} {t : Token} {rest : List Token}
    (h : Yields r a (t :: rest)) : rest.length < b := Nat.lt_of_succ_lt h.1

section Peeling

variable {a a' : α} {v : β} {rest rest' : List Token}

variable {h : rest.length < b} {p : Problem} {ts : List Token}

@[simp] theorem yields_ok : Yields (.ok ⟨a, rest, h⟩ : Result α b) a' rest' ↔ a' = a ∧ rest' = rest := by
  constructor
  · rintro ⟨_, h⟩
    cases h
    exact ⟨rfl, rfl⟩
  · rintro ⟨rfl, rfl⟩
    exact ⟨h, rfl⟩

@[simp] theorem yields_pure :
    Yields (pure ⟨a, rest, h⟩ : Result α b) a' rest' ↔ a' = a ∧ rest' = rest := yields_ok

@[simp] theorem not_yields_failAt {t : Token} : ¬ Yields (failAt p t ts : Result α b) a rest := by
  rintro ⟨_, h⟩
  cases h

@[simp] theorem not_yields_failNext :
    ¬ Yields (failNext p ts : Result α b) a rest := not_yields_failAt

/-- Rules in a row: the second reads what the first has left. -/
theorem yields_bind {x : Result α b} {f : Parsed α b → Result β b'} :
    Yields (x >>= f) v rest ↔
      ∃ a ts, ∃ h : Yields x a ts, Yields (f ⟨a, ts, h.less⟩) v rest := by
  constructor
  · rintro ⟨h, heq⟩
    cases hx : x with
    | error e =>
      rw [hx] at heq
      cases heq
    | ok p =>
      obtain ⟨a, ts, hless⟩ := p
      rw [hx] at heq
      exact ⟨a, ts, ⟨hless, rfl⟩, h, heq⟩
  · rintro ⟨a, ts, ⟨hless, rfl⟩, hf⟩
    exact hf

@[simp] theorem yields_map {x : Result α b} {f : Parsed α b → Parsed β b'} :
    Yields (f <$> x) v rest ↔ ∃ a ts, ∃ h : Yields x a ts,
      rest = (f ⟨a, ts, h.less⟩).rest ∧ v = (f ⟨a, ts, h.less⟩).value := by
  rw [map_eq_pure_bind, yields_bind]
  refine exists_congr fun a => exists_congr fun ts => exists_congr fun h => ?_
  exact yields_pure.trans and_comm

end Peeling

abbrev nextKind (ts : List Token) : Kind := (ts.headD endOfFile).kind

@[simp]
theorem nextKind_cons (t : Token) (ts : List Token) : nextKind (t :: ts) = t.kind :=
  rfl

@[simp] theorem nextIs_eq (k : Kind) (ts : List Token) : nextIs k ts = true ↔ nextKind ts = k := by
  simp [nextIs, nextKind]

/-- A token that is expected is taken if it is there. -/
theorem yields_expect {k : Kind} {cause : Cause} {ts rest : List Token} {t : Token} :
    Yields (expect k cause ts) t rest ↔ ts = t :: rest ∧ t.kind = k := by
  cases ts with
  | nil => simp [expect]
  | cons u us =>
    by_cases hu : u.kind = k
    · simp only [expect, hu, if_true, yields_ok, List.cons.injEq]
      constructor
      · rintro ⟨rfl, rfl⟩
        exact ⟨⟨rfl, rfl⟩, hu⟩
      · rintro ⟨⟨rfl, rfl⟩, _⟩
        exact ⟨rfl, rfl⟩
    · simp only [expect, hu, if_false, not_yields_failNext, List.cons.injEq, false_iff]
      rintro ⟨⟨rfl, _⟩, h⟩
      exact hu h

attribute [local simp] yields_bind yields_expect and_assoc

section Expressions

variable {ts rest : List Token} {e : Expr}

/-- An assignment, if an operator of one is behind the first part, or that part alone. -/
theorem yields_expression :
    Yields (expression ts) e rest ↔
      (Yields (conditional ts) e rest ∧ assignOp? (nextKind rest) = none) ∨
      ∃ left t us op value name, Yields (conditional ts) left (t :: us) ∧
        assignOp? t.kind = some op ∧ Yields (expression us) value rest ∧
        left.target? = some name ∧ e = .assign op t.line name value := by
  rw [expression, yields_bind]
  constructor
  · rintro ⟨left, ts₁, h, hrest⟩
    cases ts₁ with
    | nil =>
      obtain ⟨rfl, rfl⟩ := yields_pure.1 hrest
      exact .inl ⟨h, rfl⟩
    | cons t us =>
      simp only at hrest
      cases hop : assignOp? t.kind with
      | none =>
        rw [hop] at hrest
        obtain ⟨rfl, rfl⟩ := yields_pure.1 hrest
        exact .inl ⟨h, hop⟩
      | some op =>
        rw [hop] at hrest
        obtain ⟨value, ts₂, hvalue, hrest⟩ := yields_bind.1 hrest
        cases hname : left.target? with
        | none => simp [hname] at hrest
        | some name =>
          obtain ⟨rfl, rfl⟩ : e = .assign op t.line name value ∧ rest = ts₂ := by
            simpa [hname] using hrest
          exact .inr ⟨left, t, us, op, value, name, h, hop, hvalue, hname, rfl⟩
  · rintro (⟨h, hop⟩ | ⟨left, t, us, op, value, name, h, hop, hvalue, hname, rfl⟩)
    · refine ⟨e, rest, h, ?_⟩
      cases rest <;> simp_all
    · refine ⟨left, t :: us, h, ?_⟩
      simp only [hop]
      exact yields_bind.2 ⟨value, rest, hvalue, by simp [hname]⟩

/-- The middle may be any expression, and the last part may be conditional again. -/
theorem yields_conditional :
    Yields (conditional ts) e rest ↔
      (Yields (chain 10 ts) e rest ∧ nextKind rest ≠ .question) ∨
      ∃ c q us a colon vs b, Yields (chain 10 ts) c (q :: us) ∧ q.kind = .question ∧
        Yields (expression us) a (colon :: vs) ∧ colon.kind = .colon ∧
        Yields (conditional vs) b rest ∧ e = .conditional q.line c a b := by
  rw [conditional, yields_bind]
  constructor
  · rintro ⟨c, ts₁, h, hrest⟩
    cases ts₁ with
    | nil =>
      obtain ⟨rfl, rfl⟩ := yields_pure.1 hrest
      exact .inl ⟨h, by decide⟩
    | cons q us =>
      by_cases hq : q.kind = .question
      · simp only [hq, if_true, yields_bind, yields_expect, yields_pure] at hrest
        obtain ⟨a, _, ha, colon, vs, ⟨rfl, hcolon⟩, b, _, hb, rfl, rfl⟩ := hrest
        exact .inr ⟨c, q, us, a, colon, vs, b, h, hq, ha, hcolon, hb, rfl⟩
      · simp only [hq, if_false, yields_pure] at hrest
        obtain ⟨rfl, rfl⟩ := hrest
        exact .inl ⟨h, hq⟩
  · rintro (⟨h, hq⟩ | ⟨c, q, us, a, colon, vs, b, h, hq, ha, hcolon, hb, rfl⟩)
    · refine ⟨e, rest, h, ?_⟩
      cases rest <;> simp_all
    · refine ⟨c, q :: us, h, ?_⟩
      simp only [hq, if_true, yields_bind, yields_expect, yields_pure]
      exact ⟨a, _, ha, colon, vs, ⟨rfl, hcolon⟩, b, rest, hb, rfl, rfl⟩

theorem yields_chain_zero : Yields (chain 0 ts) e rest ↔ Yields (unary ts) e rest := by
  rw [chain]

variable {n : Nat} {t : Token}

/-- A chain is a tighter one and what is joined to it. -/
theorem yields_chain_succ :
    Yields (chain (n + 1) ts) e rest ↔
      ∃ left us, Yields (chain n ts) left us ∧ Yields (links n left us) e rest := by
  rw [chain, yields_bind]
  refine exists_congr fun left => exists_congr fun us => ?_
  simp only [yields_bind, yields_pure, exists_prop]
  refine and_congr_right fun _ => ?_
  constructor
  · rintro ⟨_, _, h, rfl, rfl⟩
    exact h
  · exact fun h => ⟨e, rest, h, rfl, rfl⟩

/-- Operands are joined to what is read so far, one by one. -/
theorem yields_links {left : Expr} :
    Yields (links n left ts) e rest ↔
      (joinerAt? n (nextKind ts) = none ∧ e = left ∧ rest = ts) ∨
      ∃ t us j right vs, ts = t :: us ∧ joinerAt? n t.kind = some j ∧
        Yields (chain n us) right vs ∧ Yields (links n (j.join t.line left right) vs) e rest := by
  cases ts with
  | nil => simp [links, nextKind, endOfFile, joinerAt?, joiner?, binaryOp?]
  | cons t us =>
    rw [links]
    cases hj : joinerAt? n t.kind with
    | none =>
      simp only [yields_ok, nextKind, List.headD_cons, hj, true_and]
      constructor
      · exact .inl
      · rintro (h | ⟨_, _, _, _, _, ⟨⟩, hj', _⟩)
        · exact h
        · rw [hj] at hj'
          cases hj'
    | some j =>
      simp only [yields_bind, yields_pure, nextKind, List.headD_cons, hj, reduceCtorEq, false_and,
        false_or]
      constructor
      · rintro ⟨right, vs, hright, _, _, hlinks, rfl, rfl⟩
        exact ⟨t, us, j, right, vs, rfl, hj, hright, hlinks⟩
      · rintro ⟨_, _, _, right, vs, ⟨⟩, hj', hright, hlinks⟩
        cases hj.symm.trans hj'
        exact ⟨right, vs, hright, e, rest, hlinks, rfl, rfl⟩

/-- Each increment needs a variable before it. -/
theorem yields_increments {operand : Expr} :
    Yields (increments operand ts) e rest ↔
      (incrementOp? (nextKind ts) = none ∧ e = operand ∧ rest = ts) ∨
      ∃ t us op name, ts = t :: us ∧ incrementOp? t.kind = some op ∧
        operand.target? = some name ∧
        Yields (increments (.increment op t.line .after name) us) e rest := by
  cases ts with
  | nil => simp [increments, nextKind, endOfFile, incrementOp?]
  | cons t us =>
    rw [increments]
    cases hop : incrementOp? t.kind with
    | none => simp [nextKind, hop]
    | some op =>
      cases hname : operand.target? with
      | none => simp [nextKind, hop]
      | some name =>
        simp only [yields_bind, yields_pure, nextKind, List.headD_cons, hop, reduceCtorEq,
          false_and, false_or]
        constructor
        · rintro ⟨_, _, h, rfl, rfl⟩
          exact ⟨t, us, op, name, rfl, hop, rfl, h⟩
        · rintro ⟨_, _, op', name', ⟨⟩, hop', hname', h⟩
          cases hop.symm.trans hop'
          cases hname'
          exact ⟨e, rest, h, rfl, rfl⟩

theorem yields_unary_increment {op : IncrementOp} (hop : incrementOp? t.kind = some op) :
    Yields (unary (t :: ts)) e rest ↔ ∃ operand name, Yields (unary ts) operand rest ∧
      operand.target? = some name ∧ e = .increment op t.line .before name := by
  rw [unary]
  simp only [hop, yields_bind]
  constructor
  · rintro ⟨operand, us, h, hrest⟩
    cases hname : operand.target? with
    | none => simp [hname] at hrest
    | some name =>
      obtain ⟨rfl, rfl⟩ : e = .increment op t.line .before name ∧ rest = us := by
        simpa [hname] using hrest
      exact ⟨operand, name, h, hname, rfl⟩
  · rintro ⟨operand, name, h, hname, rfl⟩
    exact ⟨operand, rest, h, by simp [hname]⟩

/-- A minus is tried with the number behind it first. -/
theorem yields_unary_operator {op : UnaryOp} (hinc : incrementOp? t.kind = none)
    (hop : unaryOp? t.kind = some op) :
    Yields (unary (t :: ts)) e rest ↔
      (negativeLiteral? t (ts.headD endOfFile) = some e ∧ rest = ts.tail) ∨
      (negativeLiteral? t (ts.headD endOfFile) = none ∧ ∃ operand,
        Yields (unary ts) operand rest ∧ e = .unary op t.line operand) := by
  rw [unary]
  simp only [hinc, hop]
  cases hneg : negativeLiteral? t (ts.headD endOfFile) with
  | some literal => simp [eq_comm]
  | none =>
    simp

theorem yields_unary_primary (hinc : incrementOp? t.kind = none) (hop : unaryOp? t.kind = none) :
    Yields (unary (t :: ts)) e rest ↔ ∃ operand us, Yields (primary (t :: ts)) operand us ∧
      Yields (increments operand us) e rest := by
  rw [unary]
  simp [hinc, hop]

theorem not_yields_unary_nil : ¬ Yields (unary []) e rest := by
  simp [unary]

theorem yields_primary_literal {form : LiteralForm} (h : literalForm? t = some form) :
    Yields (primary (t :: ts)) e rest ↔ e = .literal ⟨form, t.lexeme, t.line⟩ ∧ rest = ts := by
  rw [primary.eq_def]
  simp only [h, yields_ok]

theorem yields_primary_new (h : t.kind = .kwNew) :
    Yields (primary (t :: ts)) e rest ↔ ∃ name l r, Yields (typeName ts) name (l :: r :: rest) ∧
      l.kind = .leftParen ∧ r.kind = .rightParen ∧ e = .new name := by
  have hnone : literalForm? t = none := by simp [literalForm?, h]
  rw [primary.eq_def]
  simp [hnone, h]

/-- A name before a parenthesis is a call. -/
theorem yields_primary_name (h : t.kind = .identifier) :
    Yields (primary (t :: ts)) e rest ↔
      (nextKind ts ≠ .leftParen ∧ e = .var ⟨t.lexeme, t.line⟩ ∧ rest = ts) ∨
      ∃ l us args, ts = l :: us ∧ l.kind = .leftParen ∧ Yields (arguments us) args rest ∧
        e = .call ⟨t.lexeme, t.line⟩ args := by
  have hnone : literalForm? t = none := by simp [literalForm?, h]
  rw [primary.eq_def]
  simp only [hnone, h, reduceCtorEq, if_true, if_false]
  cases ts with
  | nil => simp [nextKind, endOfFile]
  | cons l us =>
    by_cases hl : l.kind = .leftParen
    · simp [hl]
    · simp [hl]

theorem yields_primary_group (h : t.kind = .leftParen) :
    Yields (primary (t :: ts)) e rest ↔ ∃ inner r, Yields (expression ts) inner (r :: rest) ∧
      r.kind = .rightParen ∧ e = .group inner := by
  have hnone : literalForm? t = none := by simp [literalForm?, h]
  rw [primary.eq_def]
  simp [hnone, h]

/-- Nothing else starts an operand. -/
theorem not_yields_primary (hlit : literalForm? t = none) (hnew : t.kind ≠ .kwNew)
    (hname : t.kind ≠ .identifier) (hgroup : t.kind ≠ .leftParen) :
    ¬ Yields (primary (t :: ts)) e rest := by
  rw [primary.eq_def]
  simp only [hlit, hnew, hname, hgroup, if_false]
  split <;> simp

theorem yields_arguments {args : List Expr} :
    Yields (arguments ts) args rest ↔
      (∃ r, ts = r :: rest ∧ r.kind = .rightParen ∧ args = []) ∨
      (nextKind ts ≠ .rightParen ∧ Yields (expressionsTo ts) args rest) := by
  cases ts with
  | nil =>
    rw [arguments]
    constructor
    · exact fun h => absurd h not_yields_failNext
    · rintro (⟨_, ⟨⟩, _⟩ | ⟨_, h⟩)
      exact absurd h.less (Nat.not_lt_zero _)
  | cons r us =>
    rw [arguments]
    by_cases hr : r.kind = .rightParen
    · simp [hr, eq_comm, and_comm]
    · simp [hr]

theorem yields_expressionsTo {es : List Expr} :
    Yields (expressionsTo ts) es rest ↔
      (∃ e r, Yields (expression ts) e (r :: rest) ∧ r.kind = .rightParen ∧ es = [e]) ∨
      ∃ e comma us more, Yields (expression ts) e (comma :: us) ∧ comma.kind = .comma ∧
        Yields (expressionsTo us) more rest ∧ es = e :: more := by
  rw [expressionsTo, yields_bind]
  constructor
  · rintro ⟨e, ts₁, h, hrest⟩
    cases ts₁ with
    | nil => exact absurd hrest not_yields_failNext
    | cons t us =>
      by_cases hcomma : t.kind = .comma
      · simp only [hcomma, if_true, yields_bind, yields_pure] at hrest
        obtain ⟨more, _, hmore, rfl, rfl⟩ := hrest
        exact .inr ⟨e, t, us, more, h, hcomma, hmore, rfl⟩
      · by_cases hr : t.kind = .rightParen
        · simp only [hr, reduceCtorEq, if_true, if_false, yields_pure] at hrest
          obtain ⟨rfl, rfl⟩ := hrest
          exact .inl ⟨e, t, h, hr, rfl⟩
        · simp [hcomma, hr] at hrest
  · rintro (⟨e, r, h, hr, rfl⟩ | ⟨e, comma, us, more, h, hcomma, hmore, rfl⟩)
    · exact ⟨e, _, h, by simp [hr]⟩
    · refine ⟨e, _, h, ?_⟩
      simp only [hcomma, if_true, yields_bind, yields_pure]
      exact ⟨more, rest, hmore, rfl, rfl⟩

end Expressions

section Parts

variable {ts rest : List Token} {e : Expr}

variable {t : Token} {name type : Name} {es : List Expr} {decls init : List Stmt}
  {label : Option Expr} {labels : List (Option Expr)}

/-- A primitive type is one word, and any other has dots in it. -/
theorem yields_typeName :
    Yields (typeName (t :: ts)) name rest ↔
      (isPrimitive t.kind = true ∧ name = ⟨t.lexeme, t.line⟩ ∧ rest = ts) ∨
      (t.kind = .identifier ∧ name = ⟨(qualified t.lexeme ts).value, t.line⟩ ∧
        rest = (qualified t.lexeme ts).rest) := by
  rw [typeName]
  by_cases hprim : isPrimitive t.kind = true
  · have hname : t.kind ≠ .identifier := by
      intro h
      rw [h] at hprim
      cases hprim
    simp [hprim, hname]
  · by_cases hname : t.kind = .identifier
    · simp [hname, isPrimitive]
    · simp [hprim, hname]

theorem yields_parenthesized :
    Yields (parenthesized ts) e rest ↔ ∃ l us r, ts = l :: us ∧ l.kind = .leftParen ∧
      Yields (expression us) e (r :: rest) ∧ r.kind = .rightParen := by
  simp [parenthesized]

theorem yields_expressions :
    Yields (expressions ts) es rest ↔
      (∃ e, Yields (expression ts) e rest ∧ nextKind rest ≠ .comma ∧ es = [e]) ∨
      ∃ e comma us more, Yields (expression ts) e (comma :: us) ∧ comma.kind = .comma ∧
        Yields (expressions us) more rest ∧ es = e :: more := by
  rw [expressions, yields_bind]
  constructor
  · rintro ⟨e, ts₁, h, hrest⟩
    cases ts₁ with
    | nil =>
      obtain ⟨rfl, rfl⟩ := yields_pure.1 hrest
      exact .inl ⟨e, h, by decide, rfl⟩
    | cons t us =>
      by_cases hcomma : t.kind = .comma
      · simp only [hcomma, if_true, yields_bind, yields_pure] at hrest
        obtain ⟨more, _, hmore, rfl, rfl⟩ := hrest
        exact .inr ⟨e, t, us, more, h, hcomma, hmore, rfl⟩
      · simp only [hcomma, if_false, yields_pure] at hrest
        obtain ⟨rfl, rfl⟩ := hrest
        exact .inl ⟨e, h, hcomma, rfl⟩
  · rintro (⟨e, h, hcomma, rfl⟩ | ⟨e, comma, us, more, h, hcomma, hmore, rfl⟩)
    · refine ⟨e, rest, h, ?_⟩
      cases rest <;> simp_all
    · refine ⟨e, _, h, ?_⟩
      simp only [hcomma, if_true, yields_bind, yields_pure]
      exact ⟨more, rest, hmore, rfl, rfl⟩

theorem yields_initializer {init : Option Expr} :
    Yields (initializer ts) init rest ↔
      (nextKind ts ≠ .assign ∧ init = none ∧ rest = ts) ∨
      ∃ t us e, ts = t :: us ∧ t.kind = .assign ∧ Yields (expression us) e rest ∧
        init = some e := by
  cases ts with
  | nil => simp [initializer, nextKind, endOfFile]
  | cons t us =>
    rw [initializer]
    by_cases ht : t.kind = .assign
    · simp [ht]
    · simp [ht]

/-- A variable, perhaps with a value, and more of them behind a comma. -/
theorem yields_declarators :
    Yields (declarators type ts) decls rest ↔ ∃ t us init vs, ts = t :: us ∧
      t.kind = .identifier ∧ Yields (initializer us) init vs ∧
      ((nextKind vs ≠ .comma ∧ decls = [.var type ⟨t.lexeme, t.line⟩ init] ∧ rest = vs) ∨
      ∃ comma vs' more, vs = comma :: vs' ∧ comma.kind = .comma ∧
        Yields (declarators type vs') more rest ∧
        decls = .var type ⟨t.lexeme, t.line⟩ init :: more) := by
  rw [declarators]
  simp only [yields_bind, yields_expect]
  constructor
  · rintro ⟨t, us, ⟨rfl, ht⟩, init, vs, hinit, hrest⟩
    refine ⟨t, us, init, vs, rfl, ht, hinit, ?_⟩
    cases vs with
    | nil =>
      obtain ⟨rfl, rfl⟩ := yields_pure.1 hrest
      exact .inl ⟨by decide, rfl, rfl⟩
    | cons comma vs' =>
      by_cases hcomma : comma.kind = .comma
      · simp only [hcomma, if_true, yields_bind, yields_pure] at hrest
        obtain ⟨more, _, hmore, rfl, rfl⟩ := hrest
        exact .inr ⟨comma, vs', more, rfl, hcomma, hmore, rfl⟩
      · simp only [hcomma, if_false, yields_pure] at hrest
        obtain ⟨rfl, rfl⟩ := hrest
        exact .inl ⟨hcomma, rfl, rfl⟩
  · rintro ⟨t, us, init, vs, rfl, ht, hinit, hrest⟩
    refine ⟨t, us, ⟨rfl, ht⟩, init, vs, hinit, ?_⟩
    rcases hrest with ⟨hcomma, rfl, rfl⟩ | ⟨comma, vs', more, rfl, hcomma, hmore, rfl⟩
    · cases rest <;> simp_all
    · simp only [hcomma, if_true, yields_bind, yields_pure]
      exact ⟨more, rest, hmore, rfl, rfl⟩

theorem yields_localVariables :
    Yields (localVariables ts) decls rest ↔ ∃ type us, Yields (typeName ts) type us ∧
      Yields (declarators type us) decls rest := by
  simp [localVariables]

/-- Nothing, a declaration, or expressions. -/
theorem yields_forInit :
    Yields (forInit ts) init rest ↔
      (nextKind ts = .semi ∧ init = [] ∧ rest = ts) ∨
      (nextKind ts ≠ .semi ∧ startsDeclaration ts = true ∧
        Yields (localVariables ts) init rest) ∨
      (nextKind ts ≠ .semi ∧ startsDeclaration ts = false ∧ ∃ es, Yields (expressions ts) es rest ∧
        init = es.map .expr) := by
  unfold forInit
  by_cases hsemi : nextKind ts = .semi
  · simp [hsemi]
  · cases hdecl : startsDeclaration ts with
    | true =>
      simp [hsemi]
    | false =>
      simp [hsemi]

theorem yields_expressionUnless {stop : Kind} {value : Option Expr} :
    Yields (expressionUnless stop ts) value rest ↔
      (nextKind ts = stop ∧ value = none ∧ rest = ts) ∨
      (nextKind ts ≠ stop ∧ ∃ e, Yields (expression ts) e rest ∧ value = some e) := by
  unfold expressionUnless
  by_cases hstop : nextKind ts = stop
  · simp [hstop]
  · simp [hstop]

theorem yields_forUpdate :
    Yields (forUpdate ts) es rest ↔
      (nextKind ts = .rightParen ∧ es = [] ∧ rest = ts) ∨
      (nextKind ts ≠ .rightParen ∧ Yields (expressions ts) es rest) := by
  unfold forUpdate
  by_cases hstop : nextKind ts = .rightParen
  · simp [hstop]
  · simp [hstop]

/-- Three parts with semicolons between. -/
theorem yields_forHeader {cond : Option Expr} {update : List Expr} :
    Yields (forHeader ts) (init, cond, update) rest ↔ ∃ l us s₁ vs s₂ ws r, ts = l :: us ∧
      l.kind = .leftParen ∧ Yields (forInit us) init (s₁ :: vs) ∧ s₁.kind = .semi ∧
      Yields (expressionUnless .semi vs) cond (s₂ :: ws) ∧ s₂.kind = .semi ∧
      Yields (forUpdate ws) update (r :: rest) ∧ r.kind = .rightParen := by
  simp [forHeader]

theorem yields_caseLabel_default (ht : t.kind = .kwDefault) :
    Yields (caseLabel (t :: ts)) label rest ↔ ∃ colon, ts = colon :: rest ∧
      colon.kind = .colon ∧ label = none := by
  simp [caseLabel, ht]

theorem yields_caseLabel_case (ht : t.kind = .kwCase) :
    Yields (caseLabel (t :: ts)) label rest ↔ ∃ e colon, Yields (expression ts) e (colon :: rest) ∧
      colon.kind = .colon ∧ label = some e := by
  simp [caseLabel, ht]

/-- A label starts with `default` or `case`. -/
theorem kind_of_yields_caseLabel (h : Yields (caseLabel ts) label rest) :
    ∃ t us, ts = t :: us ∧ (t.kind = .kwDefault ∨ t.kind = .kwCase) := by
  cases ts with
  | nil => exact absurd h (by simp [caseLabel])
  | cons t us =>
    refine ⟨t, us, rfl, ?_⟩
    by_contra hkind
    rw [not_or] at hkind
    simp [caseLabel, hkind.1, hkind.2] at h

theorem yields_caseLabels :
    Yields (caseLabels ts) labels rest ↔
      (nextKind ts ≠ .kwCase ∧ nextKind ts ≠ .kwDefault ∧ labels = [] ∧ rest = ts) ∨
      ∃ label us more, Yields (caseLabel ts) label us ∧ Yields (caseLabels us) more rest ∧
        labels = label :: more := by
  rw [caseLabels]
  by_cases hkind : nextKind ts = .kwCase ∨ nextKind ts = .kwDefault
  · simp only [nextIs_eq, Bool.or_eq_true, hkind, if_true, yields_bind, yields_pure]
    constructor
    · rintro ⟨label, us, hlabel, more, _, hmore, rfl, rfl⟩
      exact .inr ⟨label, us, more, hlabel, hmore, rfl⟩
    · rintro (⟨h₁, h₂, _⟩ | ⟨label, us, more, hlabel, hmore, rfl⟩)
      · exact absurd hkind (not_or.2 ⟨h₁, h₂⟩)
      · exact ⟨label, us, hlabel, more, rest, hmore, rfl, rfl⟩
  · simp only [nextIs_eq, Bool.or_eq_true, hkind, if_false, yields_ok]
    rw [not_or] at hkind
    constructor
    · rintro ⟨rfl, rfl⟩
      exact .inl ⟨hkind.1, hkind.2, rfl, rfl⟩
    · rintro (⟨_, _, rfl, rfl⟩ | ⟨label, us, more, hlabel, _⟩)
      · exact ⟨rfl, rfl⟩
      · obtain ⟨t, us', rfl, h | h⟩ := kind_of_yields_caseLabel hlabel
        · exact absurd h hkind.2
        · exact absurd h hkind.1

theorem yields_groupLabels :
    Yields (groupLabels ts) labels rest ↔ ∃ label us more, Yields (caseLabel ts) label us ∧
      Yields (caseLabels us) more rest ∧ labels = label :: more := by
  simp [groupLabels]

theorem yields_catchHeader :
    Yields (catchHeader ts) (type, name) rest ↔ ∃ l us t r, ts = l :: us ∧ l.kind = .leftParen ∧
      Yields (typeName us) type (t :: r :: rest) ∧ t.kind = .identifier ∧ r.kind = .rightParen ∧
      name = ⟨t.lexeme, t.line⟩ := by
  simp [catchHeader]

end Parts

section Statements

variable {ts rest : List Token} {t : Token} {s : Stmt} {ss : List Stmt}

/-- What starts as a declaration is one. -/
theorem yields_blockStatement :
    Yields (blockStatement ts) ss rest ↔
      (startsDeclaration ts = true ∧ ∃ semi, Yields (localVariables ts) ss (semi :: rest) ∧
        semi.kind = .semi) ∨
      (startsDeclaration ts = false ∧ ∃ s, Yields (statement ts) s rest ∧ ss = [s]) := by
  rw [blockStatement]
  cases hdecl : startsDeclaration ts with
  | true =>
    simp
  | false =>
    simp

/-- Statements are read until the next token stops them. -/
theorem yields_statements {stop : Kind → Bool} :
    Yields (statements stop ts) ss rest ↔
      (stop (nextKind ts) = true ∧ ss = [] ∧ rest = ts) ∨
      (stop (nextKind ts) = false ∧ ∃ first us more, Yields (blockStatement ts) first us ∧
        Yields (statements stop us) more rest ∧ ss = first ++ more) := by
  rw [statements]
  cases hstop : stop (nextKind ts) with
  | true => simp
  | false =>
    simp

theorem yields_blockRest :
    Yields (blockRest ts) ss rest ↔ ∃ r, Yields (statements endsBlock ts) ss (r :: rest) ∧
      r.kind = .rightCurly := by
  rw [blockRest]
  simp

theorem yields_block :
    Yields (block ts) ss rest ↔ ∃ l us, ts = l :: us ∧ l.kind = .leftCurly ∧
      Yields (blockRest us) ss rest := by
  rw [block]
  simp

/-- Groups are read up to the brace. -/
theorem yields_switchGroups {groups : List SwitchGroup} :
    Yields (switchGroups ts) groups rest ↔
      (∃ r, ts = r :: rest ∧ r.kind = .rightCurly ∧ groups = []) ∨
      ∃ labels us body vs more, endsBlock (nextKind ts) = false ∧
        Yields (groupLabels ts) labels us ∧ Yields (statements endsGroup us) body vs ∧
        Yields (switchGroups vs) more rest ∧ groups = .mk labels body :: more := by
  rw [switchGroups]
  cases hends : endsBlock (nextKind ts) with
  | true =>
    simp
  | false =>
    simp only [Bool.false_eq_true, if_false, yields_bind, yields_pure, true_and]
    constructor
    · rintro ⟨labels, us, hlabels, body, vs, hbody, more, _, hmore, rfl, rfl⟩
      exact .inr ⟨labels, us, body, vs, more, hlabels, hbody, hmore, rfl⟩
    · rintro (⟨r, rfl, hr, _⟩ | ⟨labels, us, body, vs, more, hlabels, hbody, hmore, rfl⟩)
      · simp [hr, endsBlock] at hends
      · exact ⟨labels, us, hlabels, body, vs, hbody, more, rest, hmore, rfl, rfl⟩

theorem yields_catchClauses {clauses : List CatchClause} :
    Yields (catchClauses ts) clauses rest ↔
      (nextKind ts ≠ .kwCatch ∧ clauses = [] ∧ rest = ts) ∨
      ∃ t us type name vs body ws more, ts = t :: us ∧ t.kind = .kwCatch ∧
        Yields (catchHeader us) (type, name) vs ∧ Yields (block vs) body ws ∧
        Yields (catchClauses ws) more rest ∧ clauses = .mk type name body :: more := by
  rw [catchClauses.eq_def]
  cases ts with
  | nil => simp [nextKind, endOfFile]
  | cons t us =>
    by_cases ht : t.kind = .kwCatch
    · simp [ht]
    · simp [ht]

theorem yields_finallyClause {cleanup : Option (List Stmt)} :
    Yields (finallyClause ts) cleanup rest ↔
      (nextKind ts ≠ .kwFinally ∧ cleanup = none ∧ rest = ts) ∨
      ∃ t us body, ts = t :: us ∧ t.kind = .kwFinally ∧ Yields (block us) body rest ∧
        cleanup = some body := by
  rw [finallyClause.eq_def]
  cases ts with
  | nil => simp [nextKind, endOfFile]
  | cons t us =>
    by_cases ht : t.kind = .kwFinally
    · simp [ht]
    · simp [ht]

/-- An else is taken if it is there. -/
theorem yields_elseClause {branch : Option Stmt} :
    Yields (elseClause ts) branch rest ↔
      (nextKind ts ≠ .kwElse ∧ branch = none ∧ rest = ts) ∨
      ∃ t us s, ts = t :: us ∧ t.kind = .kwElse ∧ Yields (statement us) s rest ∧
        branch = some s := by
  rw [elseClause.eq_def]
  cases ts with
  | nil => simp [nextKind, endOfFile]
  | cons t us =>
    by_cases ht : t.kind = .kwElse
    · simp [ht]
    · simp [ht]

theorem yields_statement_block (ht : t.kind = .leftCurly) :
    Yields (statement (t :: ts)) s rest ↔ ∃ body, Yields (blockRest ts) body rest ∧
      s = .block body := by
  rw [statement.eq_def]
  simp [ht]

theorem yields_statement_if (ht : t.kind = .kwIf) :
    Yields (statement (t :: ts)) s rest ↔ ∃ cond us s₁ vs branch,
      Yields (parenthesized ts) cond us ∧ Yields (statement us) s₁ vs ∧
      Yields (elseClause vs) branch rest ∧ s = .ifElse t.line cond s₁ branch := by
  rw [statement.eq_def]
  simp [ht]

theorem yields_statement_while (ht : t.kind = .kwWhile) :
    Yields (statement (t :: ts)) s rest ↔ ∃ cond us body, Yields (parenthesized ts) cond us ∧
      Yields (statement us) body rest ∧ s = .whileLoop t.line cond body := by
  rw [statement.eq_def]
  simp [ht]

theorem yields_statement_do (ht : t.kind = .kwDo) :
    Yields (statement (t :: ts)) s rest ↔ ∃ body w us cond semi,
      Yields (statement ts) body (w :: us) ∧ w.kind = .kwWhile ∧
      Yields (parenthesized us) cond (semi :: rest) ∧ semi.kind = .semi ∧
      s = .doLoop t.line body cond := by
  rw [statement.eq_def]
  simp [ht]

theorem yields_statement_for (ht : t.kind = .kwFor) :
    Yields (statement (t :: ts)) s rest ↔ ∃ init cond update us body,
      Yields (forHeader ts) (init, cond, update) us ∧ Yields (statement us) body rest ∧
      s = .forLoop t.line init cond update body := by
  rw [statement.eq_def]
  simp [ht]

theorem yields_statement_switch (ht : t.kind = .kwSwitch) :
    Yields (statement (t :: ts)) s rest ↔ ∃ subject l us groups,
      Yields (parenthesized ts) subject (l :: us) ∧ l.kind = .leftCurly ∧
      Yields (switchGroups us) groups rest ∧ s = .switch t.line subject groups := by
  rw [statement.eq_def]
  simp [ht]

theorem yields_statement_break (ht : t.kind = .kwBreak) :
    Yields (statement (t :: ts)) s rest ↔ ∃ semi, ts = semi :: rest ∧ semi.kind = .semi ∧
      s = .brk t.line := by
  rw [statement.eq_def]
  simp [ht]

theorem yields_statement_continue (ht : t.kind = .kwContinue) :
    Yields (statement (t :: ts)) s rest ↔ ∃ semi, ts = semi :: rest ∧ semi.kind = .semi ∧
      s = .cont t.line := by
  rw [statement.eq_def]
  simp [ht]

theorem yields_statement_return (ht : t.kind = .kwReturn) :
    Yields (statement (t :: ts)) s rest ↔ ∃ value semi,
      Yields (expressionUnless .semi ts) value (semi :: rest) ∧ semi.kind = .semi ∧
      s = .ret t.line value := by
  rw [statement.eq_def]
  simp [ht]

theorem yields_statement_throw (ht : t.kind = .kwThrow) :
    Yields (statement (t :: ts)) s rest ↔ ∃ value semi, Yields (expression ts) value (semi :: rest) ∧
      semi.kind = .semi ∧ s = .throw t.line value := by
  rw [statement.eq_def]
  simp [ht]

/-- A try without a catch needs its finally. -/
theorem yields_statement_try (ht : t.kind = .kwTry) :
    Yields (statement (t :: ts)) s rest ↔ ∃ body us catches vs cleanup,
      Yields (block ts) body us ∧ Yields (catchClauses us) catches vs ∧
      Yields (finallyClause vs) cleanup rest ∧ (catches = [] → cleanup ≠ none) ∧
      s = .tryCatch body catches cleanup := by
  rw [statement.eq_def]
  simp only [ht, yields_bind]
  have hguard : ∀ (catches : List CatchClause) (cleanup : Option (List Stmt)),
      (catches.isEmpty && cleanup.isNone) = true ↔ ¬ (catches = [] → cleanup ≠ none) := by
    intro catches cleanup
    simp
  constructor
  · rintro ⟨body, us, hbody, catches, vs, hcatches, cleanup, ws, hcleanup, hrest⟩
    by_cases hnone : (catches.isEmpty && cleanup.isNone) = true
    · simp [hnone] at hrest
    · obtain ⟨rfl, rfl⟩ : s = .tryCatch body catches cleanup ∧ rest = ws := by
        simpa [hnone] using hrest
      rw [hguard, not_not] at hnone
      exact ⟨body, us, catches, vs, cleanup, hbody, hcatches, hcleanup, hnone, rfl⟩
  · rintro ⟨body, us, catches, vs, cleanup, hbody, hcatches, hcleanup, hsome, rfl⟩
    have hnone : ¬ (catches.isEmpty && cleanup.isNone) = true := by
      rw [hguard, not_not]
      exact hsome
    refine ⟨body, us, hbody, catches, vs, hcatches, cleanup, rest, hcleanup, ?_⟩
    simp [hnone]

theorem yields_statement_empty (ht : t.kind = .semi) :
    Yields (statement (t :: ts)) s rest ↔ s = .empty ∧ rest = ts := by
  rw [statement.eq_def]
  simp only [ht, yields_ok]

/-- The kinds with which every statement but an expression starts. -/
def opensStatement (k : Kind) : Bool :=
  k = .leftCurly || k = .kwIf || k = .kwWhile || k = .kwDo || k = .kwFor || k = .kwSwitch ||
    k = .kwBreak || k = .kwContinue || k = .kwReturn || k = .kwThrow || k = .kwTry || k = .semi

/-- Whatever a statement starts with. -/
theorem opensStatement_cases (k : Kind) :
    k = .leftCurly ∨ k = .kwIf ∨ k = .kwWhile ∨ k = .kwDo ∨ k = .kwFor ∨ k = .kwSwitch ∨
      k = .kwBreak ∨ k = .kwContinue ∨ k = .kwReturn ∨ k = .kwThrow ∨ k = .kwTry ∨ k = .semi ∨
      opensStatement k = false := by
  simp only [opensStatement, Bool.or_eq_false_iff, decide_eq_false_iff_not]
  tauto

/-- Whatever starts no other statement is an expression. -/
theorem yields_statement_expr (ht : opensStatement t.kind = false) :
    Yields (statement (t :: ts)) s rest ↔ ∃ e semi, Yields (expression (t :: ts)) e (semi :: rest) ∧
      semi.kind = .semi ∧ s = .expr e := by
  have hne : ∀ k, opensStatement k = true → t.kind ≠ k := by
    rintro k hk rfl
    rw [hk] at ht
    cases ht
  rw [statement.eq_def]
  dsimp only
  split
  case h_13 =>
    simp
  all_goals
    rename_i hkind
    exact absurd hkind (hne _ rfl)

theorem not_yields_statement_nil : ¬ Yields (statement []) s rest := by
  rw [statement.eq_def]
  simp

end Statements

end Jminus.Parser
