import Jminus.Proofs.Grammar.Phrases
import Mathlib

/-!
The parser accepts no more than the grammar: whatever a rule reads is a phrase of the grammar with
the tree that the rule makes of it.
-/
namespace Jminus.Grammar

open Jminus.Parser

/-- The tokens start with a phrase of `a`, and `rest` is behind it. -/
def Reads {α : Type} (phrase : List Token → α → Prop) (ts : List Token) (a : α)
    (rest : List Token) : Prop :=
  ∃ us, ts = us ++ rest ∧ phrase us a

/-- What is read of a dotted name is one. -/
theorem qualified_sound (text : String) (ts : List Token) :
    ∃ us, ts = us ++ (qualified text ts).rest ∧ Qualified text us (qualified text ts).value := by
  rw [qualified.eq_def]
  split
  · rename_i d n rest
    split
    · rename_i hkinds
      obtain ⟨us, hus, h⟩ := qualified_sound (text ++ "." ++ n.lexeme) rest
      exact ⟨d :: n :: us, congrArg (d :: n :: ·) hus, .cons hkinds.1 hkinds.2 h⟩
    · exact ⟨[], rfl, .nil⟩
  · exact ⟨[], rfl, .nil⟩
termination_by ts.length

variable {ts rest : List Token} {name : Name} {e : Expr} {t : Token} {init : List Stmt}

theorem typeName_sound (h : Yields (typeName ts) name rest) : Reads TypeName ts name rest := by
  cases ts with
  | nil => exact absurd h.less (Nat.not_lt_zero _)
  | cons t ts =>
    rcases yields_typeName.1 h with ⟨hprim, rfl, rfl⟩ | ⟨hname, rfl, rfl⟩
    · exact ⟨[t], rfl, .primitive (primitive_iff.2 hprim)⟩
    · obtain ⟨us, hus, hqualified⟩ := qualified_sound t.lexeme ts
      exact ⟨t :: us, congrArg (t :: ·) hus, .named hname hqualified⟩

/-- At most one increment fits behind an operand, since what it makes is no variable. -/
theorem increments_sound {us : List Token} {operand : Expr} (hus : Primary us operand)
    (h : Yields (increments operand ts) e rest) : ∃ vs, ts = vs ++ rest ∧ Postfix (us ++ vs) e := by
  rcases yields_increments.1 h with ⟨_, rfl, rfl⟩ | ⟨t, ts, op, name, rfl, hop, hname, hmore⟩
  · exact ⟨[], rfl, by rw [List.append_nil]; exact .primary hus⟩
  · rcases yields_increments.1 hmore with ⟨_, rfl, rfl⟩ | ⟨_, _, _, _, _, _, hname', _⟩
    · exact ⟨[t], rfl, .increment (hus.target hname) (increments_iff.2 hop)⟩
    · cases hname'

/-- A minus that was taken with the number behind it stands before a number. -/
theorem negative_sound (h : negativeLiteral? t (ts.headD endOfFile) = some e) :
    Reads Unary (t :: ts) e ts.tail := by
  unfold negativeLiteral? at h
  split at h
  · rename_i hkinds
    obtain ⟨form, hform, rfl⟩ := Option.map_eq_some_iff.1 h
    cases ts with
    | nil => cases hform
    | cons u ts =>
      exact ⟨[t, u], rfl, .negative hkinds.1 (numeric_iff.2 hkinds.2) (denotes_iff.2 hform)⟩
  · cases h

theorem Numeric.denotes {k : Kind} (h : Numeric k) (d : Decoded) : ∃ form, Denotes k d form := by
  cases h <;> exact ⟨_, by constructor⟩

/-- A minus that was not taken with the token behind it stands before no number. -/
theorem not_numeric_of_negativeLiteral {u : Token} (h : negativeLiteral? t u = none)
    (ht : t.kind = .minus) : ¬Numeric u.kind := by
  intro hu
  obtain ⟨form, hform⟩ := hu.denotes u.decoded
  simp [negativeLiteral?, ht, numeric_iff.1 hu, denotes_iff.1 hform] at h

mutual

/-- Whatever is read as an expression is one. -/
theorem expression_sound {ts rest : List Token} {e : Expr} (h : Yields (expression ts) e rest) :
    Reads Expression ts e rest := by
  rcases yields_expression.1 h with ⟨h, _⟩ |
    ⟨left, t, us, op, value, name, hleft, hop, hvalue, hname, rfl⟩
  · obtain ⟨us, hus, h⟩ := conditional_sound h
    exact ⟨us, hus, .conditional h⟩
  · have hless := hleft.less
    obtain ⟨vs, rfl, hvs⟩ := conditional_sound hleft
    obtain ⟨ws, rfl, hws⟩ := expression_sound hvalue
    exact ⟨vs ++ t :: ws, by simp, .assign (hvs.target hname) (assigns_iff.2 hop) hws⟩
termination_by (ts.length, 30)

theorem conditional_sound {ts rest : List Token} {e : Expr} (h : Yields (conditional ts) e rest) :
    Reads Conditional ts e rest := by
  rcases yields_conditional.1 h with ⟨h, _⟩ |
    ⟨c, q, us, a, colon, vs, b, hc, hq, ha, hcolon, hb, rfl⟩
  · obtain ⟨us, hus, h⟩ := chain_sound h
    exact ⟨us, hus, .chain h⟩
  · have hless := hc.less
    have hless' := ha.less
    obtain ⟨cs, rfl, hcs⟩ := chain_sound hc
    obtain ⟨as, rfl, has⟩ := expression_sound ha
    obtain ⟨bs, rfl, hbs⟩ := conditional_sound hb
    exact ⟨cs ++ q :: as ++ colon :: bs, by simp, .choice hcs hq has hcolon hbs⟩
termination_by (ts.length, 20)

theorem chain_sound {n : Nat} {ts rest : List Token} {e : Expr} (h : Yields (chain n ts) e rest) :
    Reads (Chain n) ts e rest := by
  cases n with
  | zero =>
    obtain ⟨us, hus, h⟩ := unary_sound (yields_chain_zero.1 h)
    exact ⟨us, hus, .operand h⟩
  | succ n =>
    obtain ⟨left, us, hleft, hlinks⟩ := yields_chain_succ.1 h
    have hless := hleft.less
    obtain ⟨vs, rfl, hvs⟩ := chain_sound hleft
    obtain ⟨ws, rfl, hws⟩ := links_sound (.up hvs) hlinks
    exact ⟨vs ++ ws, (List.append_assoc _ _ _).symm, hws⟩
termination_by (ts.length, n + 5)

/-- What is read so far grows to the right, by an operator and an operand at a time. -/
theorem links_sound {n : Nat} {us ts rest : List Token} {left e : Expr}
    (hleft : Chain (n + 1) us left) (h : Yields (links n left ts) e rest) :
    ∃ vs, ts = vs ++ rest ∧ Chain (n + 1) (us ++ vs) e := by
  rcases yields_links.1 h with ⟨_, rfl, rfl⟩ | ⟨t, ts, j, right, vs, rfl, hj, hright, hmore⟩
  · exact ⟨[], rfl, by rw [List.append_nil]; exact hleft⟩
  · have hless := hright.less
    obtain ⟨rs, rfl, hrs⟩ := chain_sound hright
    obtain ⟨ws, rfl, hws⟩ := links_sound (.join hleft (joins_iff.2 hj) hrs) hmore
    exact ⟨t :: rs ++ ws, by simp, by simpa using hws⟩
termination_by (ts.length, n + 5)

/-- The cases are those of the rule: an increment, an operand of its own, or an operator. -/
theorem unary_sound {ts rest : List Token} {e : Expr} (h : Yields (unary ts) e rest) :
    Reads Unary ts e rest := by
  match ts with
  | [] => exact absurd h not_yields_unary_nil
  | t :: ts =>
    cases hinc : incrementOp? t.kind with
    | some op =>
      obtain ⟨operand, name, hoperand, hname, rfl⟩ := (yields_unary_increment hinc).1 h
      obtain ⟨us, rfl, hus⟩ := unary_sound hoperand
      exact ⟨t :: us, rfl, .increment (increments_iff.2 hinc) (hus.target hname)⟩
    | none =>
      cases hop : unaryOp? t.kind with
      | none =>
        obtain ⟨operand, us, hoperand, hmore⟩ := (yields_unary_primary hinc hop).1 h
        obtain ⟨vs, hvs, hprimary⟩ := primary_sound hoperand
        obtain ⟨ws, rfl, hws⟩ := increments_sound hprimary hmore
        exact ⟨vs ++ ws, by rw [hvs, List.append_assoc], .operand hws⟩
      | some op =>
        rcases (yields_unary_operator hinc hop).1 h with ⟨hneg, rfl⟩ | ⟨hneg, operand, hoperand, rfl⟩
        · exact negative_sound hneg
        · obtain ⟨us, rfl, hus⟩ := unary_sound hoperand
          refine ⟨t :: us, rfl, .operator (prefixes_iff.2 hop) hus fun ht u hu => ?_⟩
          cases us with
          | nil => cases hu
          | cons v vs =>
            cases hu
            exact not_numeric_of_negativeLiteral hneg ht
termination_by (ts.length, 4)

theorem primary_sound {ts rest : List Token} {e : Expr} (h : Yields (primary ts) e rest) :
    Reads Primary ts e rest := by
  match ts with
  | [] => exact absurd h.less (Nat.not_lt_zero _)
  | t :: ts =>
    cases hform : literalForm? t with
    | some form =>
      obtain ⟨rfl, rfl⟩ := (yields_primary_literal hform).1 h
      exact ⟨[t], rfl, .literal (denotes_iff.2 hform)⟩
    | none =>
      by_cases hnew : t.kind = .kwNew
      · obtain ⟨name, l, r, hname, hl, hr, rfl⟩ := (yields_primary_new hnew).1 h
        obtain ⟨us, rfl, hus⟩ := typeName_sound hname
        exact ⟨t :: us ++ [l, r], by simp, .new hnew hus hl hr⟩
      by_cases hvar : t.kind = .identifier
      · rcases (yields_primary_name hvar).1 h with ⟨_, rfl, rfl⟩ | ⟨l, us, args, rfl, hl, hargs, rfl⟩
        · exact ⟨[t], rfl, .var hvar⟩
        · obtain ⟨vs, r, rfl, hvs, hr⟩ := arguments_sound hargs
          exact ⟨t :: l :: vs ++ [r], by simp, .call hvar hl hvs hr⟩
      by_cases hgroup : t.kind = .leftParen
      · obtain ⟨inner, r, hinner, hr, rfl⟩ := (yields_primary_group hgroup).1 h
        obtain ⟨us, rfl, hus⟩ := expression_sound hinner
        exact ⟨t :: us ++ [r], by simp, .group hgroup hus hr⟩
      · exact absurd h (not_yields_primary hform hnew hvar hgroup)
termination_by (ts.length, 2)

/-- The parenthesis behind the arguments is read with them. -/
theorem arguments_sound {ts rest : List Token} {args : List Expr}
    (h : Yields (arguments ts) args rest) :
    ∃ us r, ts = us ++ r :: rest ∧ Arguments us args ∧ r.kind = .rightParen := by
  rcases yields_arguments.1 h with ⟨r, rfl, hr, rfl⟩ | ⟨_, h⟩
  · exact ⟨[], r, rfl, .none, hr⟩
  · obtain ⟨us, r, hus, hes, hr⟩ := expressionsTo_sound h
    exact ⟨us, r, hus, .some hes, hr⟩
termination_by (ts.length, 50)

theorem expressionsTo_sound {ts rest : List Token} {es : List Expr}
    (h : Yields (expressionsTo ts) es rest) :
    ∃ us r, ts = us ++ r :: rest ∧ Expressions us es ∧ r.kind = .rightParen := by
  rcases yields_expressionsTo.1 h with ⟨e, r, he, hr, rfl⟩ |
    ⟨e, comma, us, more, he, hcomma, hmore, rfl⟩
  · obtain ⟨us, hus, he⟩ := expression_sound he
    exact ⟨us, r, hus, .one he, hr⟩
  · have hless := he.less
    obtain ⟨vs, rfl, hvs⟩ := expression_sound he
    obtain ⟨ws, r, rfl, hws, hr⟩ := expressionsTo_sound hmore
    exact ⟨vs ++ comma :: ws, r, by simp, .more hvs hcomma hws, hr⟩
termination_by (ts.length, 40)

end

theorem parenthesized_sound (h : Yields (parenthesized ts) e rest) :
    Reads Parenthesized ts e rest := by
  obtain ⟨l, us, r, rfl, hl, he, hr⟩ := yields_parenthesized.1 h
  obtain ⟨vs, rfl, hvs⟩ := expression_sound he
  exact ⟨l :: vs ++ [r], by simp, .mk hl hvs hr⟩

theorem expressions_sound {ts rest : List Token} {es : List Expr}
    (h : Yields (expressions ts) es rest) : Reads Expressions ts es rest := by
  rcases yields_expressions.1 h with ⟨e, he, _, rfl⟩ | ⟨e, comma, us, more, he, hcomma, hmore, rfl⟩
  · obtain ⟨us, hus, he⟩ := expression_sound he
    exact ⟨us, hus, .one he⟩
  · have hless := he.less
    obtain ⟨vs, rfl, hvs⟩ := expression_sound he
    obtain ⟨ws, rfl, hws⟩ := expressions_sound hmore
    exact ⟨vs ++ comma :: ws, by simp, .more hvs hcomma hws⟩
termination_by ts.length

theorem initializer_sound {init : Option Expr} (h : Yields (initializer ts) init rest) :
    Reads Initializer ts init rest := by
  rcases yields_initializer.1 h with ⟨_, rfl, rfl⟩ | ⟨t, us, e, rfl, ht, he, rfl⟩
  · exact ⟨[], rfl, .absent⟩
  · obtain ⟨vs, rfl, hvs⟩ := expression_sound he
    exact ⟨t :: vs, rfl, .present ht hvs⟩

/-- Every declarator that is read declares one variable. -/
theorem declarators_sound {type : Name} {ts rest : List Token} {decls : List Stmt}
    (h : Yields (declarators type ts) decls rest) : Reads (Declarators type) ts decls rest := by
  obtain ⟨t, us, init, vs, rfl, ht, hinit, hrest⟩ := yields_declarators.1 h
  have hless := hinit.less
  obtain ⟨is, rfl, his⟩ := initializer_sound hinit
  rcases hrest with ⟨_, rfl, rfl⟩ | ⟨comma, vs', more, rfl, hcomma, hmore, rfl⟩
  · exact ⟨t :: is, rfl, .one ht his⟩
  · obtain ⟨ws, rfl, hws⟩ := declarators_sound hmore
    exact ⟨t :: is ++ comma :: ws, by simp, .more ht his hcomma hws⟩
termination_by ts.length

theorem localVariables_sound {decls : List Stmt} (h : Yields (localVariables ts) decls rest) :
    Reads Declaration ts decls rest := by
  obtain ⟨type, us, htype, hdecls⟩ := yields_localVariables.1 h
  obtain ⟨vs, rfl, hvs⟩ := typeName_sound htype
  obtain ⟨ws, rfl, hws⟩ := declarators_sound hdecls
  exact ⟨vs ++ ws, (List.append_assoc _ _ _).symm, .mk hvs hws⟩

theorem forInit_sound (h : Yields (forInit ts) init rest) : Reads ForInit ts init rest := by
  rcases yields_forInit.1 h with ⟨_, rfl, rfl⟩ | ⟨_, _, hdecls⟩ | ⟨_, _, es, hes, rfl⟩
  · exact ⟨[], rfl, .none⟩
  · obtain ⟨us, hus, hdecls⟩ := localVariables_sound hdecls
    exact ⟨us, hus, .declaration hdecls⟩
  · obtain ⟨us, hus, hes⟩ := expressions_sound hes
    exact ⟨us, hus, .expressions hes⟩

theorem expressionUnless_sound {stop : Kind} {value : Option Expr}
    (h : Yields (expressionUnless stop ts) value rest) : Reads Maybe ts value rest := by
  rcases yields_expressionUnless.1 h with ⟨_, rfl, rfl⟩ | ⟨_, e, he, rfl⟩
  · exact ⟨[], rfl, .absent⟩
  · obtain ⟨us, hus, he⟩ := expression_sound he
    exact ⟨us, hus, .present he⟩

theorem forUpdate_sound {es : List Expr} (h : Yields (forUpdate ts) es rest) :
    Reads Arguments ts es rest := by
  rcases yields_forUpdate.1 h with ⟨_, rfl, rfl⟩ | ⟨_, hes⟩
  · exact ⟨[], rfl, .none⟩
  · obtain ⟨us, hus, hes⟩ := expressions_sound hes
    exact ⟨us, hus, .some hes⟩

theorem forHeader_sound {cond : Option Expr} {update : List Expr}
    (h : Yields (forHeader ts) (init, cond, update) rest) :
    ∃ us, ts = us ++ rest ∧ ForHeader us init cond update := by
  obtain ⟨l, us, s₁, vs, s₂, ws, r, rfl, hl, hinit, hs₁, hcond, hs₂, hupdate, hr⟩ :=
    yields_forHeader.1 h
  obtain ⟨is, rfl, his⟩ := forInit_sound hinit
  obtain ⟨cs, rfl, hcs⟩ := expressionUnless_sound hcond
  obtain ⟨xs, rfl, hxs⟩ := forUpdate_sound hupdate
  exact ⟨l :: is ++ s₁ :: cs ++ s₂ :: xs ++ [r], by simp, .mk hl his hs₁ hcs hs₂ hxs hr⟩

theorem caseLabel_sound {label : Option Expr} (h : Yields (caseLabel ts) label rest) :
    Reads CaseLabel ts label rest := by
  obtain ⟨t, us, rfl, ht | ht⟩ := kind_of_yields_caseLabel h
  · obtain ⟨colon, rfl, hcolon, rfl⟩ := (yields_caseLabel_default ht).1 h
    exact ⟨[t, colon], rfl, .default ht hcolon⟩
  · obtain ⟨e, colon, he, hcolon, rfl⟩ := (yields_caseLabel_case ht).1 h
    obtain ⟨vs, rfl, hvs⟩ := expression_sound he
    exact ⟨t :: vs ++ [colon], by simp, .case ht hvs hcolon⟩

/-- Labels behind one that is read already. -/
theorem caseLabels_sound {us ts rest : List Token} {label : Option Expr}
    {labels : List (Option Expr)} (hlabel : CaseLabel us label)
    (h : Yields (caseLabels ts) labels rest) :
    ∃ vs, ts = vs ++ rest ∧ CaseLabels (us ++ vs) (label :: labels) := by
  rcases yields_caseLabels.1 h with ⟨_, _, rfl, rfl⟩ | ⟨next, ws, more, hnext, hmore, rfl⟩
  · exact ⟨[], rfl, by rw [List.append_nil]; exact .one hlabel⟩
  · have hless := hnext.less
    obtain ⟨ns, rfl, hns⟩ := caseLabel_sound hnext
    obtain ⟨vs, rfl, hvs⟩ := caseLabels_sound hns hmore
    exact ⟨ns ++ vs, (List.append_assoc _ _ _).symm, .more hlabel hvs⟩
termination_by ts.length

/-- The labels of a group are read together. -/
theorem groupLabels_sound {labels : List (Option Expr)} (h : Yields (groupLabels ts) labels rest) :
    Reads CaseLabels ts labels rest := by
  obtain ⟨label, us, more, hlabel, hmore, rfl⟩ := yields_groupLabels.1 h
  obtain ⟨vs, rfl, hvs⟩ := caseLabel_sound hlabel
  obtain ⟨ws, rfl, hws⟩ := caseLabels_sound hvs hmore
  exact ⟨vs ++ ws, (List.append_assoc _ _ _).symm, hws⟩

theorem catchHeader_sound {type : Name} (h : Yields (catchHeader ts) (type, name) rest) :
    ∃ us, ts = us ++ rest ∧ CatchHeader us type name := by
  obtain ⟨l, us, t, r, rfl, hl, htype, ht, hr, rfl⟩ := yields_catchHeader.1 h
  obtain ⟨vs, rfl, hvs⟩ := typeName_sound htype
  exact ⟨l :: vs ++ [t, r], by simp, .mk hl hvs ht hr⟩

/-- Behind the last label of a group there is none. -/
theorem groupLabels_greedy {ts rest : List Token} {labels : List (Option Expr)}
    (h : Yields (groupLabels ts) labels rest) :
    nextKind rest ≠ .kwCase ∧ nextKind rest ≠ .kwDefault := by
  obtain ⟨_, us, more, _, hmore, _⟩ := yields_groupLabels.1 h
  exact go hmore
where
  go {ts rest : List Token} {labels : List (Option Expr)}
      (h : Yields (caseLabels ts) labels rest) :
      nextKind rest ≠ .kwCase ∧ nextKind rest ≠ .kwDefault := by
    rcases yields_caseLabels.1 h with ⟨hcase, hdefault, _, rfl⟩ | ⟨_, us, _, hlabel, hmore, _⟩
    · exact ⟨hcase, hdefault⟩
    · have hless := hlabel.less
      exact go hmore
  termination_by ts.length

/-- Behind an if without an else there is none. -/
theorem statement_greedy {ts rest : List Token} {s : Stmt} (h : Yields (statement ts) s rest)
    (hopen : endsOpen s = true) : nextKind rest ≠ .kwElse := by
  match ts with
  | [] => exact absurd h not_yields_statement_nil
  | t :: ts =>
    rcases opensStatement_cases t.kind with ht | ht | ht | ht | ht | ht | ht | ht | ht | ht | ht |
      ht | ht
    · obtain ⟨_, _, rfl⟩ := (yields_statement_block ht).1 h
      cases hopen
    · obtain ⟨cond, us, s₁, vs, branch, hcond, hs₁, hbranch, rfl⟩ := (yields_statement_if ht).1 h
      rcases yields_elseClause.1 hbranch with ⟨hnext, _, rfl⟩ | ⟨e, ws, s₂, rfl, _, hs₂, rfl⟩
      · exact hnext
      · have hless := hcond.less
        have hless' := hs₁.tail_less
        rw [endsOpen] at hopen
        exact statement_greedy hs₂ hopen
    · obtain ⟨cond, us, body, hcond, hbody, rfl⟩ := (yields_statement_while ht).1 h
      have hless := hcond.less
      rw [endsOpen] at hopen
      exact statement_greedy hbody hopen
    · obtain ⟨_, _, _, _, _, _, _, _, _, rfl⟩ := (yields_statement_do ht).1 h
      cases hopen
    · obtain ⟨init, cond, update, us, body, hheader, hbody, rfl⟩ := (yields_statement_for ht).1 h
      have hless := hheader.less
      rw [endsOpen] at hopen
      exact statement_greedy hbody hopen
    · obtain ⟨_, _, _, _, _, _, _, rfl⟩ := (yields_statement_switch ht).1 h
      cases hopen
    · obtain ⟨_, _, _, rfl⟩ := (yields_statement_break ht).1 h
      cases hopen
    · obtain ⟨_, _, _, rfl⟩ := (yields_statement_continue ht).1 h
      cases hopen
    · obtain ⟨_, _, _, _, rfl⟩ := (yields_statement_return ht).1 h
      cases hopen
    · obtain ⟨_, _, _, _, rfl⟩ := (yields_statement_throw ht).1 h
      cases hopen
    · obtain ⟨_, _, _, _, _, _, _, _, _, rfl⟩ := (yields_statement_try ht).1 h
      cases hopen
    · obtain ⟨rfl, _⟩ := (yields_statement_empty ht).1 h
      cases hopen
    · obtain ⟨_, _, _, _, rfl⟩ := (yields_statement_expr ht).1 h
      cases hopen
termination_by ts.length

mutual

theorem blockStatement_sound {ts rest : List Token} {ss : List Stmt}
    (h : Yields (blockStatement ts) ss rest) : Reads BlockStatement ts ss rest := by
  rcases yields_blockStatement.1 h with ⟨_, semi, hdecls, hsemi⟩ | ⟨_, s, hs, rfl⟩
  · obtain ⟨us, rfl, hus⟩ := localVariables_sound hdecls
    exact ⟨us ++ [semi], by simp, .declaration hus hsemi⟩
  · obtain ⟨us, hus, hs⟩ := statement_sound hs
    exact ⟨us, hus, .statement hs⟩
termination_by (ts.length, 2)

/-- Statements are read up to a kind that stops them. -/
theorem statements_sound {stop : Kind → Bool} {ts rest : List Token} {ss : List Stmt}
    (h : Yields (statements stop ts) ss rest) : Reads Statements ts ss rest := by
  rcases yields_statements.1 h with ⟨_, rfl, rfl⟩ | ⟨_, first, us, more, hfirst, hmore, rfl⟩
  · exact ⟨[], rfl, .nil⟩
  · have hless := hfirst.less
    obtain ⟨vs, rfl, hvs⟩ := blockStatement_sound hfirst
    obtain ⟨ws, rfl, hws⟩ := statements_sound hmore
    exact ⟨vs ++ ws, (List.append_assoc _ _ _).symm, .cons hvs hws⟩
termination_by (ts.length, 3)

theorem blockRest_sound {ts rest : List Token} {ss : List Stmt}
    (h : Yields (blockRest ts) ss rest) :
    ∃ us r, ts = us ++ r :: rest ∧ Statements us ss ∧ r.kind = .rightCurly := by
  obtain ⟨r, hss, hr⟩ := yields_blockRest.1 h
  obtain ⟨us, hus, hss⟩ := statements_sound hss
  exact ⟨us, r, hus, hss, hr⟩
termination_by (ts.length, 4)

theorem block_sound {ts rest : List Token} {ss : List Stmt} (h : Yields (block ts) ss rest) :
    Reads Block ts ss rest := by
  obtain ⟨l, us, rfl, hl, hss⟩ := yields_block.1 h
  obtain ⟨vs, r, rfl, hvs, hr⟩ := blockRest_sound hss
  exact ⟨l :: vs ++ [r], by simp, .mk hl hvs hr⟩
termination_by (ts.length, 1)

/-- The groups of a switch are read up to its brace. A group without statements is the last one,
since otherwise its labels would have gone on. -/
theorem switchGroups_sound {ts rest : List Token} {groups : List SwitchGroup}
    (h : Yields (switchGroups ts) groups rest) :
    ∃ us r, ts = us ++ r :: rest ∧ Groups us groups ∧ r.kind = .rightCurly := by
  rcases yields_switchGroups.1 h with ⟨r, rfl, hr, rfl⟩ |
    ⟨labels, us, body, vs, more, _, hlabels, hbody, hmore, rfl⟩
  · exact ⟨[], r, rfl, .nil, hr⟩
  · have hless := hlabels.less
    have hless' := hbody.less
    have hlast : body = [] → more = [] := by
      rintro rfl
      -- Without statements the group ended where its labels did, so no label follows.
      rcases yields_statements.1 hbody with ⟨hstop, _, rfl⟩ | ⟨_, first, _, _, hfirst, _, hnil⟩
      · have hgreedy := groupLabels_greedy hlabels
        have hends : endsBlock (nextKind vs) = true := by
          simpa [endsGroup, hgreedy.1, hgreedy.2] using hstop
        rcases yields_switchGroups.1 hmore with ⟨_, _, _, rfl⟩ | ⟨_, _, _, _, _, hgo, _⟩
        · rfl
        · rw [hends] at hgo
          cases hgo
      · obtain ⟨_, _, hphrase⟩ := blockStatement_sound hfirst
        exact absurd (List.append_eq_nil_iff.1 hnil.symm).1 hphrase.ne_nil
    obtain ⟨ls, rfl, hls⟩ := groupLabels_sound hlabels
    obtain ⟨bs, rfl, hbs⟩ := statements_sound hbody
    obtain ⟨gs, r, rfl, hgs, hr⟩ := switchGroups_sound hmore
    exact ⟨ls ++ bs ++ gs, r, by simp, .cons hls hbs hgs hlast, hr⟩
termination_by (ts.length, 1)

theorem catchClauses_sound {ts rest : List Token} {clauses : List CatchClause}
    (h : Yields (catchClauses ts) clauses rest) : Reads Catches ts clauses rest := by
  rcases yields_catchClauses.1 h with ⟨_, rfl, rfl⟩ |
    ⟨t, us, type, name, vs, body, ws, more, rfl, ht, hheader, hbody, hmore, rfl⟩
  · exact ⟨[], rfl, .nil⟩
  · have hless := hheader.less
    have hless' := hbody.less
    obtain ⟨hs, rfl, hhs⟩ := catchHeader_sound hheader
    obtain ⟨bs, rfl, hbs⟩ := block_sound hbody
    obtain ⟨cs, rfl, hcs⟩ := catchClauses_sound hmore
    exact ⟨t :: hs ++ bs ++ cs, by simp, .cons ht hhs hbs hcs⟩
termination_by (ts.length, 0)

theorem finallyClause_sound {ts rest : List Token} {cleanup : Option (List Stmt)}
    (h : Yields (finallyClause ts) cleanup rest) : Reads Finally ts cleanup rest := by
  rcases yields_finallyClause.1 h with ⟨_, rfl, rfl⟩ | ⟨t, us, body, rfl, ht, hbody, rfl⟩
  · exact ⟨[], rfl, .absent⟩
  · obtain ⟨bs, rfl, hbs⟩ := block_sound hbody
    exact ⟨t :: bs, rfl, .present ht hbs⟩
termination_by (ts.length, 0)

/-- Whatever is read as a statement is one. The cases are those of the token it starts with. -/
theorem statement_sound {ts rest : List Token} {s : Stmt} (h : Yields (statement ts) s rest) :
    Reads Statement ts s rest := by
  match ts with
  | [] => exact absurd h not_yields_statement_nil
  | t :: ts =>
    rcases opensStatement_cases t.kind with ht | ht | ht | ht | ht | ht | ht | ht | ht | ht | ht |
      ht | ht
    · obtain ⟨body, hbody, rfl⟩ := (yields_statement_block ht).1 h
      obtain ⟨us, r, rfl, hus, hr⟩ := blockRest_sound hbody
      exact ⟨t :: us ++ [r], by simp, .block (.mk ht hus hr)⟩
    · obtain ⟨cond, us, s₁, vs, branch, hcond, hs₁, hbranch, rfl⟩ := (yields_statement_if ht).1 h
      have hless := hcond.less
      have hless' := hs₁.less
      obtain ⟨cs, rfl, hcs⟩ := parenthesized_sound hcond
      rcases yields_elseClause.1 hbranch with ⟨_, rfl, rfl⟩ | ⟨e, ws, s₂, rfl, he, hs₂, rfl⟩
      · obtain ⟨bs, rfl, hbs⟩ := statement_sound hs₁
        exact ⟨t :: cs ++ bs, by simp, .ifThen ht hcs hbs⟩
      · have hclosed : endsOpen s₁ = false := by
          by_contra hopen
          exact statement_greedy hs₁ (by simpa using hopen) he
        obtain ⟨bs, rfl, hbs⟩ := statement_sound hs₁
        obtain ⟨es, rfl, hes⟩ := statement_sound hs₂
        exact ⟨t :: cs ++ bs ++ e :: es, by simp, .ifElse ht hcs hbs hclosed he hes⟩
    · obtain ⟨cond, us, body, hcond, hbody, rfl⟩ := (yields_statement_while ht).1 h
      have hless := hcond.less
      obtain ⟨cs, rfl, hcs⟩ := parenthesized_sound hcond
      obtain ⟨bs, rfl, hbs⟩ := statement_sound hbody
      exact ⟨t :: cs ++ bs, by simp, .whileLoop ht hcs hbs⟩
    · obtain ⟨body, w, us, cond, semi, hbody, hw, hcond, hsemi, rfl⟩ := (yields_statement_do ht).1 h
      obtain ⟨bs, rfl, hbs⟩ := statement_sound hbody
      obtain ⟨cs, rfl, hcs⟩ := parenthesized_sound hcond
      exact ⟨t :: bs ++ w :: cs ++ [semi], by simp, .doLoop ht hbs hw hcs hsemi⟩
    · obtain ⟨init, cond, update, us, body, hheader, hbody, rfl⟩ := (yields_statement_for ht).1 h
      have hless := hheader.less
      obtain ⟨hs, rfl, hhs⟩ := forHeader_sound hheader
      obtain ⟨bs, rfl, hbs⟩ := statement_sound hbody
      exact ⟨t :: hs ++ bs, by simp, .forLoop ht hhs hbs⟩
    · obtain ⟨subject, l, us, groups, hsubject, hl, hgroups, rfl⟩ :=
        (yields_statement_switch ht).1 h
      have hless := hsubject.less
      obtain ⟨cs, rfl, hcs⟩ := parenthesized_sound hsubject
      obtain ⟨gs, r, rfl, hgs, hr⟩ := switchGroups_sound hgroups
      exact ⟨t :: cs ++ l :: gs ++ [r], by simp, .switch ht hcs hl hgs hr⟩
    · obtain ⟨semi, rfl, hsemi, rfl⟩ := (yields_statement_break ht).1 h
      exact ⟨[t, semi], rfl, .brk ht hsemi⟩
    · obtain ⟨semi, rfl, hsemi, rfl⟩ := (yields_statement_continue ht).1 h
      exact ⟨[t, semi], rfl, .cont ht hsemi⟩
    · obtain ⟨value, semi, hvalue, hsemi, rfl⟩ := (yields_statement_return ht).1 h
      obtain ⟨vs, rfl, hvs⟩ := expressionUnless_sound hvalue
      exact ⟨t :: vs ++ [semi], by simp, .ret ht hvs hsemi⟩
    · obtain ⟨value, semi, hvalue, hsemi, rfl⟩ := (yields_statement_throw ht).1 h
      obtain ⟨vs, rfl, hvs⟩ := expression_sound hvalue
      exact ⟨t :: vs ++ [semi], by simp, .throw ht hvs hsemi⟩
    · obtain ⟨body, us, catches, vs, cleanup, hbody, hcatches, hcleanup, hsome, rfl⟩ :=
        (yields_statement_try ht).1 h
      have hless := hbody.less
      have hless' := hcatches.less
      obtain ⟨bs, rfl, hbs⟩ := block_sound hbody
      obtain ⟨cs, rfl, hcs⟩ := catchClauses_sound hcatches
      obtain ⟨fs, rfl, hfs⟩ := finallyClause_sound hcleanup
      exact ⟨t :: bs ++ cs ++ fs, by simp, .tryCatch ht hbs hcs hfs hsome⟩
    · obtain ⟨rfl, rfl⟩ := (yields_statement_empty ht).1 h
      exact ⟨[t], rfl, .empty ht⟩
    · obtain ⟨e, semi, he, hsemi, rfl⟩ := (yields_statement_expr ht).1 h
      obtain ⟨us, hus, he⟩ := expression_sound he
      exact ⟨us ++ [semi], by rw [hus, List.append_assoc]; rfl, .expr he hsemi⟩
termination_by (ts.length, 0)

end

end Jminus.Grammar
