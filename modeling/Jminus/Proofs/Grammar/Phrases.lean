import Jminus.Proofs.Grammar
import Jminus.Proofs.Grammar.Rules
import Mathlib

/-!
What the phrases of the grammar look like from outside: with which kinds they start and end, and
which expressions are targets of assignments. The parser decides by the next tokens, so this is what
it can see of a phrase before it has read it.
-/
namespace Jminus.Grammar

open Jminus.Parser

def opensExpression : Kind → Bool
  | .identifier | .leftParen | .kwNew | .inc | .dec | .minus | .lnot | .bitNot => true
  | .intLiteral | .longLiteral | .doubleLiteral | .charLiteral | .stringLiteral => true
  | .kwTrue | .kwFalse | .kwNull => true
  | _ => false

/-- The kinds that behind a name make it the start of a declaration. -/
def extendsName (k : Kind) : Bool := k = .identifier || k = .dot

section Kinds

variable {k : Kind} {t : Token}

/-- The kinds of primitive types are those that the parser takes. -/
theorem primitive_iff : Primitive k ↔ isPrimitive k = true := by
  constructor
  · intro h
    cases h <;> rfl
  · intro h
    cases k <;> first | constructor | cases h

theorem numeric_iff : Numeric k ↔ isNumeric k = true := by
  constructor
  · intro h
    cases h <;> rfl
  · intro h
    cases k <;> first | constructor | cases h

theorem increments_iff {op : IncrementOp} : Increments k op ↔ incrementOp? k = some op := by
  constructor
  · intro h
    cases h <;> rfl
  · intro h
    cases k <;> cases h <;> constructor

theorem prefixes_iff {op : UnaryOp} : Prefixes k op ↔ unaryOp? k = some op := by
  constructor
  · intro h
    cases h <;> rfl
  · intro h
    cases k <;> cases h <;> constructor

theorem assigns_iff {op : AssignOp} : Assigns k op ↔ assignOp? k = some op := by
  constructor
  · intro h
    cases h <;> rfl
  · intro h
    cases k <;> cases h <;> constructor

/-- The joiners of a level are those that the parser takes there. -/
theorem joins_iff {n : Nat} {j : Joiner} : Joins n k j ↔ joinerAt? n k = some j := by
  constructor
  · intro h
    cases h <;> rfl
  · intro h
    obtain ⟨hj, hn⟩ := Option.filter_eq_some_iff.1 h
    rw [decide_eq_true_eq] at hn
    subst hn
    cases k <;> cases hj <;> constructor

/-- The grammar and the parser take the same tokens for literals, with the same meaning. -/
theorem denotes_iff {form : LiteralForm} :
    Denotes t.kind t.decoded form ↔ literalForm? t = some form := by
  obtain ⟨k, lexeme, line, d⟩ := t
  constructor
  · intro h
    cases h with
    | noChar hd => cases d <;> first | rfl | exact absurd rfl (hd _)
    | noString hd => cases d <;> first | rfl | exact absurd rfl (hd _)
    | _ => rfl
  · intro h
    cases k <;> cases d <;> cases h <;> constructor <;> nofun

theorem Denotes.opens {d : Decoded} {form : LiteralForm} (h : Denotes k d form) :
    opensExpression k = true := by
  cases h <;> rfl

theorem Increments.opens {op : IncrementOp} (h : Increments k op) : opensExpression k = true := by
  cases h <;> rfl

theorem Prefixes.opens {op : UnaryOp} (h : Prefixes k op) : opensExpression k = true := by
  cases h <;> rfl

/-- No expression starts as a declaration of a primitive type does. -/
theorem not_primitive_of_opensExpression (h : opensExpression k = true) :
    isPrimitive k = false := by
  cases k <;> first | rfl | cases h

/-- The kinds of reserved statements start no expression. -/
theorem not_opensStatement_of_opensExpression (h : opensExpression k = true) :
    opensStatement k = false := by
  cases k <;> first | rfl | cases h

theorem not_primitive_of_opensStatement (h : opensStatement k = true) : isPrimitive k = false := by
  cases k <;> first | rfl | cases h

end Kinds

variable {text : String} {ts us : List Token} {t : Token} {name : Name} {e : Expr} {k : Kind}

theorem qualified_eq_of_not_dot (h : nextKind ts ≠ .dot) :
    qualified text ts = ⟨text, ts, Nat.lt_succ_self _⟩ := by
  rw [qualified.eq_def]
  split
  · rw [if_neg fun hd => h hd.1]
  · rfl

theorem qualified_of_not_dot (h : nextKind ts ≠ .dot) :
    (qualified text ts).value = text ∧ (qualified text ts).rest = ts := by
  rw [qualified_eq_of_not_dot h]
  exact ⟨rfl, rfl⟩

/-- What starts no declaration: neither a primitive type nor a name before a name or a dot. -/
theorem startsDeclaration_cons (hprim : isPrimitive t.kind = false)
    (hname : t.kind = .identifier → extendsName (nextKind ts) = false) :
    startsDeclaration (t :: ts) = false := by
  simp only [startsDeclaration, hprim, Bool.false_or, Bool.and_eq_false_iff,
    decide_eq_false_iff_not]
  by_cases ht : t.kind = .identifier
  · have hnext := hname ht
    simp only [extendsName, Bool.or_eq_false_iff, decide_eq_false_iff_not] at hnext
    right
    rw [(qualified_of_not_dot hnext.2).2, ← Bool.not_eq_true, nextIs_eq]
    exact hnext.1
  · exact .inl ht

/-- The tokens start as an expression does. Behind a name stands no other and no dot, or else they
would start as a declaration does. -/
def Opens (ts : List Token) : Prop :=
  ∃ t us, ts = t :: us ∧ opensExpression t.kind = true ∧
    (t.kind = .identifier → ∀ u ∈ us.head?, extendsName u.kind = false)

/-- What starts as an expression still does with more behind it, if that continues no name. -/
theorem Opens.join (h : Opens ts) (ht : extendsName t.kind = false) : Opens (ts ++ t :: us) := by
  obtain ⟨v, vs, rfl, hv, hvs⟩ := h
  refine ⟨v, vs ++ t :: us, rfl, hv, fun hname u hu => ?_⟩
  cases vs with
  | nil =>
    cases hu
    exact ht
  | cons w ws => exact hvs hname u hu

theorem Opens.next (h : Opens ts) (rest : List Token) :
    opensExpression (nextKind (ts ++ rest)) = true := by
  obtain ⟨t, us, rfl, ht, _⟩ := h
  exact ht

/-- An expression is not taken for a declaration. -/
theorem Opens.not_declares (h : Opens ts) (ht : extendsName t.kind = false) :
    startsDeclaration (ts ++ t :: us) = false := by
  have hopens : Opens (ts ++ t :: us) := h.join ht
  obtain ⟨v, vs, hvs, hv, hnext⟩ := hopens
  rw [hvs]
  refine startsDeclaration_cons (not_primitive_of_opensExpression hv) fun hname => ?_
  cases vs with
  | nil => rfl
  | cons w ws => exact hnext hname w rfl

theorem Target.opens (h : Target ts name) : Opens ts := by
  cases h with
  | var ht => exact ⟨_, [], rfl, by rw [ht]; rfl, fun _ _ hu => nomatch hu⟩
  | group hl _ _ => exact ⟨_, _, rfl, by rw [hl]; rfl, by rw [hl]; nofun⟩

/-- Behind the name of a variable nothing follows, and behind that of a method a parenthesis. -/
theorem Primary.opens (h : Primary ts e) : Opens ts := by
  cases h with
  | literal hform => exact ⟨_, [], rfl, hform.opens, fun _ _ hu => nomatch hu⟩
  | var ht => exact ⟨_, [], rfl, by rw [ht]; rfl, fun _ _ hu => nomatch hu⟩
  | new ht => exact ⟨_, _, rfl, by rw [ht]; rfl, by rw [ht]; nofun⟩
  | call ht hl =>
    refine ⟨_, _, rfl, by rw [ht]; rfl, fun _ u hu => ?_⟩
    cases hu
    rw [hl]
    rfl
  | group hl => exact ⟨_, _, rfl, by rw [hl]; rfl, by rw [hl]; nofun⟩

theorem Increments.extendsName {op : IncrementOp} (h : Increments k op) :
    extendsName k = false := by
  cases h <;> rfl

theorem Assigns.extendsName {op : AssignOp} (h : Assigns k op) : extendsName k = false := by
  cases h <;> rfl

theorem Joins.extendsName {n : Nat} {k : Kind} {j : Joiner} (h : Joins n k j) :
    extendsName k = false := by
  cases h <;> rfl

theorem Unary.opens {ts : List Token} {e : Expr} (h : Unary ts e) : Opens ts := by
  cases h with
  | operand h =>
    cases h with
    | primary h => exact h.opens
    | increment htarget hop => exact htarget.opens.join hop.extendsName
  | increment hop _ =>
    refine ⟨_, _, rfl, hop.opens, fun hname => ?_⟩
    rw [hname] at hop
    cases hop
  | negative ht _ _ => exact ⟨_, _, rfl, by rw [ht]; rfl, by rw [ht]; nofun⟩
  | operator hop _ _ =>
    refine ⟨_, _, rfl, hop.opens, fun hname => ?_⟩
    rw [hname] at hop
    cases hop

mutual

/-- An expression starts as its first operand does. -/
theorem Chain.opens : ∀ {n ts e}, Chain n ts e → Opens ts
  | _, _, _, .operand h => h.opens
  | _, _, _, .up h => h.opens
  | _, _, _, .join h hj _ => h.opens.join hj.extendsName

theorem Conditional.opens : ∀ {ts e}, Conditional ts e → Opens ts
  | _, _, .chain h => h.opens
  | _, _, .choice hcond hq _ _ _ => by
    rw [List.append_assoc]
    exact hcond.opens.join (by rw [hq]; rfl)

theorem Expression.opens : ∀ {ts e}, Expression ts e → Opens ts
  | _, _, .conditional h => h.opens
  | _, _, .assign htarget hop _ => htarget.opens.join hop.extendsName

theorem Expressions.opens : ∀ {ts es}, Expressions ts es → Opens ts
  | _, _, .one h => h.opens
  | _, _, .more h hcomma _ => h.opens.join (by rw [hcomma]; rfl)

end

mutual

theorem Primary.target : ∀ {ts e name}, Primary ts e → e.target? = some name → Target ts name
  | _, _, _, .literal _, he => by cases he
  | _, _, _, .var ht, he => by
    cases he
    exact .var ht
  | _, _, _, .new _ _ _ _, he => by cases he
  | _, _, _, .call _ _ _ _, he => by cases he
  | _, _, _, .group hl hinner hr, he => .group hl (hinner.target he) hr

theorem Unary.target : ∀ {ts e name}, Unary ts e → e.target? = some name → Target ts name
  | _, _, _, .operand (.primary h), he => h.target he
  | _, _, _, .operand (.increment _ _), he => by cases he
  | _, _, _, .increment _ _, he => by cases he
  | _, _, _, .negative _ _ _, he => by cases he
  | _, _, _, .operator _ _ _, he => by cases he

theorem Chain.target : ∀ {n ts e name}, Chain n ts e → e.target? = some name → Target ts name
  | _, _, _, _, .operand h, he => h.target he
  | _, _, _, _, .up h, he => h.target he
  | _, _, _, _, @Chain.join _ _ _ _ j _ _ _ _ _, he => by cases j <;> cases he

theorem Conditional.target : ∀ {ts e name}, Conditional ts e → e.target? = some name →
    Target ts name
  | _, _, _, .chain h, he => h.target he
  | _, _, _, .choice _ _ _ _ _, he => by cases he

/-- An expression that names a variable is a variable in parentheses. -/
theorem Expression.target : ∀ {ts e name}, Expression ts e → e.target? = some name →
    Target ts name
  | _, _, _, .conditional h, he => h.target he
  | _, _, _, .assign _ _ _, he => by cases he

end

/-- A single operand is a chain of every level. -/
theorem Unary.chain (h : Unary ts e) (n : Nat) : Chain n ts e := by
  induction n with
  | zero => exact .operand h
  | succ n ih => exact .up ih

theorem Unary.conditional (h : Unary ts e) : Conditional ts e :=
  .chain (h.chain 10)

theorem Primary.conditional {ts : List Token} {e : Expr} (h : Primary ts e) : Conditional ts e :=
  (Unary.operand (.primary h)).conditional

/-- A type starts with its keyword or with a name. -/
theorem TypeName.opens (h : TypeName ts name) :
    ∃ t us, ts = t :: us ∧ (isPrimitive t.kind = true ∨ t.kind = .identifier) := by
  cases h with
  | primitive ht => exact ⟨_, [], rfl, .inl (primitive_iff.1 ht)⟩
  | named ht _ => exact ⟨_, _, rfl, .inr ht⟩

def opensBlockStatement (k : Kind) : Bool :=
  opensStatement k || opensExpression k || isPrimitive k

/-- A statement starts with a kind of its own, or it is an expression and a semicolon. -/
theorem Statement.opens {s : Stmt} (h : Statement ts s) :
    (∃ t us, ts = t :: us ∧ opensStatement t.kind = true) ∨
      ∃ us e semi, ts = us ++ [semi] ∧ Expression us e ∧ semi.kind = .semi := by
  cases h with
  | expr he hsemi => exact .inr ⟨_, _, _, rfl, he, hsemi⟩
  | block h =>
    cases h with
    | mk hl _ _ => exact .inl ⟨_, _, rfl, by rw [hl]; rfl⟩
  | ifThen ht => exact .inl ⟨_, _, rfl, by rw [ht]; rfl⟩
  | ifElse ht => exact .inl ⟨_, _, rfl, by rw [ht]; rfl⟩
  | whileLoop ht => exact .inl ⟨_, _, rfl, by rw [ht]; rfl⟩
  | doLoop ht => exact .inl ⟨_, _, rfl, by rw [ht]; rfl⟩
  | forLoop ht => exact .inl ⟨_, _, rfl, by rw [ht]; rfl⟩
  | switch ht => exact .inl ⟨_, _, rfl, by rw [ht]; rfl⟩
  | brk ht => exact .inl ⟨_, _, rfl, by rw [ht]; rfl⟩
  | cont ht => exact .inl ⟨_, _, rfl, by rw [ht]; rfl⟩
  | ret ht => exact .inl ⟨_, _, rfl, by rw [ht]; rfl⟩
  | throw ht => exact .inl ⟨_, _, rfl, by rw [ht]; rfl⟩
  | tryCatch ht => exact .inl ⟨_, _, rfl, by rw [ht]; rfl⟩
  | empty ht => exact .inl ⟨_, _, rfl, by rw [ht]; rfl⟩

/-- A statement is not taken for a declaration. -/
theorem Statement.not_declares {ts : List Token} {s : Stmt} (h : Statement ts s)
    (rest : List Token) : startsDeclaration (ts ++ rest) = false := by
  rcases h.opens with ⟨t, us, rfl, ht⟩ | ⟨us, e, semi, rfl, he, hsemi⟩
  · refine startsDeclaration_cons (not_primitive_of_opensStatement ht) fun hname => ?_
    rw [hname] at ht
    cases ht
  · rw [List.append_assoc]
    exact he.opens.not_declares (by rw [hsemi]; rfl)

theorem BlockStatement.opens {ts : List Token} {ss : List Stmt} (h : BlockStatement ts ss) :
    ∃ t us, ts = t :: us ∧ opensBlockStatement t.kind = true := by
  cases h with
  | declaration h _ =>
    cases h with
    | mk htype _ =>
      obtain ⟨t, us, rfl, ht | ht⟩ := htype.opens
      · exact ⟨t, _, rfl, by simp [opensBlockStatement, ht]⟩
      · exact ⟨t, _, rfl, by rw [ht]; rfl⟩
  | statement h =>
    rcases h.opens with ⟨t, us, rfl, ht⟩ | ⟨us, e, semi, rfl, he, _⟩
    · exact ⟨t, us, rfl, by simp [opensBlockStatement, ht]⟩
    · obtain ⟨t, vs, rfl, ht, _⟩ := he.opens
      exact ⟨t, _, rfl, by simp [opensBlockStatement, ht]⟩

/-- Every phrase of a block makes a statement at least. -/
theorem BlockStatement.ne_nil {ss : List Stmt} (h : BlockStatement ts ss) : ss ≠ [] := by
  cases h with
  | declaration h _ =>
    cases h with
    | mk _ hdecls => cases hdecls <;> nofun
  | statement _ => nofun

/-- The tokens end with a semicolon or a closing brace. -/
def Closes (ts : List Token) : Prop :=
  ∃ us t, ts = us ++ [t] ∧ (t.kind = .semi ∨ t.kind = .rightCurly)

theorem Closes.of_semi (ht : t.kind = .semi) : Closes (ts ++ [t]) :=
  ⟨ts, t, rfl, .inl ht⟩

theorem Closes.after (h : Closes ts) (us : List Token) : Closes (us ++ ts) := by
  obtain ⟨vs, t, rfl, ht⟩ := h
  exact ⟨us ++ vs, t, (List.append_assoc _ _ _).symm, ht⟩

/-- Behind tokens that close stands nothing, or what closes too. -/
theorem Closes.before (h : Closes ts) (hus : us = [] ∨ Closes us) : Closes (ts ++ us) := by
  rcases hus with rfl | hus
  · rwa [List.append_nil]
  · exact hus.after ts

theorem Block.closes {body : List Stmt} (h : Block ts body) : Closes ts := by
  cases h with
  | mk _ _ hr => exact ⟨_, _, rfl, .inr hr⟩

theorem Finally.closes {cleanup : Option (List Stmt)} (h : Finally ts cleanup) :
    ts = [] ∨ Closes ts := by
  cases h with
  | absent => exact .inl rfl
  | present _ hbody => exact .inr (hbody.closes.after [_])

mutual

theorem Catches.closes : ∀ {ts catches}, Catches ts catches → ts = [] ∨ Closes ts
  | _, _, .nil => .inl rfl
  | _, _, .cons _ _ hbody hmore => .inr ((hbody.closes.after _).before hmore.closes)

/-- Every statement ends with a semicolon or a closing brace. -/
theorem Statement.closes : ∀ {ts s}, Statement ts s → Closes ts
  | _, _, .block h => h.closes
  | _, _, .ifThen _ _ h => h.closes.after _
  | _, _, .ifElse _ _ _ _ _ h => (h.closes.after [_]).after _
  | _, _, .whileLoop _ _ h => h.closes.after _
  | _, _, .doLoop _ _ _ _ hsemi => .of_semi hsemi
  | _, _, .forLoop _ _ h => h.closes.after _
  | _, _, .switch _ _ _ _ hr => ⟨_, _, rfl, .inr hr⟩
  | _, _, .brk _ hsemi => ⟨[_], _, rfl, .inl hsemi⟩
  | _, _, .cont _ hsemi => ⟨[_], _, rfl, .inl hsemi⟩
  | _, _, .ret _ _ hsemi => .of_semi hsemi
  | _, _, .throw _ _ hsemi => .of_semi hsemi
  | _, _, .tryCatch _ hbody hcatches hcleanup _ =>
    ((hbody.closes.after [_]).before hcatches.closes).before hcleanup.closes
  | _, _, .empty ht => ⟨[], _, rfl, .inl ht⟩
  | _, _, .expr _ hsemi => .of_semi hsemi

theorem BlockStatement.closes : ∀ {ts ss}, BlockStatement ts ss → Closes ts
  | _, _, .declaration _ hsemi => .of_semi hsemi
  | _, _, .statement h => h.closes

/-- A program with statements ends like its last one. -/
theorem Statements.closes : ∀ {ts ss}, Statements ts ss → ts = [] ∧ ss = [] ∨ Closes ts
  | _, _, .nil => .inl ⟨rfl, rfl⟩
  | _, _, .cons h hmore => .inr (h.closes.before (hmore.closes.imp_left And.left))

end

end Jminus.Grammar
