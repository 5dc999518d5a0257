import Jminus.Proofs.Grammar.Programs
import Jminus.Proofs.Outline.Readable
import Jminus.Proofs.Spacing
import Mathlib

/-!
The printed tree determines the program.

What is parsed from clean tokens is readable, rule by rule of the grammar. So two programs that are
printed alike have the same outlines, and from these both are read back: they differ in lines only.
-/
namespace Jminus

open Grammar (Denotes Numeric denotes_iff numeric_iff)
open Outline (WordText isPlain token?)

namespace Lexer

def isNumberPart (c : Char) : Bool :=
  c.isDigit || ['+', '-', '.', 'e', 'E', 'd', 'D', 'l', 'L'].contains c

section Numbers

variable {ds frac exp mark : List Char}

theorem Digits.number (h : Digits ds) : ∀ c ∈ ds, isNumberPart c = true := by
  intro c hc
  simp [isNumberPart, h c hc]

theorem Fraction.number (h : Fraction frac) : ∀ c ∈ frac, isNumberPart c = true := by
  cases h with
  | none => simp
  | some hds => exact List.forall_mem_cons.2 ⟨by decide, hds.number⟩

/-- An exponent is part of a number, with its sign. -/
theorem Exponent.number (h : Exponent exp) : ∀ c ∈ exp, isNumberPart c = true := by
  cases h with
  | none => simp
  | some he hsg _ hds =>
    refine List.forall_mem_append.2 ⟨List.forall_mem_cons.2 ⟨?_, ?_⟩, hds.number⟩
    · rcases he with rfl | rfl <;> decide
    · rcases hsg with rfl | rfl | rfl <;> simp [isNumberPart]

theorem DoubleMark.number (h : DoubleMark mark) : ∀ c ∈ mark, isNumberPart c = true := by
  cases h with
  | none => simp
  | some hd => rcases hd with rfl | rfl <;> simp [isNumberPart]

/-- Digits are no sign. -/
theorem Digits.head (h : Digits ds) (hne : ds ≠ []) (more : List Char) :
    ∃ c cs, ds ++ more = c :: cs ∧ c ≠ '-' := by
  cases ds with
  | nil => exact absurd rfl hne
  | cons d ds =>
    refine ⟨d, ds ++ more, rfl, ?_⟩
    rintro rfl
    cases h _ List.mem_cons_self

end Numbers

variable {k : Kind} {text : List Char}

/-- A number is a plain word without a sign of its own. -/
theorem Spelled.numeric (h : Spelled k text) (hk : Parser.isNumeric k = true) :
    (∀ c ∈ text, isPlain c = true) ∧ ∃ c cs, text = c :: cs ∧ c ≠ '-' := by
  suffices hnumber : (∀ c ∈ text, isNumberPart c = true) ∧ ∃ c cs, text = c :: cs ∧ c ≠ '-' from
    ⟨fun c hc => isPlain_of (by decide) (hnumber.1 c hc), hnumber.2⟩
  cases h with
  | symbol hmem =>
    have hnone : ∀ k ∈ Kind.separators ++ Kind.operators, Parser.isNumeric k = false := by decide
    cases (hnone k hmem).symm.trans hk
  | keyword hmem =>
    have hnone : ∀ k ∈ Kind.keywords, Parser.isNumeric k = false := by decide
    cases (hnone k hmem).symm.trans hk
  | int hne hds => exact ⟨hds.number, by simpa using hds.head hne []⟩
  | long hne hds hs =>
    refine ⟨List.forall_mem_append.2 ⟨hds.number, ?_⟩, hds.head hne _⟩
    rcases hs with rfl | rfl <;> simp [isNumberPart]
  | double hne hds hfrac hexp hmark _ =>
    simp only [List.append_assoc, List.forall_mem_append]
    exact ⟨⟨hds.number, hfrac.number, hexp.number, hmark.number⟩, hds.head hne _⟩
  | point hne hds hexp hmark =>
    simp only [List.cons_append, List.append_assoc, List.forall_mem_cons, List.forall_mem_append]
    exact ⟨⟨by decide, hds.number, hexp.number, hmark.number⟩, '.', _, rfl, by decide⟩
  | identifier => cases hk
  | rawChar => cases hk
  | escapedChar => cases hk
  | string => cases hk

/-- Characters and strings start with a quote. -/
theorem Spelled.quote (h : Spelled k text) (hk : k = .charLiteral ∨ k = .stringLiteral) :
    ∃ c cs, text = c :: cs ∧ (c = '\'' ∨ c = '"') := by
  cases h with
  | rawChar => exact ⟨_, _, rfl, .inl rfl⟩
  | escapedChar => exact ⟨_, _, rfl, .inl rfl⟩
  | string => exact ⟨_, _, rfl, .inr rfl⟩
  | symbol hmem => rcases hk with rfl | rfl <;> exact absurd hmem (by decide)
  | keyword hmem => rcases hk with rfl | rfl <;> exact absurd hmem (by decide)
  | int => simp at hk
  | long => simp at hk
  | double => simp at hk
  | point => simp at hk
  | identifier => simp at hk

namespace Clean

variable {t : Token}

theorem spelled (h : Clean t) : Spelled t.kind t.lexeme.toList := by
  obtain ⟨c, cs, l, hl, hquiet, ht⟩ := h
  rw [ht, Lexeme.token, String.toList_ofList]
  exact lexeme_spelled hl hquiet

/-- The text of a clean token is read as that token. -/
theorem token?_lexeme (h : Clean t) : token? t.lexeme.toList = some { t with line := 0 } := by
  obtain ⟨c, cs, l, hl, hquiet, ht⟩ := h
  obtain ⟨more, htext, hagain⟩ := lexeme_again hl hquiet
  have hread := hagain [] (by simp [Apart])
  rw [List.append_nil] at hread
  rw [ht, Lexeme.token, String.toList_ofList, htext, token?, hread]
  simp [Lexeme.token, htext]

theorem identifier (h : Clean t) (hk : t.kind = .identifier) (line : Nat) :
    Name.Plain ⟨t.lexeme, line⟩ := by
  have hspelled := h.spelled
  rw [hk] at hspelled
  unfold Name.Plain
  generalize t.lexeme.toList = text at hspelled ⊢
  cases hspelled with
  | identifier hc hcs _ => exact ⟨_, _, rfl, hc, fun d hd => .inl (hcs d hd)⟩
  | symbol hmem => exact absurd hmem (by decide)
  | keyword hmem => exact absurd hmem (by decide)

theorem keyword (h : Clean t) (hk : t.kind ∈ Kind.keywords) (line : Nat) :
    Name.Plain ⟨t.lexeme, line⟩ := by
  have hspelled := h.spelled
  have himage : t.lexeme.toList = t.kind.image.toList := by
    generalize t.kind = k, t.lexeme.toList = text at hspelled hk
    cases hspelled with
    | symbol => rfl
    | keyword => rfl
    | identifier => exact absurd hk (by decide)
    | int => exact absurd hk (by decide)
    | long => exact absurd hk (by decide)
    | double => exact absurd hk (by decide)
    | point => exact absurd hk (by decide)
    | rawChar => exact absurd hk (by decide)
    | escapedChar => exact absurd hk (by decide)
    | string => exact absurd hk (by decide)
  obtain ⟨hhead, hall⟩ := keyword_name _ hk
  unfold Name.Plain
  rw [himage]
  cases htext : t.kind.image.toList with
  | nil => simp [htext] at hhead
  | cons c cs =>
    rw [htext] at hhead hall
    refine ⟨c, cs, rfl, by simpa using hhead, fun d hd => .inl ?_⟩
    exact List.all_eq_true.1 hall d (List.mem_cons_of_mem c hd)

/-- A word that starts with a quote is closed by its own. -/
theorem quoted (h : Clean t) {c : Char} {cs : List Char} (htext : t.lexeme.toList = c :: cs)
    (hc : c = '\'' ∨ c = '"') : WordText t.lexeme.toList := by
  obtain ⟨d, ds, l, hl, hquiet, ht⟩ := h
  rw [ht, Lexeme.token, String.toList_ofList] at htext ⊢
  obtain ⟨more, hmore, _⟩ := lexeme_again hl hquiet
  obtain rfl : c = d := (List.cons.inj (htext.symm.trans hmore)).1
  obtain ⟨more, hmore, hagain⟩ := quoted_again hl hquiet hc
  rw [hmore]
  exact .quoted hc fun ds => ⟨_, hagain ds, hmore⟩

end Clean

/-- The kinds of literals are those of numbers, the quoted ones and some reserved words. -/
theorem literal_kinds {k : Kind} {d : Decoded} {form : LiteralForm} (h : Denotes k d form) :
    Parser.isNumeric k = true ∨ (k = .charLiteral ∨ k = .stringLiteral) ∨ k ∈ Kind.keywords := by
  cases h <;> decide

namespace Clean

variable {t : Token}

variable {form : LiteralForm}

/-- A literal is a word, plain or quoted, without a sign of its own. -/
theorem literalText (h : Clean t) (hform : Denotes t.kind t.decoded form) :
    WordText t.lexeme.toList ∧ ∃ c cs, t.lexeme.toList = c :: cs ∧ c ≠ '-' := by
  rcases literal_kinds hform with hk | hk | hk
  · obtain ⟨hplain, c, cs, htext, hc⟩ := h.spelled.numeric hk
    exact ⟨.plain (by rw [htext]; exact List.cons_ne_nil c cs) hplain, c, cs, htext, hc⟩
  · obtain ⟨c, cs, htext, hc⟩ := h.spelled.quote hk
    refine ⟨h.quoted htext hc, c, cs, htext, ?_⟩
    rintro rfl
    simp at hc
  · have hplain := h.keyword hk t.line
    refine ⟨hplain.wordText, ?_⟩
    obtain ⟨c, cs, htext, hc, _⟩ := hplain
    refine ⟨c, cs, htext, ?_⟩
    rintro rfl
    cases hc

theorem var (h : Clean t) (hk : t.kind = .identifier) :
    (Expr.var ⟨t.lexeme, t.line⟩).Readable := by
  have hplain := h.identifier hk t.line
  refine .of_leaf rfl hplain.wordText ?_
  obtain ⟨c, cs, htext, hc, _⟩ := hplain
  have hminus : c ≠ '-' := by
    rintro rfl
    cases hc
  rw [Outline.leaf?_of_token htext hminus h.token?_lexeme, if_pos hk]
  rfl

/-- A literal is read back from its text alone. -/
theorem literal (h : Clean t) (hform : Denotes t.kind t.decoded form) :
    (Expr.literal ⟨form, t.lexeme, t.line⟩).Readable := by
  obtain ⟨hword, c, cs, htext, hc⟩ := h.literalText hform
  have hk : t.kind ≠ .identifier := by
    intro hk
    rw [hk] at hform
    cases hform
  refine .of_leaf rfl hword ?_
  have hform' : Parser.literalForm? { t with line := 0 } = some form := denotes_iff.1 hform
  rw [Outline.leaf?_of_token htext hc h.token?_lexeme, if_neg hk, hform']
  rfl

theorem negative (h : Clean t) (hk : Numeric t.kind) (hform : Denotes t.kind t.decoded form) :
    (Expr.literal ⟨form, "-" ++ t.lexeme, t.line⟩).Readable := by
  have hform' : Parser.literalForm? { t with line := 0 } = some form := denotes_iff.1 hform
  refine .of_leaf rfl (.plain (by simp) ?_) ?_
  · have hminus : isPlain '-' = true := by decide
    rw [String.toList_append]
    exact List.forall_mem_append.2 ⟨by simpa using hminus, (h.spelled.numeric (numeric_iff.1 hk)).1⟩
  · rw [Outline.leaf?_minus h.token?_lexeme, hform']
    rfl

end Clean

end Lexer

namespace Grammar

open Lexer (Clean)

variable {line : Nat} {name : Name}

/-- Dots do not make a name less plain. -/
theorem Qualified.plain {text text' : String} {ts : List Token} (h : Qualified text ts text')
    (hts : ∀ t ∈ ts, Clean t) (htext : Name.Plain ⟨text, line⟩) : Name.Plain ⟨text', line⟩ := by
  induction h with
  | nil => exact htext
  | @cons text _ dot name _ _ hname _ ih =>
    simp only [List.forall_mem_cons] at hts
    refine ih hts.2.2 ?_
    obtain ⟨c, cs, hc, hstart, hcs⟩ := htext
    obtain ⟨d, ds, hd, hd', hds⟩ := hts.2.1.identifier hname line
    refine ⟨c, cs ++ '.' :: d :: ds, ?_, hstart, ?_⟩
    · rw [String.toList_append, String.toList_append, hc, hd]
      simp
    · simp only [List.forall_mem_append, List.forall_mem_cons]
      refine ⟨hcs, .inr trivial, .inl ?_, hds⟩
      simp [Lexer.isNamePart, hd']

theorem Primitive.keyword {k : Kind} (h : Primitive k) : k ∈ Kind.keywords := by
  cases h <;> decide

theorem TypeName.plain {ts : List Token} (h : TypeName ts name) (hts : ∀ t ∈ ts, Clean t) :
    name.Plain := by
  cases h with
  | primitive hk => exact (hts _ List.mem_cons_self).keyword hk.keyword _
  | named ht hmore =>
    obtain ⟨hfirst, hts⟩ := List.forall_mem_cons.1 hts
    exact hmore.plain hts (hfirst.identifier ht _)

theorem Target.plain {ts : List Token} (h : Target ts name) (hts : ∀ t ∈ ts, Clean t) :
    name.Plain := by
  induction h with
  | var ht => exact (hts _ List.mem_cons_self).identifier ht _
  | group _ _ _ ih =>
    simp only [List.forall_mem_append, List.forall_mem_cons] at hts
    exact ih hts.1.2

/-- Joined operands are readable if both are. -/
theorem join_readable {j : Parser.Joiner} {left right : Expr} (hleft : left.Readable)
    (hright : right.Readable) : (j.join line left right).Readable := by
  cases j with
  | binary op => exact .binary hleft hright
  | logical op => exact .logical hleft hright

mutual

theorem Primary.readable : ∀ {ts e}, Primary ts e → (∀ t ∈ ts, Clean t) → e.Readable
  | _, _, .literal hform, hts => (hts _ List.mem_cons_self).literal hform
  | _, _, .var ht, hts => (hts _ List.mem_cons_self).var ht
  | _, _, .new _ htype _ _, hts => by
    simp only [List.forall_mem_append, List.forall_mem_cons] at hts
    exact .new (htype.plain hts.1.2)
  | _, _, .call ht _ hargs _, hts => by
    simp only [List.forall_mem_append, List.forall_mem_cons] at hts
    exact .call (hts.1.1.identifier ht _) (hargs.readable hts.1.2.2)
  | _, _, .group _ hinner _, hts => by
    simp only [List.forall_mem_append, List.forall_mem_cons] at hts
    exact .group (hinner.readable hts.1.2)

theorem Arguments.readable : ∀ {ts es}, Arguments ts es → (∀ t ∈ ts, Clean t) →
    ∀ e ∈ es, e.Readable
  | _, _, .none, _ => List.forall_mem_nil _
  | _, _, .some hes, hts => hes.readable hts

theorem Expressions.readable : ∀ {ts es}, Expressions ts es → (∀ t ∈ ts, Clean t) →
    ∀ e ∈ es, e.Readable
  | _, _, .one he, hts => List.forall_mem_singleton.2 (he.readable hts)
  | _, _, .more he _ hmore, hts => by
    simp only [List.forall_mem_append, List.forall_mem_cons] at hts
    exact List.forall_mem_cons.2 ⟨he.readable hts.1, hmore.readable hts.2.2⟩

theorem Unary.readable : ∀ {ts e}, Unary ts e → (∀ t ∈ ts, Clean t) → e.Readable
  | _, _, .operand (.primary h), hts => h.readable hts
  | _, _, .operand (.increment htarget _), hts =>
    .after (htarget.plain (List.forall_mem_append.1 hts).1)
  | _, _, .increment _ htarget, hts => .before (htarget.plain (List.forall_mem_cons.1 hts).2)
  | _, _, .negative _ hk hform, hts => by
    simp only [List.forall_mem_cons] at hts
    exact hts.2.1.negative hk hform
  | _, _, .operator _ h _, hts => .unary (h.readable (List.forall_mem_cons.1 hts).2)

theorem Chain.readable : ∀ {n ts e}, Chain n ts e → (∀ t ∈ ts, Clean t) → e.Readable
  | _, _, _, .operand h, hts => h.readable hts
  | _, _, _, .up h, hts => h.readable hts
  | _, _, _, .join hleft _ hright, hts => by
    simp only [List.forall_mem_append, List.forall_mem_cons] at hts
    exact join_readable (hleft.readable hts.1) (hright.readable hts.2.2)

theorem Conditional.readable : ∀ {ts e}, Conditional ts e → (∀ t ∈ ts, Clean t) → e.Readable
  | _, _, .chain h, hts => h.readable hts
  | _, _, .choice hcond _ hthen _ helse, hts => by
    simp only [List.forall_mem_append, List.forall_mem_cons] at hts
    exact .conditional (hcond.readable hts.1.1) (hthen.readable hts.1.2.2)
      (helse.readable hts.2.2)

/-- An expression of clean tokens can be read back from its outline. -/
theorem Expression.readable : ∀ {ts e}, Expression ts e → (∀ t ∈ ts, Clean t) → e.Readable
  | _, _, .conditional h, hts => h.readable hts
  | _, _, .assign htarget _ hvalue, hts => by
    simp only [List.forall_mem_append, List.forall_mem_cons] at hts
    exact .assign (htarget.plain hts.1) (hvalue.readable hts.2.2)

end

section Parts

variable {ts : List Token}

theorem Parenthesized.readable {e : Expr} (h : Parenthesized ts e) (hts : ∀ t ∈ ts, Clean t) :
    e.Readable := by
  cases h with
  | mk _ he _ =>
    simp only [List.forall_mem_append, List.forall_mem_cons] at hts
    exact he.readable hts.1.2

theorem Maybe.readable {part : Option Expr} (h : Maybe ts part) (hts : ∀ t ∈ ts, Clean t) :
    ∀ e ∈ part, e.Readable := by
  cases h with
  | absent => simp
  | present he => simpa using he.readable hts

theorem Initializer.readable {init : Option Expr} (h : Initializer ts init)
    (hts : ∀ t ∈ ts, Clean t) : ∀ e ∈ init, e.Readable := by
  cases h with
  | absent => simp
  | present _ he => simpa using he.readable (List.forall_mem_cons.1 hts).2

/-- Each variable is read back with the type of them all. -/
theorem Declarators.readable {type : Name} {decls : List Stmt} (h : Declarators type ts decls)
    (hts : ∀ t ∈ ts, Clean t) (htype : type.Plain) : ∀ s ∈ decls, s.Readable := by
  induction h with
  | one ht hinit =>
    obtain ⟨hname, hts⟩ := List.forall_mem_cons.1 hts
    exact List.forall_mem_singleton.2 (.var htype (hname.identifier ht _) (hinit.readable hts))
  | more ht hinit _ _ ih =>
    simp only [List.forall_mem_append, List.forall_mem_cons] at hts
    exact List.forall_mem_cons.2
      ⟨.var htype (hts.1.1.identifier ht _) (hinit.readable hts.1.2), ih hts.2.2⟩

theorem Declaration.readable {decls : List Stmt} (h : Declaration ts decls)
    (hts : ∀ t ∈ ts, Clean t) : ∀ s ∈ decls, s.Readable := by
  cases h with
  | mk htype hdecls =>
    obtain ⟨hfront, hback⟩ := List.forall_mem_append.1 hts
    exact hdecls.readable hback (htype.plain hfront)

theorem ForInit.readable {init : List Stmt} (h : ForInit ts init) (hts : ∀ t ∈ ts, Clean t) :
    ∀ s ∈ init, s.Readable := by
  cases h with
  | none => simp
  | declaration h => exact h.readable hts
  | expressions h => simpa using fun e he => Stmt.Readable.expr (h.readable hts e he)

theorem CaseLabel.readable {label : Option Expr} (h : CaseLabel ts label)
    (hts : ∀ t ∈ ts, Clean t) : ∀ e ∈ label, e.Readable := by
  cases h with
  | default => simp
  | case _ he _ =>
    simp only [List.forall_mem_append, List.forall_mem_cons] at hts
    simpa using he.readable hts.1.2

theorem CaseLabels.readable {labels : List (Option Expr)} (h : CaseLabels ts labels)
    (hts : ∀ t ∈ ts, Clean t) : ∀ label ∈ labels, ∀ e ∈ label, e.Readable := by
  induction h with
  | one h => exact List.forall_mem_singleton.2 (h.readable hts)
  | more h _ ih =>
    obtain ⟨hfront, hback⟩ := List.forall_mem_append.1 hts
    exact List.forall_mem_cons.2 ⟨h.readable hfront, ih hback⟩

/-- The type and the name that a clause catches are plain words. -/
theorem CatchHeader.plain {type name : Name} (h : CatchHeader ts type name)
    (hts : ∀ t ∈ ts, Clean t) : type.Plain ∧ name.Plain := by
  cases h with
  | mk _ htype ht _ =>
    simp only [List.forall_mem_append, List.forall_mem_cons] at hts
    exact ⟨htype.plain hts.1.2, hts.2.1.identifier ht _⟩

end Parts

mutual

/-- A statement of clean tokens can be read back, part by part. -/
theorem Statement.readable : ∀ {ts s}, Statement ts s → (∀ t ∈ ts, Clean t) → s.Readable
  | _, _, .block h, hts => .block (h.readable hts)
  | _, _, .ifThen _ hcond hs, hts => by
    simp only [List.forall_mem_append, List.forall_mem_cons] at hts
    exact .ifElse (hcond.readable hts.1.2) (hs.readable hts.2) (by simp)
  | _, _, .ifElse _ hcond hs _ _ hs', hts => by
    simp only [List.forall_mem_append, List.forall_mem_cons] at hts
    have helse := hs'.readable hts.2.2
    exact .ifElse (hcond.readable hts.1.1.2) (hs.readable hts.1.2) (by simpa using helse)
  | _, _, .whileLoop _ hcond hbody, hts => by
    simp only [List.forall_mem_append, List.forall_mem_cons] at hts
    exact .whileLoop (hcond.readable hts.1.2) (hbody.readable hts.2)
  | _, _, .doLoop _ hbody _ hcond _, hts => by
    simp only [List.forall_mem_append, List.forall_mem_cons] at hts
    exact .doLoop (hcond.readable hts.1.2.2) (hbody.readable hts.1.1.2)
  | _, _, .forLoop _ (.mk _ hinit _ hcond _ hupdate _) hbody, hts => by
    simp only [List.forall_mem_append, List.forall_mem_cons] at hts
    obtain ⟨⟨_, ⟨⟨⟨_, hinits⟩, _, hconds⟩, _, hupdates⟩, _⟩, hbodies⟩ := hts
    exact .forLoop (hinit.readable hinits) (hcond.readable hconds) (hupdate.readable hupdates)
      (hbody.readable hbodies)
  | _, _, .switch _ hsubject _ hgroups _, hts => by
    simp only [List.forall_mem_append, List.forall_mem_cons] at hts
    exact .switch (hsubject.readable hts.1.1.2) (hgroups.readable hts.1.2.2)
  | _, _, .brk _ _, _ => .brk
  | _, _, .cont _ _, _ => .cont
  | _, _, .ret _ hvalue _, hts => by
    simp only [List.forall_mem_append, List.forall_mem_cons] at hts
    exact .ret (hvalue.readable hts.1.2)
  | _, _, .throw _ hvalue _, hts => by
    simp only [List.forall_mem_append, List.forall_mem_cons] at hts
    exact .throw (hvalue.readable hts.1.2)
  | _, _, .tryCatch _ hbody hcatches hcleanup _, hts => by
    simp only [List.forall_mem_append, List.forall_mem_cons] at hts
    exact .tryCatch (hbody.readable hts.1.1.2) (hcatches.readable hts.1.2)
      (hcleanup.readable hts.2)
  | _, _, .empty _, _ => .empty
  | _, _, .expr he _, hts => .expr (he.readable (List.forall_mem_append.1 hts).1)

theorem Block.readable : ∀ {ts body}, Block ts body → (∀ t ∈ ts, Clean t) →
    ∀ s ∈ body, s.Readable
  | _, _, .mk _ hbody _, hts => by
    simp only [List.forall_mem_append, List.forall_mem_cons] at hts
    exact hbody.readable hts.1.2

theorem BlockStatement.readable : ∀ {ts ss}, BlockStatement ts ss → (∀ t ∈ ts, Clean t) →
    ∀ s ∈ ss, s.Readable
  | _, _, .declaration hdecls _, hts => hdecls.readable (List.forall_mem_append.1 hts).1
  | _, _, .statement h, hts => List.forall_mem_singleton.2 (h.readable hts)

/-- Statements of clean tokens can be read back from their outlines. -/
theorem Statements.readable : ∀ {ts ss}, Statements ts ss → (∀ t ∈ ts, Clean t) →
    ∀ s ∈ ss, s.Readable
  | _, _, .nil, _ => List.forall_mem_nil _
  | _, _, .cons hfirst hmore, hts => by
    obtain ⟨hfront, hback⟩ := List.forall_mem_append.1 hts
    exact List.forall_mem_append.2 ⟨hfirst.readable hfront, hmore.readable hback⟩

theorem Groups.readable : ∀ {ts groups}, Groups ts groups → (∀ t ∈ ts, Clean t) →
    ∀ g ∈ groups, g.Readable
  | _, _, .nil, _ => List.forall_mem_nil _
  | _, _, .cons hlabels hbody hmore _, hts => by
    simp only [List.forall_mem_append] at hts
    exact List.forall_mem_cons.2
      ⟨⟨hlabels.readable hts.1.1, hbody.readable hts.1.2⟩, hmore.readable hts.2⟩

theorem Catches.readable : ∀ {ts catches}, Catches ts catches → (∀ t ∈ ts, Clean t) →
    ∀ c ∈ catches, c.Readable
  | _, _, .nil, _ => List.forall_mem_nil _
  | _, _, .cons _ hheader hbody hmore, hts => by
    simp only [List.forall_mem_append, List.forall_mem_cons] at hts
    obtain ⟨htype, hname⟩ := hheader.plain hts.1.1.2
    exact List.forall_mem_cons.2 ⟨⟨htype, hname, hbody.readable hts.1.2⟩, hmore.readable hts.2⟩

theorem Finally.readable : ∀ {ts cleanup}, Finally ts cleanup → (∀ t ∈ ts, Clean t) →
    ∀ ss ∈ cleanup, ∀ s ∈ ss, s.Readable
  | _, _, .absent, _ => by simp
  | _, _, .present _ hbody, hts => by
    have hbody := hbody.readable (List.forall_mem_cons.1 hts).2
    simpa using hbody

end

end Grammar

def parsed (source : String) : List Stmt := (Parser.program (Lexer.scan source).tokens).1

/-- The text is scanned and parsed without an error. -/
def Accepted (source : String) : Prop :=
  (Lexer.scan source).failed = false ∧ (Parser.program (Lexer.scan source).tokens).2 = []

instance (source : String) : Decidable (Accepted source) := inferInstanceAs (Decidable (_ ∧ _))

/-- An accepted text is clean tokens, which the grammar makes into its program. -/
theorem Accepted.statements {source : String} (h : Accepted source) :
    ∃ ts line, (Lexer.scan source).tokens = ts ++ [Lexer.endOfText line] ∧
      (∀ t ∈ ts, Lexer.Clean t) ∧ Grammar.Statements ts (parsed source) := by
  obtain ⟨hscan, hread⟩ := h
  obtain ⟨ts, line, htokens, hts⟩ := Lexer.scan_clean hscan
  refine ⟨ts, line, htokens, hts, ?_⟩
  rw [parsed, htokens]
  rw [htokens] at hread
  exact Grammar.program_sound rfl (fun t ht => (hts t ht).kind) (Prod.ext rfl hread)

theorem Accepted.readable {source : String} (h : Accepted source) :
    ∀ s ∈ parsed source, s.Readable := by
  obtain ⟨ts, line, _, hts, hstatements⟩ := h.statements
  exact hstatements.readable hts

/-- Readable statements are read back from their outlines, one by one. -/
theorem Stmt.Readable.map_unlined {ss : List Stmt} (h : ∀ s ∈ ss, s.Readable) :
    ss.map Stmt.unlined = (ss.map Stmt.outline).filterMap (·.sense.stmt) := by
  have hread := Stmt.Readable.stmts h
  rw [Outline.senses_eq, Stmt.outlines_eq, Stmt.unlinedAll_eq, List.filterMap_map] at hread
  exact hread.symm

/-- The printed tree determines the program. The programs of two texts without errors are printed
alike if and only if they are the same but for the lines in which their parts stand. -/
theorem renderProgram_eq_iff {source₁ source₂ : String} (h₁ : Accepted source₁)
    (h₂ : Accepted source₂) :
    Stmt.renderProgram (parsed source₁) = Stmt.renderProgram (parsed source₂) ↔
      (parsed source₁).map Stmt.unlined = (parsed source₂).map Stmt.unlined := by
  rw [← String.toList_inj, Stmt.toList_renderProgram, Stmt.toList_renderProgram]
  constructor
  · intro htext
    have houtlines : (parsed source₁).map Stmt.outline = (parsed source₂).map Stmt.outline := by
      refine Outline.lines_injective ?_ ?_ htext
      · simpa using fun s hs => (h₁.readable s hs).sound
      · simpa using fun s hs => (h₂.readable s hs).sound
    rw [Stmt.Readable.map_unlined h₁.readable, houtlines,
      ← Stmt.Readable.map_unlined h₂.readable]
  · intro hsame
    have houtlines := congrArg (List.map Stmt.outline) hsame
    simp only [List.map_map, Function.comp_def, Stmt.outline_unlined] at houtlines
    exact congrArg Outline.lines houtlines

/-- A name that is a head elsewhere, parentheses for a missing condition and for the empty statement,
and parentheses in a string. -/
theorem renderProgram_eq_iff_heads :
    Accepted "call++;for(;;);f(\") (\");" ∧ Accepted "call\n++;for(;;)//\n;f(\") (\");" ∧
      Stmt.renderProgram (parsed "call++;for(;;);f(\") (\");") =
        "(call ++)\n(for (init) () (update) ())\n(call f \") (\")\n" ∧
      (parsed "call++;for(;;);f(\") (\");").map Stmt.unlined =
        (parsed "call\n++;for(;;)//\n;f(\") (\");").map Stmt.unlined := by
  have h₁ : Accepted "call++;for(;;);f(\") (\");" := by decide +kernel
  have h₂ : Accepted "call\n++;for(;;)//\n;f(\") (\");" := by decide +kernel
  exact ⟨h₁, h₂, by decide +kernel, (renderProgram_eq_iff h₁ h₂).1 (by decide +kernel)⟩

end Jminus
