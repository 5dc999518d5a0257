import Jminus.Proofs.Grammar
import Mathlib

/-!
In whatever the grammar accepts, braces are closed as often as they are opened.
-/
namespace Jminus.Grammar

/-- An opening brace counts for one, and a closing brace against it. -/
def curl : Kind → Int
  | .leftCurly => 1
  | .rightCurly => -1
  | _ => 0

def braces (ts : List Token) : Int := (ts.map fun t => curl t.kind).sum

section Sums

variable (t : Token) (ts us : List Token)

@[simp] theorem braces_nil : braces [] = 0 := rfl

@[simp] theorem braces_cons : braces (t :: ts) = curl t.kind + braces ts := rfl

@[simp] theorem braces_append : braces (ts ++ us) = braces ts + braces us := by
  simp [braces]

end Sums

section Kinds

variable {k : Kind}

theorem Primitive.curl (h : Primitive k) : curl k = 0 := by
  cases h <;> rfl

theorem Numeric.curl (h : Numeric k) : curl k = 0 := by
  cases h <;> rfl

theorem Denotes.curl {d : Decoded} {form : LiteralForm} (h : Denotes k d form) : curl k = 0 := by
  cases h <;> rfl

theorem Increments.curl {op : IncrementOp} (h : Increments k op) : curl k = 0 := by
  cases h <;> rfl

theorem Prefixes.curl {op : UnaryOp} (h : Prefixes k op) : curl k = 0 := by
  cases h <;> rfl

theorem Assigns.curl {op : AssignOp} (h : Assigns k op) : curl k = 0 := by
  cases h <;> rfl

theorem Joins.curl {n : Nat} {j : Parser.Joiner} (h : Joins n k j) : curl k = 0 := by
  cases h <;> rfl

theorem curl_of_eq {k' : Kind} (h : k = k') (hk : curl k' = 0) : curl k = 0 := h ▸ hk

end Kinds

theorem Qualified.balanced {text text' : String} {ts : List Token} (h : Qualified text ts text') :
    braces ts = 0 := by
  induction h with
  | nil => rfl
  | cons hdot hname _ ih => simp [curl, hdot, hname, ih]

theorem TypeName.balanced {ts : List Token} {name : Name} (h : TypeName ts name) :
    braces ts = 0 := by
  cases h with
  | primitive hk => simp [hk.curl]
  | named hk hmore => simp [curl, hk, hmore.balanced]

/-- Parts without braces of their own are balanced. -/
theorem Target.balanced {ts : List Token} {name : Name} (h : Target ts name) : braces ts = 0 := by
  induction h with
  | var hk => simp [curl, hk]
  | group hl _ hr ih => simp [curl, hl, hr, ih]

mutual

theorem Primary.balanced : ∀ {ts e}, Primary ts e → braces ts = 0
  | _, _, .literal h => by simp [h.curl]
  | _, _, .var ht => by simp [curl, ht]
  | _, _, .new ht hname hl hr => by simp [curl, ht, hl, hr, hname.balanced]
  | _, _, .call ht hl hargs hr => by simp [curl, ht, hl, hr, Arguments.balanced hargs]
  | _, _, .group hl he hr => by simp [curl, hl, hr, Expression.balanced he]

theorem Arguments.balanced : ∀ {ts es}, Arguments ts es → braces ts = 0
  | _, _, .none => rfl
  | _, _, .some h => Expressions.balanced h

theorem Expressions.balanced : ∀ {ts es}, Expressions ts es → braces ts = 0
  | _, _, .one h => Expression.balanced h
  | _, _, .more he hcomma hes => by
    simp [curl, hcomma, Expression.balanced he, Expressions.balanced hes]

theorem Postfix.balanced : ∀ {ts e}, Postfix ts e → braces ts = 0
  | _, _, .primary h => Primary.balanced h
  | _, _, .increment htarget h => by simp [htarget.balanced, h.curl]

theorem Unary.balanced : ∀ {ts e}, Unary ts e → braces ts = 0
  | _, _, .operand h => Postfix.balanced h
  | _, _, .increment h htarget => by simp [htarget.balanced, h.curl]
  | _, _, .negative ht hu _ => by simp [curl_of_eq ht rfl, hu.curl]
  | _, _, .operator h he _ => by simp [h.curl, Unary.balanced he]

theorem Chain.balanced : ∀ {n ts e}, Chain n ts e → braces ts = 0
  | _, _, _, .operand h => Unary.balanced h
  | _, _, _, .up h => Chain.balanced h
  | _, _, _, .join hl hj hr => by simp [Chain.balanced hl, hj.curl, Chain.balanced hr]

theorem Conditional.balanced : ∀ {ts e}, Conditional ts e → braces ts = 0
  | _, _, .chain h => Chain.balanced h
  | _, _, .choice hc hq ha hcolon hb => by
    simp [curl, hq, hcolon, Chain.balanced hc, Expression.balanced ha, Conditional.balanced hb]

/-- An expression has no braces at all. -/
theorem Expression.balanced : ∀ {ts e}, Expression ts e → braces ts = 0
  | _, _, .conditional h => Conditional.balanced h
  | _, _, .assign htarget hop hvalue => by
    simp [htarget.balanced, hop.curl, Expression.balanced hvalue]

end

section Parts

variable {ts : List Token}

theorem Parenthesized.balanced {e : Expr} (h : Parenthesized ts e) : braces ts = 0 := by
  cases h with
  | mk hl he hr => simp [curl, hl, hr, he.balanced]

theorem Maybe.balanced {part : Option Expr} (h : Maybe ts part) : braces ts = 0 := by
  cases h with
  | absent => rfl
  | present he => exact he.balanced

theorem Initializer.balanced {init : Option Expr} (h : Initializer ts init) : braces ts = 0 := by
  cases h with
  | absent => rfl
  | present ht he => simp [curl, ht, he.balanced]

theorem Declaration.balanced {decls : List Stmt} (h : Declaration ts decls) : braces ts = 0 := by
  obtain ⟨htype, hdecls⟩ := h
  rw [braces_append, htype.balanced, zero_add]
  induction hdecls with
  | one ht hinit => simp [curl, ht, hinit.balanced]
  | more ht hinit hcomma _ ih => simp [curl, ht, hcomma, hinit.balanced, ih]

theorem ForInit.balanced {init : List Stmt} (h : ForInit ts init) : braces ts = 0 := by
  cases h with
  | none => rfl
  | declaration h => exact h.balanced
  | expressions h => exact h.balanced

theorem ForHeader.balanced {init : List Stmt} {cond : Option Expr} {update : List Expr}
    (h : ForHeader ts init cond update) : braces ts = 0 := by
  cases h with
  | mk hl hinit hs₁ hcond hs₂ hupdate hr =>
    simp [curl, hl, hs₁, hs₂, hr, hinit.balanced, hcond.balanced, hupdate.balanced]

theorem CaseLabel.balanced {label : Option Expr} (h : CaseLabel ts label) : braces ts = 0 := by
  cases h with
  | default ht hcolon => simp [curl, ht, hcolon]
  | case ht he hcolon => simp [curl, ht, hcolon, he.balanced]

theorem CaseLabels.balanced {labels : List (Option Expr)} (h : CaseLabels ts labels) :
    braces ts = 0 := by
  induction h with
  | one h => exact h.balanced
  | more h _ ih => simp [h.balanced, ih]

theorem CatchHeader.balanced {type name : Name} (h : CatchHeader ts type name) :
    braces ts = 0 := by
  cases h with
  | mk hl htype ht hr => simp [curl, hl, ht, hr, htype.balanced]

end Parts

mutual

/-- The braces of a statement are those of its blocks and of a switch. -/
theorem Statement.balanced : ∀ {ts s}, Statement ts s → braces ts = 0
  | _, _, .block h => Block.balanced h
  | _, _, .ifThen ht hc hs => by simp [curl, ht, hc.balanced, Statement.balanced hs]
  | _, _, .ifElse ht hc hs _ he hs' => by
    simp [curl, ht, he, hc.balanced, Statement.balanced hs, Statement.balanced hs']
  | _, _, .whileLoop ht hc hs => by simp [curl, ht, hc.balanced, Statement.balanced hs]
  | _, _, .doLoop ht hs hw hc hsemi => by
    simp [curl, ht, hw, hsemi, hc.balanced, Statement.balanced hs]
  | _, _, .forLoop ht hheader hs => by simp [curl, ht, hheader.balanced, Statement.balanced hs]
  | _, _, .switch ht hc hl hgs hr => by
    simp [curl, ht, hl, hr, hc.balanced, Groups.balanced hgs]
  | _, _, .brk ht hsemi => by simp [curl, ht, hsemi]
  | _, _, .cont ht hsemi => by simp [curl, ht, hsemi]
  | _, _, .ret ht hvalue hsemi => by simp [curl, ht, hsemi, hvalue.balanced]
  | _, _, .throw ht hvalue hsemi => by simp [curl, ht, hsemi, hvalue.balanced]
  | _, _, .tryCatch ht hbody hcs hfs _ => by
    simp [curl, ht, Block.balanced hbody, Catches.balanced hcs, Finally.balanced hfs]
  | _, _, .empty ht => by simp [curl, ht]
  | _, _, .expr he hsemi => by simp [curl, hsemi, he.balanced]

theorem Block.balanced : ∀ {ts ss}, Block ts ss → braces ts = 0
  | _, _, .mk hl hss hr => by simp [curl, hl, hr, Statements.balanced hss]

theorem BlockStatement.balanced : ∀ {ts ss}, BlockStatement ts ss → braces ts = 0
  | _, _, .declaration h hsemi => by simp [curl, hsemi, h.balanced]
  | _, _, .statement h => Statement.balanced h

/-- Statements close every brace that they open. -/
theorem Statements.balanced : ∀ {ts ss}, Statements ts ss → braces ts = 0
  | _, _, .nil => rfl
  | _, _, .cons h hss => by simp [BlockStatement.balanced h, Statements.balanced hss]

theorem Groups.balanced : ∀ {ts gs}, Groups ts gs → braces ts = 0
  | _, _, .nil => rfl
  | _, _, .cons hls hss hgs _ => by simp [hls.balanced, Statements.balanced hss, Groups.balanced hgs]

theorem Catches.balanced : ∀ {ts cs}, Catches ts cs → braces ts = 0
  | _, _, .nil => rfl
  | _, _, .cons ht hheader hbody hcs => by
    simp [curl, ht, hheader.balanced, Block.balanced hbody, Catches.balanced hcs]

theorem Finally.balanced : ∀ {ts cleanup}, Finally ts cleanup → braces ts = 0
  | _, _, .absent => rfl
  | _, _, .present ht h => by simp [curl, ht, Block.balanced h]

end

end Jminus.Grammar
