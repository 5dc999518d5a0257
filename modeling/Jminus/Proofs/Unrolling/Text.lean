import Jminus.Proofs.Grammar.Complete
import Jminus.Proofs.Grammar.Lines
import Jminus.Proofs.Outline.Program
import Jminus.Proofs.Unrolling
import Mathlib

/-!
Every unrolled program can be written down.

The tokens of the program are moved to one line, and those of the body of an unrolled loop are
written twice; its braces and its `while` are there already. So the new text needs no tokens but
those of the old one.
-/
namespace Jminus

mutual

/-- Lines do not matter to what a statement is unrolled to. -/
theorem Stmt.Unrolled.onLine (n : Nat) : ∀ {s s'}, Stmt.Unrolled s s' → s.Unrolled (s'.onLine n)
  | _, _, .expr he => .expr (he.trans (Expr.unlined_onLine n _).symm)
  | _, _, .var ht hname hinit => .var ht hname (hinit.trans (Expr.unlined_onLine_option n _).symm)
  | _, _, .block hss => .block (hss.onLine n)
  | _, _, .ifThen hc hs => .ifThen (hc.trans (Expr.unlined_onLine n _).symm) (hs.onLine n)
  | _, _, .ifElse hc hs ht =>
    .ifElse (hc.trans (Expr.unlined_onLine n _).symm) (hs.onLine n) (ht.onLine n)
  | _, _, .whileLoop hc hs => .whileLoop (hc.trans (Expr.unlined_onLine n _).symm) (hs.onLine n)
  | _, _, .doLoop hs hc => .doLoop (hs.onLine n) (hc.trans (Expr.unlined_onLine n _).symm)
  | _, _, .forLoop his hc hus hs =>
    .forLoop (his.onLine n) (hc.trans (Expr.unlined_onLine_option n _).symm)
      (hus.trans (Expr.unlined_onLine_list n _).symm) (hs.onLine n)
  | _, _, .switch he hgs => .switch (he.trans (Expr.unlined_onLine n _).symm) (hgs.onLine n)
  | _, _, .brk => .brk
  | _, _, .cont => .cont
  | _, _, .ret he => .ret (he.trans (Expr.unlined_onLine_option n _).symm)
  | _, _, .throw he => .throw (he.trans (Expr.unlined_onLine n _).symm)
  | _, _, .tryCatch hss hcs => .tryCatch (hss.onLine n) (hcs.onLine n)
  | _, _, .tryFinally hss hcs hfs => .tryFinally (hss.onLine n) (hcs.onLine n) (hfs.onLine n)
  | _, _, .empty => .empty
  | _, _, .unroll hjump hss₁ hss₂ hc =>
    .unroll hjump (hss₁.onLine n) (hss₂.onLine n) (hc.trans (Expr.unlined_onLine n _).symm)

theorem Stmt.AllUnrolled.onLine (n : Nat) :
    ∀ {ss ss'}, Stmt.AllUnrolled ss ss' → Stmt.AllUnrolled ss (Stmt.allOnLine n ss')
  | _, _, .nil => .nil
  | _, _, .cons hs hss => .cons (hs.onLine n) (hss.onLine n)

theorem SwitchGroup.AllUnrolled.onLine (n : Nat) : ∀ {gs gs'}, SwitchGroup.AllUnrolled gs gs' →
    SwitchGroup.AllUnrolled gs (SwitchGroup.allOnLine n gs')
  | _, _, .nil => .nil
  | _, _, .cons hls hss hgs =>
    .cons (hls.trans (Expr.unlined_onLine_labels n _).symm) (hss.onLine n) (hgs.onLine n)

theorem CatchClause.AllUnrolled.onLine (n : Nat) : ∀ {cs cs'}, CatchClause.AllUnrolled cs cs' →
    CatchClause.AllUnrolled cs (CatchClause.allOnLine n cs')
  | _, _, .nil => .nil
  | _, _, .cons ht hname hss hcs => .cons ht hname (hss.onLine n) (hcs.onLine n)

end


section Lists

/-- What statements that follow one another are unrolled to follows one another. -/
theorem Stmt.AllUnrolled.split {ss₁ ss₂ ss' : List Stmt} (h : Stmt.AllUnrolled (ss₁ ++ ss₂) ss') :
    ∃ ss₁' ss₂', ss' = ss₁' ++ ss₂' ∧ Stmt.AllUnrolled ss₁ ss₁' ∧ Stmt.AllUnrolled ss₂ ss₂' := by
  induction ss₁ generalizing ss' with
  | nil => exact ⟨[], ss', rfl, .nil, h⟩
  | cons s ss₁ ih =>
    cases h with
    | cons hs hss =>
      obtain ⟨ss₁', ss₂', rfl, h₁, h₂⟩ := ih hss
      exact ⟨_ :: ss₁', ss₂', rfl, .cons hs h₁, h₂⟩

theorem Stmt.allOnLine_append (n : Nat) (ss₁ ss₂ : List Stmt) :
    Stmt.allOnLine n (ss₁ ++ ss₂) = Stmt.allOnLine n ss₁ ++ Stmt.allOnLine n ss₂ := by
  simp only [Stmt.allOnLine_eq, List.map_append]

end Lists

namespace Grammar

open Lexer (Clean)

/-- Unrolling leaves no if without its else, and makes none. -/
theorem endsOpen_unrolled {s s' : Stmt} (h : s.Unrolled s') : endsOpen s' = endsOpen s := by
  cases h with
  | ifElse _ _ ht => simpa only [endsOpen] using endsOpen_unrolled ht
  | whileLoop _ hs => simpa only [endsOpen] using endsOpen_unrolled hs
  | forLoop _ _ _ hs => simpa only [endsOpen] using endsOpen_unrolled hs
  | _ => rfl
termination_by s

/-- The tree can be written with clean tokens on one line. -/
def Writable {α : Type} (n : Nat) (rule : List Token → α → Prop) (tree : α) : Prop :=
  ∃ ts, (∀ t ∈ ts, Clean t ∧ t.line = n) ∧ rule ts tree

section Writable

variable {n : Nat} {ts : List Token}

variable {t : Token} {decls decls' init init' : List Stmt}

theorem kind_onLine (n : Nat) {k : Kind} (h : t.kind = k) : (t.onLine n).kind = k := h

/-- A token may be moved to another line. -/
theorem clean_onLine (h : Clean t) : Clean (t.onLine n) ∧ (t.onLine n).line = n := by
  obtain ⟨c, cs, l, hl, hquiet, ht⟩ := h
  refine ⟨⟨c, cs, l, hl, hquiet, ?_⟩, rfl⟩
  rw [ht]
  rfl

theorem clean_onLine_all (h : ∀ t ∈ ts, Clean t) :
    ∀ t ∈ ts.map (Token.onLine n), Clean t ∧ t.line = n := by
  rintro _ hmem
  obtain ⟨t, ht, rfl⟩ := List.mem_map.1 hmem
  exact clean_onLine (h t ht)

/-- In a declaration there is nothing to unroll. -/
theorem Declarators.allOnLine_eq {type : Name} (h : Declarators type ts decls)
    (hdecls : Stmt.AllUnrolled decls decls') :
    Stmt.allOnLine n decls' = Stmt.allOnLine n decls := by
  induction h generalizing decls' with
  | one _ _ =>
    cases hdecls with
    | cons hs hss =>
      cases hs with
      | var htype hname hinit =>
        cases hss
        simp only [Stmt.allOnLine, Stmt.onLine, Name.onLine_eq n htype, Name.onLine_eq n hname,
          Expr.onLine_eq_option n hinit]
  | more _ _ _ _ ih =>
    cases hdecls with
    | cons hs hss =>
      cases hs with
      | var htype hname hinit =>
        simp only [Stmt.allOnLine, Stmt.onLine, Name.onLine_eq n htype, Name.onLine_eq n hname,
          Expr.onLine_eq_option n hinit, ih hss]

theorem Declaration.allOnLine_eq (h : Declaration ts decls) (hdecls : Stmt.AllUnrolled decls decls') :
    Stmt.allOnLine n decls' = Stmt.allOnLine n decls := by
  cases h with
  | mk _ h => exact h.allOnLine_eq hdecls

theorem exprs_allOnLine_eq {es : List Expr} {ss : List Stmt}
    (h : Stmt.AllUnrolled (es.map .expr) ss) :
    Stmt.allOnLine n ss = Stmt.allOnLine n (es.map .expr) := by
  induction es generalizing ss with
  | nil =>
    cases h
    rfl
  | cons e es ih =>
    cases h with
    | cons hs hss =>
      cases hs with
      | expr he => simp only [List.map_cons, Stmt.allOnLine, ih hss, Stmt.onLine, Expr.onLine_eq n he]

theorem ForInit.allOnLine_eq (h : ForInit ts init) (hinit : Stmt.AllUnrolled init init') :
    Stmt.allOnLine n init' = Stmt.allOnLine n init := by
  cases h with
  | none =>
    cases hinit
    rfl
  | declaration h => exact h.allOnLine_eq hinit
  | expressions _ => exact exprs_allOnLine_eq hinit

theorem ForHeader.allOnLine_eq {cond : Option Expr} {update : List Expr}
    (h : ForHeader ts init cond update) (hinit : Stmt.AllUnrolled init init') :
    Stmt.allOnLine n init' = Stmt.allOnLine n init := by
  cases h with
  | mk _ h _ _ _ _ _ => exact h.allOnLine_eq hinit

/-- A block brings its braces. -/
theorem Statement.braces {body : List Stmt} (h : Statement ts (.block body)) :
    ∃ l ∈ ts, ∃ r ∈ ts, l.kind = .leftCurly ∧ r.kind = .rightCurly := by
  cases h with
  | block h =>
    cases h with
    | mk hl _ hr => exact ⟨_, by simp, _, by simp, hl, hr⟩

end Writable

section Unrolled

variable (n : Nat)

mutual

/-- What a statement is unrolled to can be written if the statement was. -/
theorem Statement.unrolled : ∀ {ts s s'}, Statement ts s → (∀ t ∈ ts, Clean t) → s.Unrolled s' →
    Writable n Statement (s'.onLine n)
  | _, _, _, .block h, hts, hu => by
    cases hu with
    | block hss =>
      obtain ⟨us, hus, h'⟩ := Block.unrolled h hts hss
      exact ⟨us, hus, .block h'⟩
  | _, _, _, .ifThen ht hc hs, hts, hu => by
    simp only [List.forall_mem_append, List.forall_mem_cons] at hts
    cases hu with
    | ifThen hcond hs' =>
      obtain ⟨us, hus, h'⟩ := Statement.unrolled hs hts.2 hs'
      rw [Stmt.onLine, ← Expr.onLine_eq n hcond]
      refine ⟨_, ?_, .ifThen (kind_onLine n ht) (hc.onLine n) h'⟩
      simp only [List.forall_mem_append, List.forall_mem_cons]
      exact ⟨⟨clean_onLine hts.1.1, clean_onLine_all hts.1.2⟩, hus⟩
  | _, _, _, .ifElse ht hc hs hopen he hs₂, hts, hu => by
    simp only [List.forall_mem_append, List.forall_mem_cons] at hts
    obtain ⟨⟨⟨htok, hcs⟩, hts₁⟩, hetok, hts₂⟩ := hts
    cases hu with
    | ifElse hcond hs' hs₂' =>
      obtain ⟨us, hus, h'⟩ := Statement.unrolled hs hts₁ hs'
      obtain ⟨vs, hvs, h₂'⟩ := Statement.unrolled hs₂ hts₂ hs₂'
      rw [Stmt.onLine, ← Expr.onLine_eq n hcond]
      refine ⟨_, ?_, .ifElse (kind_onLine n ht) (hc.onLine n) h'
        ((endsOpen_unrolled (hs'.onLine n)).trans hopen) (kind_onLine n he) h₂'⟩
      simp only [List.forall_mem_append, List.forall_mem_cons]
      exact ⟨⟨⟨clean_onLine htok, clean_onLine_all hcs⟩, hus⟩, clean_onLine hetok, hvs⟩
  | _, _, _, .whileLoop ht hc hs, hts, hu => by
    simp only [List.forall_mem_append, List.forall_mem_cons] at hts
    cases hu with
    | whileLoop hcond hs' =>
      obtain ⟨us, hus, h'⟩ := Statement.unrolled hs hts.2 hs'
      rw [Stmt.onLine, ← Expr.onLine_eq n hcond]
      refine ⟨_, ?_, .whileLoop (kind_onLine n ht) (hc.onLine n) h'⟩
      simp only [List.forall_mem_append, List.forall_mem_cons]
      exact ⟨⟨clean_onLine hts.1.1, clean_onLine_all hts.1.2⟩, hus⟩
  | _, _, _, .doLoop ht hs hw hc hsemi, hts, hu => by
    simp only [List.forall_mem_append, List.forall_mem_cons, List.not_mem_nil, false_implies,
      implies_true, and_true] at hts
    obtain ⟨⟨⟨htok, hts⟩, hwtok, hcs⟩, hsemitok⟩ := hts
    have hbody {s' : Stmt} (h : Stmt.Unrolled _ s') := Statement.unrolled hs hts h
    cases hu with
    | doLoop hs' hcond =>
      obtain ⟨us, hus, h'⟩ := hbody hs'
      rw [Stmt.onLine, ← Expr.onLine_eq n hcond]
      refine ⟨_, ?_, .doLoop (kind_onLine n ht) h' (kind_onLine n hw) (hc.onLine n)
        (kind_onLine n hsemi)⟩
      simp only [List.forall_mem_append, List.forall_mem_cons, List.not_mem_nil, false_implies,
      implies_true, and_true]
      exact ⟨⟨⟨clean_onLine htok, hus⟩, clean_onLine hwtok, clean_onLine_all hcs⟩,
        clean_onLine hsemitok⟩
    | unroll _ hss₁ hss₂ hcond =>
      -- The body is written twice, and its braces once more around all.
      obtain ⟨us, hus, h₁⟩ := hbody (.block hss₁)
      obtain ⟨vs, hvs, h₂⟩ := hbody (.block hss₂)
      obtain ⟨l, hl, r, hr, hlkind, hrkind⟩ := hs.braces
      have hloop := Statement.whileLoop (kind_onLine n hw) (hc.onLine n) h₂
      rw [Expr.onLine_eq n hcond] at hloop
      have hinner := Statements.cons (.statement h₁) (.cons (.statement hloop) .nil)
      refine ⟨_, ?_, .block (.mk (kind_onLine n hlkind) hinner (kind_onLine n hrkind))⟩
      simp only [List.forall_mem_append, List.forall_mem_cons, List.not_mem_nil, false_implies,
        implies_true, and_true]
      exact ⟨⟨clean_onLine (hts l hl), hus, ⟨clean_onLine hwtok, clean_onLine_all hcs⟩, hvs⟩,
        clean_onLine (hts r hr)⟩
  | _, _, _, .forLoop ht hheader hs, hts, hu => by
    simp only [List.forall_mem_append, List.forall_mem_cons] at hts
    cases hu with
    | forLoop hinit hcond hupdate hs' =>
      obtain ⟨us, hus, h'⟩ := Statement.unrolled hs hts.2 hs'
      rw [Stmt.onLine, hheader.allOnLine_eq hinit, ← Expr.onLine_eq_option n hcond,
        ← Expr.onLine_eq_list n hupdate]
      refine ⟨_, ?_, .forLoop (kind_onLine n ht) (hheader.onLine n) h'⟩
      simp only [List.forall_mem_append, List.forall_mem_cons]
      exact ⟨⟨clean_onLine hts.1.1, clean_onLine_all hts.1.2⟩, hus⟩
  | _, _, _, .switch ht hc hl hgs hr, hts, hu => by
    simp only [List.forall_mem_append, List.forall_mem_cons, List.not_mem_nil, false_implies,
      implies_true, and_true] at hts
    obtain ⟨⟨⟨htok, hcs⟩, hltok, hts⟩, hrtok⟩ := hts
    cases hu with
    | switch hsubject hgs' =>
      obtain ⟨us, hus, h'⟩ := Groups.unrolled hgs hts hgs'
      rw [Stmt.onLine, ← Expr.onLine_eq n hsubject]
      refine ⟨_, ?_, .switch (kind_onLine n ht) (hc.onLine n) (kind_onLine n hl) h'
        (kind_onLine n hr)⟩
      simp only [List.forall_mem_append, List.forall_mem_cons, List.not_mem_nil, false_implies,
      implies_true, and_true]
      exact ⟨⟨⟨clean_onLine htok, clean_onLine_all hcs⟩, clean_onLine hltok, hus⟩,
        clean_onLine hrtok⟩
  | _, _, _, .brk ht hsemi, hts, hu => by
    cases hu with
    | brk => exact ⟨_, clean_onLine_all hts, .brk (kind_onLine n ht) hsemi⟩
  | _, _, _, .cont ht hsemi, hts, hu => by
    cases hu with
    | cont => exact ⟨_, clean_onLine_all hts, .cont (kind_onLine n ht) hsemi⟩
  | _, _, _, .ret ht hvalue hsemi, hts, hu => by
    cases hu with
    | ret he =>
      rw [Stmt.onLine, ← Expr.onLine_eq_option n he]
      refine ⟨_, clean_onLine_all hts, ?_⟩
      rw [List.map_append]
      exact .ret (kind_onLine n ht) (hvalue.onLine n) hsemi
  | _, _, _, .throw ht hvalue hsemi, hts, hu => by
    cases hu with
    | throw he =>
      rw [Stmt.onLine, ← Expr.onLine_eq n he]
      refine ⟨_, clean_onLine_all hts, ?_⟩
      rw [List.map_append]
      exact .throw (kind_onLine n ht) (hvalue.onLine n) hsemi
  | _, _, _, .tryCatch ht hbody hcs hfs hsome, hts, hu => by
    simp only [List.forall_mem_append, List.forall_mem_cons] at hts
    obtain ⟨⟨⟨htok, hts₁⟩, hts₂⟩, hts₃⟩ := hts
    have hcleanup {body body' : List Stmt} (h : _ = some body)
        (hbody' : Stmt.AllUnrolled body body') := Finally.unrolled hfs hts₃ h hbody'
    cases hu with
    | tryCatch hss hcatches =>
      obtain ⟨us, hus, h₁⟩ := Block.unrolled hbody hts₁ hss
      obtain ⟨vs, hvs, h₂⟩ := Catches.unrolled hcs hts₂ hcatches
      refine ⟨_, ?_, .tryCatch (kind_onLine n ht) h₁ h₂ .absent ?_⟩
      · simp only [List.forall_mem_append, List.forall_mem_cons, List.not_mem_nil, false_implies,
          implies_true, and_true]
        exact ⟨⟨clean_onLine htok, hus⟩, hvs⟩
      · intro hnil
        cases hcatches with
        | nil => exact absurd rfl (hsome rfl)
        | cons => cases hnil
    | tryFinally hss hcatches hfinal =>
      obtain ⟨us, hus, h₁⟩ := Block.unrolled hbody hts₁ hss
      obtain ⟨vs, hvs, h₂⟩ := Catches.unrolled hcs hts₂ hcatches
      obtain ⟨ws, hws, h₃⟩ := hcleanup rfl hfinal
      refine ⟨_, ?_, .tryCatch (kind_onLine n ht) h₁ h₂ h₃ (by simp)⟩
      simp only [List.forall_mem_append, List.forall_mem_cons]
      exact ⟨⟨⟨clean_onLine htok, hus⟩, hvs⟩, hws⟩
  | _, _, _, .empty ht, hts, hu => by
    cases hu with
    | empty => exact ⟨_, clean_onLine_all hts, .empty ht⟩
  | _, _, _, .expr he hsemi, hts, hu => by
    cases hu with
    | expr he' =>
      rw [Stmt.onLine, ← Expr.onLine_eq n he']
      refine ⟨_, clean_onLine_all hts, ?_⟩
      rw [List.map_append]
      exact .expr (he.onLine n) hsemi

theorem Block.unrolled : ∀ {ts ss ss'}, Block ts ss → (∀ t ∈ ts, Clean t) →
    Stmt.AllUnrolled ss ss' → Writable n Block (Stmt.allOnLine n ss')
  | _, _, _, .mk hl hss hr, hts, hu => by
    simp only [List.forall_mem_append, List.forall_mem_cons, List.not_mem_nil, false_implies,
      implies_true, and_true] at hts
    obtain ⟨us, hus, h'⟩ := Statements.unrolled hss hts.1.2 hu
    refine ⟨_, ?_, .mk (kind_onLine n hl) h' (kind_onLine n hr)⟩
    simp only [List.forall_mem_append, List.forall_mem_cons, List.not_mem_nil, false_implies,
      implies_true, and_true]
    exact ⟨⟨clean_onLine hts.1.1, hus⟩, clean_onLine hts.2⟩

theorem BlockStatement.unrolled : ∀ {ts ss ss'}, BlockStatement ts ss → (∀ t ∈ ts, Clean t) →
    Stmt.AllUnrolled ss ss' → Writable n BlockStatement (Stmt.allOnLine n ss')
  | _, _, _, .declaration h hsemi, hts, hu => by
    rw [h.allOnLine_eq hu]
    refine ⟨_, clean_onLine_all hts, ?_⟩
    rw [List.map_append]
    exact .declaration (h.onLine n) hsemi
  | _, _, _, .statement h, hts, hu => by
    cases hu with
    | cons hs hss =>
      cases hss
      obtain ⟨us, hus, h'⟩ := Statement.unrolled h hts hs
      exact ⟨us, hus, .statement h'⟩

/-- Unrolled statements can be written one after the other. -/
theorem Statements.unrolled : ∀ {ts ss ss'}, Statements ts ss → (∀ t ∈ ts, Clean t) →
    Stmt.AllUnrolled ss ss' → Writable n Statements (Stmt.allOnLine n ss')
  | _, _, _, .nil, hts, hu => by
    cases hu
    exact ⟨[], by simp, .nil⟩
  | _, _, _, .cons h hss, hts, hu => by
    obtain ⟨hts₁, hts₂⟩ := List.forall_mem_append.1 hts
    obtain ⟨ss₁, ss₂, rfl, hu₁, hu₂⟩ := hu.split
    obtain ⟨us, hus, h₁⟩ := BlockStatement.unrolled h hts₁ hu₁
    obtain ⟨vs, hvs, h₂⟩ := Statements.unrolled hss hts₂ hu₂
    rw [Stmt.allOnLine_append]
    exact ⟨_, List.forall_mem_append.2 ⟨hus, hvs⟩, .cons h₁ h₂⟩

theorem Groups.unrolled : ∀ {ts gs gs'}, Groups ts gs → (∀ t ∈ ts, Clean t) →
    SwitchGroup.AllUnrolled gs gs' → Writable n Groups (SwitchGroup.allOnLine n gs')
  | _, _, _, .nil, hts, hu => by
    cases hu
    exact ⟨[], by simp, .nil⟩
  | _, _, _, .cons hls hss hgs hlast, hts, hu => by
    simp only [List.forall_mem_append] at hts
    cases hu with
    | cons hlabels hbody hgroups =>
      obtain ⟨us, hus, h₁⟩ := Statements.unrolled hss hts.1.2 hbody
      obtain ⟨vs, hvs, h₂⟩ := Groups.unrolled hgs hts.2 hgroups
      rw [SwitchGroup.allOnLine, ← Expr.onLine_eq_labels n hlabels]
      refine ⟨_, ?_, .cons (hls.onLine n) h₁ h₂ ?_⟩
      · simp only [List.forall_mem_append]
        exact ⟨⟨clean_onLine_all hts.1.1, hus⟩, hvs⟩
      · intro hnil
        cases hbody with
        | nil =>
          cases hlast rfl
          cases hgroups
          rfl
        | cons => cases hnil

theorem Catches.unrolled : ∀ {ts cs cs'}, Catches ts cs → (∀ t ∈ ts, Clean t) →
    CatchClause.AllUnrolled cs cs' → Writable n Catches (CatchClause.allOnLine n cs')
  | _, _, _, .nil, hts, hu => by
    cases hu
    exact ⟨[], by simp, .nil⟩
  | _, _, _, .cons ht hheader hbody hcs, hts, hu => by
    simp only [List.forall_mem_append, List.forall_mem_cons] at hts
    cases hu with
    | cons htype hname hss hcatches =>
      obtain ⟨us, hus, h₁⟩ := Block.unrolled hbody hts.1.2 hss
      obtain ⟨vs, hvs, h₂⟩ := Catches.unrolled hcs hts.2 hcatches
      rw [CatchClause.allOnLine, ← Name.onLine_eq n htype, ← Name.onLine_eq n hname]
      refine ⟨_, ?_, .cons (kind_onLine n ht) (hheader.onLine n) h₁ h₂⟩
      simp only [List.forall_mem_append, List.forall_mem_cons]
      exact ⟨⟨⟨clean_onLine hts.1.1.1, clean_onLine_all hts.1.1.2⟩, hus⟩, hvs⟩

theorem Finally.unrolled : ∀ {ts cleanup body body'}, Finally ts cleanup → (∀ t ∈ ts, Clean t) →
    cleanup = some body → Stmt.AllUnrolled body body' →
    Writable n Finally (some (Stmt.allOnLine n body'))
  | _, _, _, _, .absent, _, hsome, _ => by cases hsome
  | _, _, _, _, .present ht h, hts, rfl, hu => by
    simp only [List.forall_mem_cons] at hts
    obtain ⟨us, hus, h'⟩ := Block.unrolled h hts.2 hu
    refine ⟨_, ?_, .present (kind_onLine n ht) h'⟩
    simp only [List.forall_mem_cons]
    exact ⟨clean_onLine hts.1, hus⟩

end

end Unrolled

end Grammar

namespace Lexer

/-- A space before the tokens changes nothing. -/
theorem scanFrom_space (cs : List Char) (n : Nat) :
    scanFrom ⟨' ' :: cs, n⟩ = scanFrom ⟨cs, n⟩ := by
  have hnext : next ⟨' ' :: cs, n⟩ = next ⟨cs, n⟩ := next_congr (skipGap_blank n cs rfl)
  by_cases hkind : (next ⟨cs, n⟩).token.kind = .eof
  · rw [scanFrom_end hkind, scanFrom_end (by rw [hnext, hkind]), hnext]
  · rw [scanFrom_token hkind, scanFrom_token (by rwa [hnext]), hnext]

/-- Clean tokens on one line are read again from their lexemes with spaces between them. -/
theorem scanFrom_spaced {n : Nat} {ts : List Token} (hts : ∀ t ∈ ts, Clean t ∧ t.line = n) :
    (scanFrom ⟨(" ".intercalate (ts.map (·.lexeme))).toList, n⟩).diagnostics = [] ∧
      (scanFrom ⟨(" ".intercalate (ts.map (·.lexeme))).toList, n⟩).tokens =
        ts ++ [endOfText n] := by
  induction ts with
  | nil =>
    have hgap : skipGap n [] = ⟨[], n, none⟩ := by rw [skipGap]
    have hnext : next ⟨[], n⟩ = ⟨endOfText n, [], ⟨[], n⟩, false⟩ := by
      rw [next_end (by rw [hgap]), hgap]
      rfl
    change (scanFrom ⟨[], n⟩).diagnostics = [] ∧ (scanFrom ⟨[], n⟩).tokens = [endOfText n]
    rw [scanFrom_end (by rw [hnext]; rfl), hnext]
    exact ⟨rfl, rfl⟩
  | cons t ts ih =>
    obtain ⟨⟨ht, hline⟩, hts⟩ := List.forall_mem_cons.1 hts
    obtain ⟨ds, htext, hds, hscan⟩ : ∃ ds,
        (" ".intercalate ((t :: ts).map (·.lexeme))).toList = t.lexeme.toList ++ ds ∧ Apart ds ∧
          scanFrom ⟨ds, n⟩ = scanFrom ⟨(" ".intercalate (ts.map (·.lexeme))).toList, n⟩ := by
      cases ts with
      | nil => exact ⟨[], by simp, by simp [Apart], rfl⟩
      | cons u us =>
        refine ⟨' ' :: (" ".intercalate ((u :: us).map (·.lexeme))).toList, ?_, ?_,
          scanFrom_space _ n⟩
        · simp only [List.map_cons, String.intercalate_cons_cons, String.toList_append,
            List.append_assoc]
          rfl
        · rintro d ⟨⟩
          rfl
    have hnext := ht.next hds n
    have htoken : { t with line := n } = t := by rw [← hline]
    obtain ⟨hquiet, htokens⟩ := ih hts
    rw [htext, scanFrom_token (by rw [hnext]; exact ht.kind), hnext, hscan, hquiet, htokens, htoken]
    exact ⟨rfl, rfl⟩

end Lexer

/-- Every program that an accepted text is unrolled to has a text. -/
theorem Accepted.exists_unrolled {source : String} (h : Accepted source) {program : List Stmt}
    (hunrolled : Stmt.AllUnrolled (parsed source) program) :
    ∃ source', Accepted source' ∧ parsed source' = Stmt.allOnLine 1 program := by
  obtain ⟨ts, line, _, hts, hstatements⟩ := h.statements
  obtain ⟨us, hus, hwritten⟩ := hstatements.unrolled 1 hts hunrolled
  obtain ⟨hquiet, htokens'⟩ := Lexer.scanFrom_spaced hus
  have hprogram : Parser.program (us ++ [Lexer.endOfText 1]) = (Stmt.allOnLine 1 program, []) :=
    hwritten.program rfl
  have hscanned : (Lexer.scan (" ".intercalate (us.map (·.lexeme)))).tokens =
      us ++ [Lexer.endOfText 1] := htokens'
  refine ⟨" ".intercalate (us.map (·.lexeme)), ⟨?_, ?_⟩, ?_⟩
  · rw [Lexer.scan_failed, Lexer.scan, Lexer.Cursor.start, hquiet]
    rfl
  · rw [hscanned, hprogram]
  · rw [parsed, hscanned, hprogram]

end Jminus
