import Jminus.Proofs.Outline.Reader
import Mathlib

/-!
Trees that can be read back from their outlines, up to lines.

A tree is readable if its words are texts of words and its outline stands for it. Every way to build
a tree from readable ones gives a readable one.
-/
namespace Jminus

open Outline

/-- What can stand behind a head, and is no operator that would belong to it. -/
structure Outline.Operand (f : Outline) : Prop where
  sound : f.Sound
  increment? : Sense.increment? [f.sense] = none

namespace Outline

variable {f : Outline} {items : List Outline}

/-- Operands behind a head make no increment of it. -/
theorem increment?_senses (h : ∀ f ∈ items, f.Operand) : Sense.increment? (senses items) = none := by
  cases items with
  | nil => rfl
  | cons f fs =>
    cases fs with
    | nil => exact (h f List.mem_cons_self).increment?
    | cons g gs => rfl

/-- No literal and no variable is an operator. -/
theorem increment?_of_stmt {s : Stmt} (h : f.sense.stmt = some s) :
    Sense.increment? [f.sense] = none := by
  cases f with
  | word w =>
    by_contra hne
    obtain ⟨op, hop⟩ := Option.ne_none_iff_exists'.1 hne
    have hw : op.image = w := by simpa using List.find?_some hop
    subst hw
    have hleaf : leaf? op.image = none := by cases op <;> decide
    simp [sense, hleaf] at h
  | node items => cases items <;> rfl

/-- A node of a word and operands is an operand itself. -/
theorem Operand.node {w : String} (hw : WordText w.toList) (h : ∀ f ∈ items, f.Operand) :
    (Outline.node (.word w :: items)).Operand :=
  ⟨.node (List.forall_mem_cons.2 ⟨.word hw, fun f hf => (h f hf).sound⟩), rfl⟩

end Outline

/-- Characters other than blanks, parentheses and quotes are plain. -/
theorem isPlain_of {p : Char → Bool} (hp : [' ', '(', ')', '\n', '\'', '"'].all (!p ·) = true)
    {c : Char} (hc : p c = true) : isPlain c = true := by
  refine List.all_eq_true.2 fun d hd => ?_
  have hd := List.all_eq_true.1 hp d hd
  rw [decide_eq_true_eq]
  rintro rfl
  rw [hc] at hd
  cases hd

theorem wordText_of_all {w : String} (h : w ≠ "" ∧ w.toList.all isPlain = true) :
    WordText w.toList :=
  .plain (by simpa using h.1) (List.all_eq_true.1 h.2)

theorem Head.wordText (h : Head) : WordText h.word.toList := by
  have hall : ∀ h ∈ all, h.word ≠ "" ∧ h.word.toList.all isPlain = true := by decide
  exact wordText_of_all (hall h h.mem_all)

theorem IncrementOp.wordText (op : IncrementOp) : WordText op.image.toList :=
  (Head.before op).wordText

def Name.Plain (name : Name) : Prop :=
  ∃ c cs, name.text.toList = c :: cs ∧ Lexer.isNameStart c = true ∧
    ∀ d ∈ cs, Lexer.isNamePart d = true ∨ d = '.'

theorem Name.Plain.wordText {name : Name} (h : name.Plain) : WordText name.text.toList := by
  obtain ⟨c, cs, htext, hc, hcs⟩ := h
  rw [htext]
  refine .plain (List.cons_ne_nil c cs) (List.forall_mem_cons.2 ⟨isPlain_of (by decide) hc, ?_⟩)
  intro d hd
  rcases hcs d hd with hd | rfl
  · exact isPlain_of (by decide) hd
  · decide

/-- A plain name may stand behind a head. -/
theorem Name.Plain.operand {name : Name} (h : name.Plain) : (Outline.word name.text).Operand := by
  refine ⟨.word h.wordText, ?_⟩
  obtain ⟨c, cs, htext, hc, _⟩ := h
  by_contra hne
  obtain ⟨op, hop⟩ := Option.ne_none_iff_exists'.1 hne
  have hw : op.image = name.text := by simpa using List.find?_some hop
  rw [← hw] at htext
  cases op <;>
  · cases htext
    cases hc

theorem Sense.name_word (name : Name) : (Outline.word name.text).sense.name = name.unlined := rfl

/-- The expression is read back from its outline, also where a statement is expected. -/
structure Expr.Readable (e : Expr) : Prop where
  sound : e.outline.Sound
  expr : e.outline.sense.expr = some e.unlined
  stmt : e.outline.sense.stmt = some (.expr e.unlined)

namespace Expr.Readable

variable {e : Expr} {line : Nat}

theorem operand (h : e.Readable) : e.outline.Operand := ⟨h.sound, increment?_of_stmt h.stmt⟩

/-- A word that is read as the expression. -/
theorem of_leaf {w : String} (hout : e.outline = .word w) (hw : WordText w.toList)
    (hleaf : leaf? w = some e.unlined) : e.Readable := by
  refine ⟨?_, ?_, ?_⟩
  · rw [hout]
    exact .word hw
  · rw [hout]
    exact hleaf
  · rw [hout, sense, hleaf]
    rfl

/-- An expression is read back by what its head makes of the operands. -/
theorem of_head (h : Head) {items : List Outline} (hout : e.outline = .node (.word h.word :: items))
    (hitems : ∀ f ∈ items, f.Operand) (hn : items.length = h.arity)
    (hbuild : h.build (senses items) = some e.unlined) : e.Readable := by
  have hinc := increment?_senses hitems
  have hcall : h.word ≠ "call" := by
    have hall : ∀ h ∈ Head.all, h.word ≠ "call" := by decide
    exact hall h h.mem_all
  have hlength : (senses items).length = h.arity := by rw [senses_eq, List.length_map, hn]
  have hexpr : exprOf h.word (senses items) = some e.unlined := by
    rw [exprOf, hinc, hlength, h.ofWord?_word]
    exact (if_neg hcall).trans hbuild
  refine ⟨?_, ?_, ?_⟩
  · rw [hout]
    exact (Operand.node h.wordText hitems).sound
  · rw [hout]
    exact hexpr
  · rw [hout]
    simp [sense, stmtOf, hinc, Opener.ofWord?_head, hexpr]

theorem assign {op : AssignOp} {target : Name} {value : Expr} (htarget : target.Plain)
    (hvalue : value.Readable) : (Expr.assign op line target value).Readable := by
  refine of_head (.assign op) rfl ?_ rfl ?_
  · simp [htarget.operand, hvalue.operand]
  · simp [senses, hvalue.expr, Sense.name_word, Expr.unlined]

theorem binary {op : BinaryOp} {left right : Expr} (hleft : left.Readable)
    (hright : right.Readable) : (Expr.binary op line left right).Readable := by
  refine of_head (.binary op) rfl ?_ rfl ?_
  · simp [hleft.operand, hright.operand]
  · simp [senses, hleft.expr, hright.expr, Expr.unlined]

theorem logical {op : LogicalOp} {left right : Expr} (hleft : left.Readable)
    (hright : right.Readable) : (Expr.logical op line left right).Readable := by
  refine of_head (.logical op) rfl ?_ rfl ?_
  · simp [hleft.operand, hright.operand]
  · simp [senses, hleft.expr, hright.expr, Expr.unlined]

theorem unary {op : UnaryOp} {operand : Expr} (h : operand.Readable) :
    (Expr.unary op line operand).Readable := by
  refine of_head (.unary op) rfl ?_ rfl ?_
  · simp [h.operand]
  · simp [senses, h.expr, Expr.unlined]

theorem before {op : IncrementOp} {target : Name} (h : target.Plain) :
    (Expr.increment op line .before target).Readable := by
  refine of_head (.before op) rfl ?_ rfl ?_
  · simp [h.operand]
  · simp [senses, Sense.name_word, Expr.unlined]

theorem conditional {cond thenPart elsePart : Expr} (hcond : cond.Readable)
    (hthen : thenPart.Readable) (helse : elsePart.Readable) :
    (Expr.conditional line cond thenPart elsePart).Readable := by
  refine of_head .conditional rfl ?_ rfl ?_
  · simp [hcond.operand, hthen.operand, helse.operand]
  · simp [senses, hcond.expr, hthen.expr, helse.expr, Expr.unlined]

theorem new {className : Name} (h : className.Plain) : (Expr.new className).Readable := by
  refine of_head .new rfl ?_ rfl ?_
  · simp [h.operand]
  · simp [senses, Sense.name_word, Expr.unlined]

theorem group {inner : Expr} (h : inner.Readable) : (Expr.group inner).Readable := by
  refine of_head .group rfl ?_ rfl ?_
  · simp [h.operand]
  · simp [senses, h.expr, Expr.unlined]

/-- The operator behind a variable is seen before the variable is taken for a head. -/
theorem after {op : IncrementOp} {target : Name} (h : target.Plain) :
    (Expr.increment op line .after target).Readable := by
  have hinc : Sense.increment? (senses [.word op.image]) = some op := by cases op <;> decide
  refine ⟨?_, ?_, ?_⟩
  · refine .node ?_
    simp [Sound.word h.wordText, Sound.word op.wordText]
  · simp [Expr.outline, sense, exprOf, hinc, Expr.unlined, Name.unlined]
  · simp [Expr.outline, sense, stmtOf, exprOf, hinc, Expr.unlined, Name.unlined]

/-- Readable expressions are read back one by one. -/
theorem exprs {es : List Expr} (h : ∀ e ∈ es, e.Readable) :
    (senses (Expr.outlines es)).filterMap (·.expr) = Expr.unlinedAll es := by
  induction es with
  | nil => rfl
  | cons e es ih =>
    obtain ⟨he, hes⟩ := List.forall_mem_cons.1 h
    simp [Expr.outlines, senses, he.expr, ih hes, Expr.unlinedAll]

theorem operands {es : List Expr} (h : ∀ e ∈ es, e.Readable) :
    ∀ f ∈ Expr.outlines es, f.Operand := by
  rw [Expr.outlines_eq]
  simpa using fun e he => (h e he).operand

/-- A call is a name and its arguments. -/
theorem call {method : Name} {args : List Expr} (hmethod : method.Plain)
    (hargs : ∀ e ∈ args, e.Readable) : (Expr.call method args).Readable := by
  have hitems : ∀ f ∈ Outline.word method.text :: Expr.outlines args, f.Operand :=
    List.forall_mem_cons.2 ⟨hmethod.operand, operands hargs⟩
  have hinc := increment?_senses hitems
  have hexpr : exprOf "call" (senses (.word method.text :: Expr.outlines args)) =
      some (Expr.call method args).unlined := by
    rw [exprOf, hinc]
    simp [senses, Sense.name_word, exprs hargs, Expr.unlined]
  refine ⟨(Operand.node (wordText_of_all (by decide)) hitems).sound, hexpr, ?_⟩
  simp [Expr.outline, sense, stmtOf, hinc, Opener.ofWord?_call, hexpr]

end Expr.Readable

structure Stmt.Readable (s : Stmt) : Prop where
  sound : s.outline.Sound
  stmt : s.outline.sense.stmt = some s.unlined

theorem Opener.wordText (o : Opener) : WordText o.word.toList := by
  cases o <;> exact wordText_of_all (by decide)

namespace Stmt.Readable

variable {s : Stmt} {line : Nat}

theorem operand (h : s.Readable) : s.outline.Operand := ⟨h.sound, increment?_of_stmt h.stmt⟩

/-- A statement is readable if its opener builds it from its items. -/
theorem of_opener (o : Opener) {items : List Outline}
    (hout : s.outline = .node (.word o.word :: items)) (hitems : ∀ f ∈ items, f.Operand)
    (hbuild : o.build (senses items) = some s.unlined) : s.Readable := by
  refine ⟨?_, ?_⟩
  · rw [hout]
    exact (Operand.node o.wordText hitems).sound
  · rw [hout]
    simp only [sense, stmtOf, Option.bind_some, increment?_senses hitems, o.ofWord?_word]
    exact hbuild

theorem expr {e : Expr} (h : e.Readable) : (Stmt.expr e).Readable := ⟨h.sound, h.stmt⟩

/-- Readable statements are read back one by one. -/
theorem stmts {ss : List Stmt} (h : ∀ s ∈ ss, s.Readable) :
    (senses (Stmt.outlines ss)).filterMap (·.stmt) = Stmt.unlinedAll ss := by
  induction ss with
  | nil => rfl
  | cons s ss ih =>
    obtain ⟨hs, hss⟩ := List.forall_mem_cons.1 h
    simp [Stmt.outlines, senses, hs.stmt, ih hss, Stmt.unlinedAll]

theorem operands {ss : List Stmt} (h : ∀ s ∈ ss, s.Readable) :
    ∀ f ∈ Stmt.outlines ss, f.Operand := by
  rw [Stmt.outlines_eq]
  simpa using fun s hs => (h s hs).operand

/-- Statements behind a word are read one by one. -/
theorem body {w : String} {ss : List Stmt} (h : ∀ s ∈ ss, s.Readable) :
    (Outline.node (.word w :: Stmt.outlines ss)).sense.body = Stmt.unlinedAll ss := stmts h

/-- A variable with or without a value. -/
theorem var {type name : Name} {init : Option Expr} (htype : type.Plain) (hname : name.Plain)
    (hinit : ∀ e ∈ init, e.Readable) : (Stmt.var type name init).Readable := by
  refine of_opener .var rfl ?_ ?_
  · simpa [htype.operand, hname.operand] using fun e he => (hinit e he).operand
  · cases init with
    | none => simp [senses, Sense.name_word, Stmt.unlined]
    | some e => simp [senses, Sense.name_word, Stmt.unlined, (hinit e rfl).expr]

theorem block {ss : List Stmt} (h : ∀ s ∈ ss, s.Readable) : (Stmt.block ss).Readable := by
  refine of_opener .scope rfl (operands h) ?_
  simp [stmts h, Stmt.unlined]

/-- A branch that is missing is read as nothing. -/
theorem ifElse {cond : Expr} {thenBranch : Stmt} {elseBranch : Option Stmt} (hcond : cond.Readable)
    (hthen : thenBranch.Readable) (helse : ∀ s ∈ elseBranch, s.Readable) :
    (Stmt.ifElse line cond thenBranch elseBranch).Readable := by
  cases elseBranch with
  | none =>
    refine of_opener .ifElse rfl ?_ ?_
    · simp [hcond.operand, hthen.operand]
    · simp [senses, hcond.expr, hthen.stmt, Stmt.unlined]
  | some s =>
    refine of_opener .ifElse rfl ?_ ?_
    · simp [hcond.operand, hthen.operand, (helse s rfl).operand]
    · simp [senses, hcond.expr, hthen.stmt, (helse s rfl).stmt, Stmt.unlined]

theorem whileLoop {cond : Expr} {body : Stmt} (hcond : cond.Readable) (hbody : body.Readable) :
    (Stmt.whileLoop line cond body).Readable := by
  refine of_opener .whileLoop rfl ?_ ?_
  · simp [hcond.operand, hbody.operand]
  · simp [senses, hcond.expr, hbody.stmt, Stmt.unlined]

theorem doLoop {cond : Expr} {body : Stmt} (hcond : cond.Readable) (hbody : body.Readable) :
    (Stmt.doLoop line body cond).Readable := by
  refine of_opener .doLoop rfl ?_ ?_
  · simp [hcond.operand, hbody.operand]
  · simp [senses, hcond.expr, hbody.stmt, Stmt.unlined]

theorem brk : (Stmt.brk line).Readable := of_opener .brk rfl (by simp) rfl

theorem cont : (Stmt.cont line).Readable := of_opener .cont rfl (by simp) rfl

theorem ret {value : Option Expr} (h : ∀ e ∈ value, e.Readable) :
    (Stmt.ret line value).Readable := by
  refine of_opener .ret rfl ?_ ?_
  · simpa using fun e he => (h e he).operand
  · cases value with
    | none => simp [senses, Stmt.unlined]
    | some e => simp [senses, Stmt.unlined, (h e rfl).expr]

theorem throw {value : Expr} (h : value.Readable) : (Stmt.throw line value).Readable := by
  refine of_opener .throw rfl ?_ ?_
  · simp [h.operand]
  · simp [senses, h.expr, Stmt.unlined]

theorem empty : Stmt.empty.Readable := ⟨.node (by simp), rfl⟩

/-- A missing condition is read as none, since nothing in parentheses is no expression. -/
theorem forLoop {init : List Stmt} {cond : Option Expr} {update : List Expr} {body : Stmt}
    (hinit : ∀ s ∈ init, s.Readable) (hcond : ∀ e ∈ cond, e.Readable)
    (hupdate : ∀ e ∈ update, e.Readable) (hbody : body.Readable) :
    (Stmt.forLoop line init cond update body).Readable := by
  have hinner : (Outline.node (.word "init" :: Stmt.outlines init)).Operand :=
    .node (wordText_of_all (by decide)) (operands hinit)
  have houter : (Outline.node (.word "update" :: Expr.outlines update)).Operand :=
    .node (wordText_of_all (by decide)) (Expr.Readable.operands hupdate)
  have hmiddle : ((cond.map Expr.outline).getD (.node [])).Operand ∧
      ((cond.map Expr.outline).getD (.node [])).sense.expr = cond.map Expr.unlined := by
    cases cond with
    | none => exact ⟨⟨.node (by simp), rfl⟩, rfl⟩
    | some e => exact ⟨(hcond e rfl).operand, (hcond e rfl).expr⟩
  have hlast : (Outline.node (.word "update" :: Expr.outlines update)).sense.items.tail.filterMap
      (·.expr) = Expr.unlinedAll update := Expr.Readable.exprs hupdate
  refine of_opener .forLoop rfl ?_ ?_
  · simp [hinner, hmiddle.1, houter, hbody.operand]
  · simp [senses, Readable.body hinit, hmiddle.2, hlast, hbody.stmt, Stmt.unlined,
      Expr.unlinedAll_eq]

end Stmt.Readable

def SwitchGroup.Readable : SwitchGroup → Prop
  | .mk labels body => (∀ label ∈ labels, ∀ e ∈ label, e.Readable) ∧ ∀ s ∈ body, s.Readable

def CatchClause.Readable : CatchClause → Prop
  | .mk type name body => type.Plain ∧ name.Plain ∧ ∀ s ∈ body, s.Readable

/-- The word for the default label is reserved, so it is no expression. -/
theorem labels_read {labels : List (Option Expr)} (h : ∀ label ∈ labels, ∀ e ∈ label, e.Readable) :
    (∀ f ∈ labels.map Expr.labelOutline, f.Sound) ∧
      (senses (labels.map Expr.labelOutline)).map (·.expr) = labels.map (·.map Expr.unlined) := by
  have hlabel : ∀ label ∈ labels, (Expr.labelOutline label).Sound ∧
      (Expr.labelOutline label).sense.expr = label.map Expr.unlined := by
    intro label hmem
    cases label with
    | none =>
      have hdefault : leaf? "default" = none := by decide
      exact ⟨.word (wordText_of_all (by decide)), hdefault⟩
    | some e => exact ⟨(h _ hmem e rfl).sound, (h _ hmem e rfl).expr⟩
  rw [senses_eq]
  refine ⟨by simpa using fun label hmem => (hlabel label hmem).1, ?_⟩
  simpa using fun label hmem => (hlabel label hmem).2

/-- The groups of a switch are read back from their outlines. -/
theorem groups_read {groups : List SwitchGroup} (h : ∀ g ∈ groups, g.Readable) :
    (∀ f ∈ SwitchGroup.outlines groups, f.Operand) ∧
      (senses (SwitchGroup.outlines groups)).filterMap (·.group?) =
        SwitchGroup.unlinedAll groups := by
  induction groups with
  | nil => exact ⟨by simp [SwitchGroup.outlines], rfl⟩
  | cons g groups ih =>
    cases g with
    | mk labels body =>
      obtain ⟨⟨hlabels, hbody⟩, hgroups⟩ := List.forall_mem_cons.1 h
      obtain ⟨hsound, hread⟩ := labels_read hlabels
      have hinner : (Outline.node (labels.map Expr.labelOutline)).Operand := by
        refine ⟨.node hsound, ?_⟩
        cases labels <;> rfl
      have hitems : ∀ f ∈ Outline.node (labels.map Expr.labelOutline) :: Stmt.outlines body,
          f.Operand := List.forall_mem_cons.2 ⟨hinner, Stmt.Readable.operands hbody⟩
      refine ⟨List.forall_mem_cons.2
        ⟨.node (wordText_of_all (by decide)) hitems, (ih hgroups).1⟩, ?_⟩
      have hgroup : (Outline.node (.word "group" :: .node (labels.map Expr.labelOutline) ::
          Stmt.outlines body)).sense.group? =
            some (.mk (labels.map (·.map Expr.unlined)) (Stmt.unlinedAll body)) := by
        simp [sense_items, senses, Sense.group?, hread, Stmt.Readable.stmts hbody]
      simp [SwitchGroup.outlines, senses, hgroup, (ih hgroups).2, SwitchGroup.unlinedAll]

theorem Outline.Operand.scope {body : List Stmt} (h : ∀ s ∈ body, s.Readable) :
    (Outline.node (.word "scope" :: Stmt.outlines body)).Operand :=
  .node (wordText_of_all (by decide)) (Stmt.Readable.operands h)

/-- Catch clauses are read back, and none of them is taken for a finally clause. -/
theorem clauses_read {clauses : List CatchClause} (h : ∀ c ∈ clauses, c.Readable) :
    (∀ f ∈ CatchClause.outlines clauses, f.Operand ∧ f.sense.cleanup? = none) ∧
      (senses (CatchClause.outlines clauses)).filterMap (·.clause?) =
        CatchClause.unlinedAll clauses := by
  induction clauses with
  | nil => exact ⟨by simp [CatchClause.outlines], rfl⟩
  | cons c clauses ih =>
    cases c with
    | mk type name body =>
      obtain ⟨⟨htype, hname, hbody⟩, hclauses⟩ := List.forall_mem_cons.1 h
      have hitems : ∀ f ∈ [Outline.word type.text, .word name.text,
          .node (.word "scope" :: Stmt.outlines body)], f.Operand := by
        simp [htype.operand, hname.operand, Operand.scope hbody]
      refine ⟨List.forall_mem_cons.2
        ⟨⟨.node (wordText_of_all (by decide)) hitems, rfl⟩, (ih hclauses).1⟩, ?_⟩
      have hclause : (Outline.node [.word "catch", .word type.text, .word name.text,
          .node (.word "scope" :: Stmt.outlines body)]).sense.clause? =
            some (.mk type.unlined name.unlined (Stmt.unlinedAll body)) := by
        simp [sense_items, senses, Sense.clause?, Sense.name_word, Stmt.Readable.body hbody]
      simp [CatchClause.outlines, senses, hclause, (ih hclauses).2, CatchClause.unlinedAll]

namespace Stmt.Readable

variable {line : Nat}

theorem switch {subject : Expr} {groups : List SwitchGroup} (hsubject : subject.Readable)
    (hgroups : ∀ g ∈ groups, g.Readable) : (Stmt.switch line subject groups).Readable := by
  obtain ⟨hitems, hread⟩ := groups_read hgroups
  refine of_opener .switch rfl (List.forall_mem_cons.2 ⟨hsubject.operand, hitems⟩) ?_
  simp [senses, hsubject.expr, hread, Stmt.unlined]

/-- A finally clause has fewer items than a catch clause. -/
theorem tryCatch {body : List Stmt} {catches : List CatchClause} {cleanup : Option (List Stmt)}
    (hbody : ∀ s ∈ body, s.Readable) (hcatches : ∀ c ∈ catches, c.Readable)
    (hcleanup : ∀ ss ∈ cleanup, ∀ s ∈ ss, s.Readable) :
    (Stmt.tryCatch body catches cleanup).Readable := by
  obtain ⟨hitems, hread⟩ := clauses_read hcatches
  have hoperands : ∀ f ∈ CatchClause.outlines catches, f.Operand := fun f hf => (hitems f hf).1
  cases cleanup with
  | none =>
    have hlast : (senses (CatchClause.outlines catches)).getLast?.bind (·.cleanup?) = none := by
      rw [senses_eq, List.getLast?_map, Option.bind_map, Option.bind_eq_none_iff]
      exact fun f hf => (hitems f (List.mem_of_getLast? hf)).2
    refine of_opener .tryCatch rfl (List.forall_mem_cons.2 ⟨.scope hbody, hoperands⟩) ?_
    simp [senses, Readable.body hbody, hread, hlast, Stmt.unlined]
  | some ss =>
    have hss := hcleanup ss rfl
    have hfinally : (Outline.node [.word "finally",
        .node (.word "scope" :: Stmt.outlines ss)]).Operand :=
      .node (wordText_of_all (by decide)) (by simp [Operand.scope hss])
    have hclean : (Outline.node [.word "finally",
        .node (.word "scope" :: Stmt.outlines ss)]).sense.cleanup? =
          some (Stmt.unlinedAll ss) := congrArg some (Readable.body hss)
    have hnone : (Outline.node [.word "finally",
        .node (.word "scope" :: Stmt.outlines ss)]).sense.clause? = none := rfl
    rw [senses_eq] at hread
    refine of_opener .tryCatch rfl (List.forall_mem_cons.2 ⟨.scope hbody, ?_⟩) ?_
    · exact List.forall_mem_append.2 ⟨hoperands, by simp [hfinally]⟩
    · simp [senses, senses_eq, Readable.body hbody, hread, hclean, hnone,
        Stmt.unlined]

end Stmt.Readable

end Jminus
