import Jminus.Proofs.Passage
import Mathlib

/-!
Jumps pass over the finally clauses that they leave.

A break, a continue or a return is one instruction, which leads to the exit of the frame that it is
bound to, or to the end of the program. Statements lie in the statements around them, and so does
their code; the exits of frames lie at the ends of that code and not in it. So a jump out of a try or
catch block leads past the whole statement, with all copies of its finally clause.
-/
namespace Jminus

namespace Machine

variable {prog : Listing} {m : Machine}

/-- One tick that goes to `q` and changes nothing else, if the limit allows it. -/
def JumpsTo (prog : Listing) (limit : Nat) (m : Machine) (q : Nat) : Prop :=
  tick prog limit m =
    if 0 < limit ∧ limit ≤ m.steps then .stopped .stepLimit m
    else .running { m with pc := q, steps := m.steps + 1 }

theorem jumpsTo_goto {l : Label} {q : Nat} (hins : prog.code[m.pc]? = some (.branch .goto l))
    (hq : prog.place? l = some q) (limit : Nat) : JumpsTo prog limit m q := by
  have hrun : (perform prog (.branch .goto l)).run { m with pc := m.pc + 1, steps := m.steps + 1 } =
      .ok none { m with pc := q, steps := m.steps + 1 } := by
    simp only [perform, takeBranch, Machine.jump, Listing.pcOf, hq]
    rfl
  simp only [JumpsTo, tick, hins, hrun]

/-- A return goes behind the last instruction. -/
theorem jumpsTo_ret {arg : Operand} (hins : prog.code[m.pc]? = some (.plain .ret arg))
    (limit : Nat) : JumpsTo prog limit m prog.code.size := by
  simp only [JumpsTo, tick, hins]
  rfl

end Machine

namespace Checked

open Code

/-- Where a jump leads that has the given exits around it. -/
inductive Stmt.Goes (prog : Listing) (exits : Exits) : Stmt → Nat → Prop
  | brk {line : Nat} {target : Option Nat} {e : Exit} {l : Label} {q : Nat}
      (he : exits.ofFrame? target = some e) (hl : e.brk = some l) (hq : prog.place? l = some q) :
      Goes prog exits (.brk line target) q
  | cont {line : Nat} {target : Option Nat} {e : Exit} {l : Label} {q : Nat}
      (he : exits.ofFrame? target = some e) (hl : e.cont = some l) (hq : prog.place? l = some q) :
      Goes prog exits (.cont line target) q
  | ret : Goes prog exits .ret prog.code.size

/-- A jump that is bound to none of the given frames, and so leaves them all. -/
def Stmt.Leaves (inner : Exits) : Stmt → Prop
  | .brk _ target => inner.ofFrame? target = none
  | .cont _ target => inner.ofFrame? target = none
  | .ret => True
  | _ => False

/-- An exit that is not found in front is looked for behind. -/
theorem Exits.ofFrame?_append {inner : Exits} {target : Option Nat}
    (h : inner.ofFrame? target = none) (exits : Exits) :
    Exits.ofFrame? (inner ++ exits) target = exits.ofFrame? target := by
  cases target with
  | none => rfl
  | some id =>
    simp only [Exits.ofFrame?, Option.bind_some] at h ⊢
    rw [List.find?_append, h, Option.none_or]

namespace Spot

def size (σ : Spot) : Nat :=
  match stmtsCode σ.stmts σ.exits σ.labels with
  | .ok (code, _) => code.size
  | .error _ => 0

def last (σ : Spot) : Nat := σ.place + σ.size

abbrev Around (σ τ : Spot) : Prop :=
  Relation.ReflTransGen (fun outer inner => Inside inner outer) σ τ

/-- The code of the spot `τ` lies in that of `σ`. The exits of `τ` are those of `σ` with some in
front, none of which leads into the code of `τ`. -/
structure Enclosed (prog : Listing) (τ σ : Spot) : Prop where
  place : σ.place ≤ τ.place
  last : τ.last ≤ σ.last
  exits : ∃ inner, τ.exits = inner ++ σ.exits ∧
    ∀ l ∈ inner.labels, ∃ q, prog.place? l = some q ∧ (q ≤ τ.place ∨ τ.last ≤ q)

section Enclosed

variable {prog : Listing} {ρ σ τ : Spot} {s : Stmt} {ss : List Stmt} {exits : Exits}
  {n n' lo : Nat} {a code : Code}

theorem last_eq (h : stmtsCode σ.stmts σ.exits σ.labels = .ok (code, n)) :
    σ.last = σ.place + code.size := by
  rw [last, size, h]

theorem Enclosed.refl (prog : Listing) (σ : Spot) : Enclosed prog σ σ :=
  ⟨le_rfl, le_rfl, [], rfl, by simp [Exits.labels]⟩

/-- What lies in a part lies in the whole. -/
theorem Enclosed.trans (h : Enclosed prog τ σ) (h' : Enclosed prog σ ρ) : Enclosed prog τ ρ := by
  obtain ⟨hplace, hlast, inner, hexits, hinner⟩ := h
  obtain ⟨hplace', hlast', inner', hexits', hinner'⟩ := h'
  refine ⟨hplace'.trans hplace, hlast.trans hlast', inner ++ inner', ?_, fun l hl => ?_⟩
  · rw [hexits, hexits', List.append_assoc]
  · rw [Exits.labels, List.flatMap_append, List.mem_append] at hl
    rcases hl with hl | hl
    · exact hinner l hl
    · obtain ⟨q, hq, hout⟩ := hinner' l hl
      exact ⟨q, hq, by omega⟩

theorem Enclosed.part {σ τ : Spot} (hcode : stmtsCode τ.stmts τ.exits τ.labels = .ok (a, n))
    (hexits : τ.exits = σ.exits) (hplace : σ.place ≤ τ.place)
    (hlast : τ.place + a.size ≤ σ.last) : Enclosed prog τ σ :=
  ⟨hplace, (last_eq hcode).trans_le hlast, [], hexits, by simp [Exits.labels]⟩

/-- A part in a frame of its own, whose exits are at the ends of the part or outside it. -/
theorem Enclosed.framed {σ τ : Spot} {e : Exit}
    (hcode : stmtsCode τ.stmts τ.exits τ.labels = .ok (a, n)) (hexits : τ.exits = e :: σ.exits)
    (hplace : σ.place ≤ τ.place) (hlast : τ.place + a.size ≤ σ.last)
    (he : ∀ l ∈ e.labels, ∃ q, prog.place? l = some q ∧ (q ≤ τ.place ∨ τ.place + a.size ≤ q)) :
    Enclosed prog τ σ := by
  refine ⟨hplace, (last_eq hcode).trans_le hlast, [e], hexits, fun l hl => ?_⟩
  rw [last_eq hcode]
  exact he l (by simpa [Exits.labels] using hl)

/-- A part of a loop. What a break leads to lies behind the part. -/
theorem Enclosed.looped {σ τ : Spot} {frame : Frame} {k p q : Nat}
    (hcode : stmtsCode τ.stmts τ.exits τ.labels = .ok (a, n))
    (hexits : τ.exits = loopExit frame k :: σ.exits) (hplace : σ.place ≤ τ.place)
    (hlast : p ≤ σ.last) (hbrk : prog.place? (.nth (k + 3)) = some p)
    (hcont : prog.place? (.nth (k + 2)) = some q) (hp : τ.place + a.size ≤ p)
    (hq : q ≤ τ.place ∨ τ.place + a.size ≤ q) : Enclosed prog τ σ := by
  refine .framed hcode hexits hplace (hp.trans hlast) fun l hl => ?_
  have hl' : l = .nth (k + 3) ∨ l = .nth (k + 2) := by simpa [Exit.labels] using hl
  rcases hl' with rfl | rfl
  · exact ⟨p, hbrk, .inr hp⟩
  · exact ⟨q, hcont, hq⟩

/-- The label for breaks out of a switch is placed behind it. -/
theorem wayOut_placed {frame : Frame} {id q : Nat} {l : Label}
    (hat : Code.At prog q (wayOut frame n).2.1)
    (h : l ∈ Exit.labels ⟨id, (wayOut frame n).1, none⟩) : prog.place? l = some q := by
  unfold wayOut at hat h
  split at h
  · rename_i hbreak
    rw [if_pos hbreak] at hat
    obtain rfl : l = .nth (n + 1) := by simpa [Exit.labels] using h
    exact hat.1
  · simp [Exit.labels] at h

/-- The code of the first statement of a spot. -/
theorem Good.first (h : Good prog ⟨s :: ss, exits, n, lo⟩) :
    ∃ a m, stmtCode s exits n = .ok (a, m) ∧ a.At prog lo ∧
      lo + a.size ≤ last ⟨s :: ss, exits, n, lo⟩ := by
  obtain ⟨⟨code, n', hcode, hsits⟩, _⟩ := h
  have hlast := last_eq (σ := ⟨s :: ss, exits, n, lo⟩) hcode
  obtain ⟨a, m, ha, b, hb, rfl⟩ := stmts_cons_ok.1 hcode
  refine ⟨a, m, ha, (at_append.1 hsits.placed).1, ?_⟩
  rw [hlast, Code.size_append]
  dsimp only
  omega

/-- A group of a switch lies in its code. -/
theorem InGroups.enclosed {groups : List SwitchGroup} (h : τ.InGroups groups exits n lo) {base : Nat}
    (hcode : groupsCode groups base exits n = .ok (code, n')) :
    τ.exits = exits ∧ lo ≤ τ.place ∧
      ∃ a m, stmtsCode τ.stmts τ.exits τ.labels = .ok (a, m) ∧ τ.place + a.size ≤ lo + code.size := by
  induction h generalizing base code n' with
  | head =>
    obtain ⟨a, m, ha, b, hb, rfl⟩ := groups_cons_ok.1 hcode
    refine ⟨rfl, le_rfl, a, m, ha, ?_⟩
    simp only [List.cons_append, Code.size_cons, Code.size_append, Item.size_label]
    omega
  | tail ha _ ih =>
    obtain ⟨a, m, ha', b, hb, rfl⟩ := groups_cons_ok.1 hcode
    cases ha.symm.trans ha'
    obtain ⟨hexits, hplace, c, k, hc, hlast⟩ := ih hb
    refine ⟨hexits, by omega, c, k, hc, ?_⟩
    simp only [List.cons_append, Code.size_cons, Code.size_append, Item.size_label]
    omega

theorem InCatches.enclosed {cleanup : List Stmt} {catches : List CatchClause} {caught : List Caught}
    {last start stop : Label} (h : InCatches cleanup τ catches exits n lo)
    (hcode : catchesCode catches exits (stmtsCode cleanup exits) last start stop n =
      .ok ((code, caught), n')) :
    τ.exits = exits ∧ lo ≤ τ.place ∧
      ∃ a m, stmtsCode τ.stmts τ.exits τ.labels = .ok (a, m) ∧ τ.place + a.size ≤ lo + code.size := by
  induction h generalizing code caught n' with
  | body =>
    obtain ⟨a, m₁, ha, f, m₂, hf, c, more, hc, rfl, rfl⟩ := catches_cons_ok.1 hcode
    refine ⟨rfl, Nat.le_succ _, a, m₁, ha, ?_⟩
    simp only [Code.size_cons, Code.size_append, Item.size_label, Item.size_store]
    omega
  | copy ha =>
    obtain ⟨a, m₁, ha', f, m₂, hf, c, more, hc, rfl, rfl⟩ := catches_cons_ok.1 hcode
    cases ha.symm.trans ha'
    refine ⟨rfl, by dsimp only; omega, f, m₂, hf, ?_⟩
    simp only [Code.size_cons, Code.size_append, Item.size_label, Item.size_store]
    omega
  | tail ha hf _ ih =>
    obtain ⟨a, m₁, ha', f, m₂, hf', c, more, hc, rfl, rfl⟩ := catches_cons_ok.1 hcode
    cases ha.symm.trans ha'
    cases hf.symm.trans hf'
    obtain ⟨hexits, hplace, b, k, hb, hlast⟩ := ih hc
    refine ⟨hexits, by omega, b, k, hb, ?_⟩
    simp only [Code.size_cons, Code.size_append, Code.size_nil, Item.size_label, Item.size_store,
      Item.size_goto, Item.size_handler]
    omega

/-- One step inwards, with a case for each part that a statement can have. -/
theorem Inside.enclosed (h : Inside τ σ) (hσ : σ.Good prog) : Enclosed prog τ σ := by
  cases h with
  | @rest s ss exits n m lo a ha =>
    obtain ⟨⟨code, n', hcode, hsits⟩, _⟩ := hσ
    have hlast := last_eq (σ := ⟨s :: ss, exits, n, lo⟩) hcode
    obtain ⟨a', m', ha', b, hb, rfl⟩ := stmts_cons_ok.1 hcode
    cases ha.symm.trans ha'
    refine .part hb rfl (Nat.le_add_right _ _) ?_
    rw [hlast, Code.size_append, ← Nat.add_assoc]
  | block =>
    obtain ⟨a, m, ha, _, hlast⟩ := hσ.first
    exact .part ha rfl le_rfl hlast
  | @thenBranch cond t e ss exits n m lo a ha =>
    obtain ⟨code, n', hcode, _, hlast⟩ := hσ.first
    cases e with
    | none =>
      obtain ⟨a', m', ha', b, hb, rfl⟩ := if_ok.1 hcode
      cases ha.symm.trans ha'
      refine .part (stmtsCode_single hb) rfl (Nat.le_add_right _ _) ?_
      simp only [Code.size_append] at hlast
      dsimp only
      omega
    | some e =>
      obtain ⟨a', m', ha', b, m₂, hb, c, hc, rfl⟩ := ifElse_ok.1 hcode
      cases ha.symm.trans ha'
      refine .part (stmtsCode_single hb) rfl (Nat.le_add_right _ _) ?_
      simp only [Code.size_append] at hlast
      dsimp only
      omega
  | @elseBranch cond t e ss exits n m m' lo a b ha hb =>
    obtain ⟨code, n', hcode, _, hlast⟩ := hσ.first
    obtain ⟨a', m₁, ha', b', m₂, hb', c, hc, rfl⟩ := ifElse_ok.1 hcode
    cases ha.symm.trans ha'
    cases hb.symm.trans hb'
    refine .part (stmtsCode_single hc) rfl (by dsimp only; omega) ?_
    simp only [Code.size_append, Code.size_cons, Item.size_goto, Item.size_label] at hlast
    dsimp only
    omega
  | @whileBody frame cond body ss exits n m lo a ha =>
    obtain ⟨code, n', hcode, hat, hlast⟩ := hσ.first
    obtain ⟨a', m₁, ha', b, hb, rfl⟩ := while_ok.1 hcode
    cases ha.symm.trans ha'
    simp only [at_append, at_cons, Code.size_append, Code.size_cons, Code.size_nil, Item.size_label,
      Item.size_goto, Nat.add_zero, Nat.zero_add, ← Nat.add_assoc] at hat hlast
    obtain ⟨_, hcont, _, hbrk, _⟩ := hat
    exact .looped (stmtsCode_single hb) rfl (Nat.le_add_right _ _) hlast hbrk hcont
      (by dsimp only; omega) (.inr le_rfl)
  | @doBody frame cond body ss exits n lo =>
    obtain ⟨code, n', hcode, hat, hlast⟩ := hσ.first
    obtain ⟨b, m, hb, a, ha, rfl⟩ := do_ok.1 hcode
    simp only [at_append, at_cons, Code.size_append, Code.size_cons, Code.size_nil, Item.size_label,
      Nat.add_zero, Nat.zero_add, ← Nat.add_assoc] at hat hlast
    obtain ⟨⟨⟨⟨_, hcont, _⟩, _⟩, _⟩, hbrk, _⟩ := hat
    exact .looped (stmtsCode_single hb) rfl le_rfl hlast hbrk hcont (by dsimp only; omega)
      (.inl le_rfl)
  | @forInit frame init cond update body ss exits n lo =>
    obtain ⟨code, n', hcode, hat, hlast⟩ := hσ.first
    obtain ⟨i, m₁, hi, a, m₂, ha, b, m₃, hb, u, hu, rfl⟩ := for_ok.1 hcode
    simp only [at_append, at_cons, Code.size_append, Code.size_cons, Code.size_nil, Item.size_label,
      Item.size_goto, Nat.add_zero, ← Nat.add_assoc] at hat hlast
    obtain ⟨⟨⟨_, hcont, _⟩, _⟩, _, hbrk, _⟩ := hat
    exact .looped hi rfl le_rfl hlast hbrk hcont (by dsimp only; omega)
      (.inr (by dsimp only; omega))
  | @forBody frame init cond update body ss exits n m₁ m₂ lo i a hi ha =>
    obtain ⟨code, n', hcode, hat, hlast⟩ := hσ.first
    obtain ⟨i', m₁', hi', a', m₂', ha', b, m₃, hb, u, hu, rfl⟩ := for_ok.1 hcode
    cases hi.symm.trans hi'
    cases ha.symm.trans ha'
    simp only [at_append, at_cons, Code.size_append, Code.size_cons, Code.size_nil, Item.size_label,
      Item.size_goto, Nat.add_zero, ← Nat.add_assoc] at hat hlast
    obtain ⟨⟨⟨_, hcont, _⟩, _⟩, _, hbrk, _⟩ := hat
    exact .looped (stmtsCode_single hb) rfl (by dsimp only; omega) hlast hbrk hcont
      (by dsimp only; omega) (.inr le_rfl)
  | @group _ line frame subject groups ss exits n m lo a ha hτ =>
    obtain ⟨code, n', hcode, hat, hlast⟩ := hσ.first
    obtain ⟨a', m', ha', d, rfl, o, rfl, b, hb, rfl⟩ := switch_ok.1 hcode
    cases ha.symm.trans ha'
    obtain ⟨hexits, hplace, c, k, hc, hend⟩ := hτ.enclosed hb
    simp only [at_append, at_cons, Code.size_append, Code.size_cons, Code.size_nil,
      Item.size_dispatch, Nat.add_zero, ← Nat.add_assoc] at hat hlast
    obtain ⟨_, hbrk⟩ := hat
    refine .framed hc hexits (by dsimp only; omega) (by omega) fun l hl => ?_
    exact ⟨_, wayOut_placed hbrk hl, .inr (by omega)⟩
  | @tryBody body catches cleanup ss exits n lo =>
    obtain ⟨code, n', hcode, _, hlast⟩ := hσ.first
    obtain ⟨a, m₁, ha, f, m₂, hf, c, caught, m₃, hc, d, hd, rfl⟩ := try_ok.1 hcode
    refine .part ha rfl le_rfl ?_
    simp only [Code.size_append, Code.size_cons, Item.size_label] at hlast
    dsimp only
    omega
  | @tryCopy body catches cleanup ss exits n m lo a ha =>
    obtain ⟨code, n', hcode, _, hlast⟩ := hσ.first
    obtain ⟨a', m₁, ha', f, m₂, hf, c, caught, m₃, hc, d, hd, rfl⟩ := try_ok.1 hcode
    rw [cleanupCode_eq] at hf
    cases ha.symm.trans ha'
    refine .part hf rfl (Nat.le_add_right _ _) ?_
    simp only [Code.size_append, Code.size_cons, Item.size_label] at hlast
    dsimp only
    omega
  | @clause _ body catches cleanup ss exits n m₁ m₂ lo a f ha hf hτ =>
    obtain ⟨code, n', hcode, _, hlast⟩ := hσ.first
    obtain ⟨a', m₁', ha', f', m₂', hf', c, caught, m₃, hc, d, hd, rfl⟩ := try_ok.1 hcode
    rw [cleanupCode_eq] at hf' hc
    cases ha.symm.trans ha'
    cases hf.symm.trans hf'
    obtain ⟨hexits, hplace, b, k, hb, hend⟩ := hτ.enclosed hc
    simp only [Code.size_append, Code.size_cons, Code.size_nil, Item.size_label,
      Item.size_goto] at hlast
    exact .part hb hexits (by dsimp only; omega) (by omega)
  | @delayed body catches slot cleanup ss exits n m₁ m₂ m₃ lo a f cs ha hf hcs =>
    obtain ⟨code, n', hcode, _, hlast⟩ := hσ.first
    obtain ⟨a', m₁', ha', f', m₂', hf', c, caught, m₃', hc, d, hd, rfl⟩ := try_ok.1 hcode
    rw [cleanupCode_eq] at hf' hc
    cases ha.symm.trans ha'
    cases hf.symm.trans hf'
    obtain ⟨cs', hcs', rfl, rfl⟩ := catchesCode_parts.1 hc
    cases hcs.symm.trans hcs'
    obtain ⟨g, hg, rfl⟩ := delay_ok.1 hd
    rw [cleanupCode_eq] at hg
    refine .part hg rfl (by dsimp only; omega) ?_
    simp only [Code.size_append, Code.size_cons, Code.size_nil, Item.size_label, Item.size_store,
      Item.size_goto, size_catches] at hlast
    dsimp only [Cleanup.stmts]
    omega

theorem Around.enclosed (h : Around σ τ) (hσ : σ.Good prog) : Enclosed prog τ σ ∧ τ.Good prog := by
  induction h with
  | refl => exact ⟨.refl prog σ, hσ⟩
  | tail _ hinside ih => exact ⟨(hinside.enclosed ih.2).trans ih.1, hinside.good ih.2⟩

/-- All statements in a spot stand somewhere in it. -/
theorem Good.exists_around (hσ : σ.Good prog) (h : Occurs σ.stmts ss) :
    ∃ τ : Spot, Around σ τ ∧ τ.stmts = ss := by
  induction h with
  | refl => exact ⟨σ, .refl, rfl⟩
  | tail _ hpart ih =>
    obtain ⟨τ, hτ, rfl⟩ := ih
    obtain ⟨υ, hυ, hstmts⟩ := (hτ.enclosed hσ).2.exists_inside hpart
    exact ⟨υ, .tail hτ hυ, hstmts⟩

end Enclosed

section Jumps

variable {prog : Listing} {σ τ : Spot} {jump : Stmt} {rest : List Stmt} {inner exits : Exits}
  {n lo q : Nat}

/-- A jump that stands where it should is one instruction. -/
theorem Good.jumps (h : Good prog ⟨jump :: rest, exits, n, lo⟩) (hgoes : jump.Goes prog exits q)
    {m : Machine} (hpc : m.pc = lo) (limit : Nat) : Machine.JumpsTo prog limit m q := by
  obtain ⟨code, n', hcode, hat, _⟩ := h.first
  rw [← hpc] at hat
  cases hgoes with
  | brk he hl hq =>
    obtain ⟨l', hl', rfl, _⟩ := brk_ok.1 hcode
    rw [he, Option.bind_some, hl] at hl'
    cases hl'
    exact Machine.jumpsTo_goto hat.1 hq limit
  | cont he hl hq =>
    obtain ⟨l', hl', rfl, _⟩ := cont_ok.1 hcode
    rw [he, Option.bind_some, hl] at hl'
    cases hl'
    exact Machine.jumpsTo_goto hat.1 hq limit
  | ret =>
    cases hcode
    exact Machine.jumpsTo_ret hat.1 limit

/-- A jump that leaves the inner frames goes where it would go without them. -/
theorem Good.goes (h : Good prog ⟨jump :: rest, inner ++ exits, n, lo⟩) (hleaves : jump.Leaves inner)
    {P : Nat → Prop} (hexits : ∀ l ∈ exits.labels, ∃ q, prog.place? l = some q ∧ P q)
    (hend : P prog.code.size) :
    ∃ q, jump.Goes prog exits q ∧ jump.Goes prog (inner ++ exits) q ∧ P q := by
  obtain ⟨code, n', hcode, _, _⟩ := h.first
  cases jump with
  | brk line target =>
    obtain ⟨l, hl, _⟩ := brk_ok.1 hcode
    obtain ⟨e, he, hl⟩ := Option.bind_eq_some_iff.1 hl
    have he' := (Exits.ofFrame?_append hleaves exits).symm.trans he
    obtain ⟨q, hq, hP⟩ := hexits l (Exits.brk_mem_labels (Exits.ofFrame?_mem he') hl)
    exact ⟨q, .brk he' hl hq, .brk he hl hq, hP⟩
  | cont line target =>
    obtain ⟨l, hl, _⟩ := cont_ok.1 hcode
    obtain ⟨e, he, hl⟩ := Option.bind_eq_some_iff.1 hl
    have he' := (Exits.ofFrame?_append hleaves exits).symm.trans he
    obtain ⟨q, hq, hP⟩ := hexits l (Exits.cont_mem_labels (Exits.ofFrame?_mem he') hl)
    exact ⟨q, .cont he' hl hq, .cont he hl hq, hP⟩
  | ret => exact ⟨_, .ret, .ret, hend⟩
  | _ => exact hleaves.elim

end Jumps

end Spot

/-- A place in a block is in no copy of the finally clause. -/
theorem TryParts.not_in_copy {t : TryParts} {lo p : Nat} {b : Block} (hb : b ∈ t.blocks lo)
    (hp : b.first ≤ p ∧ p < b.last) {P : Nat × Code} (hP : P ∈ t.copies lo) :
    ¬ (P.1 ≤ p ∧ p < P.1 + P.2.size) := by
  have hcatches : t.catchesAt lo = t.copyAt lo + t.copy.size + 1 := rfl
  have hdelayed : t.delayedAt lo = t.catchesAt lo + catchesSize t.catches + 1 := rfl
  have hsize : ∀ c : CatchPart, c.size = 1 + c.body.size + c.copy.size + 1 := fun _ => rfl
  simp only [TryParts.copies, List.mem_cons, List.mem_append, List.mem_map, List.not_mem_nil,
    or_false] at hP
  rcases List.mem_cons.1 hb with rfl | hb
  · rcases hP with (rfl | ⟨y, hy, rfl⟩) | rfl
    · dsimp only at hp ⊢
      omega
    · have hplace := (placedFrom_mem hy).2
      dsimp only at hp ⊢
      omega
    · dsimp only at hp ⊢
      omega
  · obtain ⟨x, hx, rfl⟩ := List.mem_map.1 hb
    have hplace := (placedFrom_mem hx).2
    have hx' := hsize x.2
    rcases hP with (rfl | ⟨y, hy, rfl⟩) | rfl
    · dsimp only at hp ⊢
      omega
    · have hy' := hsize y.2
      rcases placedFrom_apart hx hy with rfl | happart | happart
      all_goals
        dsimp only at hp ⊢
        omega
    · dsimp only at hp ⊢
      omega

end Checked

open Checked (Spot Stmt Occurs tryParts TryParts) in
/-- Jumps do not run the finally clauses that they leave. In the code of an accepted text every
statement stands somewhere. Wherever a try statement with a finally clause stands, and wherever in
one of its try or catch blocks a break, continue or return stands that is bound to no frame between
the two, the jump is one instruction. It leads from the block, where no copy of the finally clause
is, straight to the destination that it has outside the statement, and changes nothing but the place
and the count of steps. -/
theorem jumps_skip_finally {file source : String} {exe : Executable}
    (h : (compile file source).result = .ok exe) :
    ∃ program, Checked.check (compile file source).stmts = .ok program ∧
      (∀ ss, Occurs program.stmts ss → ∃ σ : Spot, σ.Of program.stmts ∧ σ.stmts = ss) ∧
      ∀ (σ : Spot) body catches slot cleanup rest, σ.Of program.stmts →
        σ.stmts = .tryCatch body catches (.mk slot cleanup) :: rest →
        ∃ t n, tryParts body catches slot cleanup σ.exits σ.labels = .ok (t, n) ∧
          t.code.At exe.listing σ.place ∧
          (∀ ss, Occurs σ.stmts ss → ∃ τ : Spot, σ.Around τ ∧ τ.stmts = ss) ∧
          ∀ (τ : Spot) jump more, σ.Around τ → τ.stmts = jump :: more →
            ∃ inner, τ.exits = inner ++ σ.exits ∧ (jump.Leaves inner →
              ∀ b ∈ t.blocks σ.place, b.first ≤ τ.place → τ.place < b.last →
                ∃ dest, jump.Goes exe.listing σ.exits dest ∧
                  (dest ≤ σ.place ∨ t.lastAt σ.place ≤ dest) ∧
                  (∀ copy ∈ t.copies σ.place,
                    ¬ (copy.1 ≤ τ.place ∧ τ.place < copy.1 + copy.2.size)) ∧
                  ∀ limit m, m.pc = τ.place → Machine.JumpsTo exe.listing limit m dest) := by
  obtain ⟨program, hcompiled⟩ := compile_accepted h
  obtain ⟨slots, _, hsound⟩ := hcompiled.sound
  obtain ⟨code, k, hcode, hholds⟩ := hcompiled.code
  refine ⟨program, hcompiled.analyzed, fun ss => Spot.exists_of_occurs hsound hcode hholds, ?_⟩
  intro σ body catches slot cleanup rest hσ hstmts
  have hroot := Spot.Of.good hsound hcode hholds .refl
  obtain ⟨henclosed, hgood⟩ := Spot.Around.enclosed hσ hroot
  obtain ⟨stmts, exits, n, lo⟩ := σ
  obtain rfl : stmts = _ := hstmts
  obtain ⟨t, n', ht, hstands⟩ := hgood.stands hholds.resolved
  -- the statement lies in its spot, and the spot in the program, which has an instruction more
  have hstmt : t.lastAt lo ≤ Spot.last ⟨.tryCatch body catches (.mk slot cleanup) :: rest, exits, n, lo⟩ := by
    obtain ⟨a, m, ha, _, hlast⟩ := hgood.first
    obtain ⟨t', ht', rfl⟩ := Checked.stmtCode_parts.1 ha
    cases ht.symm.trans ht'
    rwa [t.size_code] at hlast
  have hend : t.lastAt lo ≤ exe.listing.code.size := by
    have hlast := henclosed.last
    rw [Spot.last_eq (σ := ⟨program.stmts, [], 0, 0⟩) hcode] at hlast
    have hret := (Code.at_append.1 hholds.placed).2.1
    have hlt := (Array.getElem?_eq_some_iff.1 hret).1
    dsimp only at hlast
    omega
  -- no frame around the statement has an exit in it
  have hplaced : ∀ l ∈ exits.labels, ∃ q, exe.listing.place? l = some q ∧
      (q ≤ lo ∨ t.lastAt lo ≤ q) := by
    obtain ⟨outer, hexits, houter⟩ := henclosed.exits
    obtain rfl : exits = outer := by simpa using hexits
    intro l hl
    obtain ⟨q, hq, hplace⟩ := houter l hl
    exact ⟨q, hq, hplace.imp_right hstmt.trans⟩
  refine ⟨t, n', ht, hstands.sits.placed, fun ss => hgood.exists_around, ?_⟩
  intro τ jump more hτ hτstmts
  obtain ⟨hτenclosed, hτgood⟩ := hτ.enclosed hgood
  obtain ⟨inner, hinner, _⟩ := hτenclosed.exits
  refine ⟨inner, hinner, fun hleaves b hb hfirst hlast => ?_⟩
  obtain ⟨stmts, exits', n₂, lo'⟩ := τ
  obtain rfl : stmts = _ := hτstmts
  obtain rfl : exits' = inner ++ exits := hinner
  obtain ⟨q, hgoes, hgoes', hout⟩ := hτgood.goes hleaves hplaced (.inr hend)
  exact ⟨q, hgoes, hout, fun copy hcopy => TryParts.not_in_copy hb ⟨hfirst, hlast⟩ hcopy,
    fun limit m hpc => hτgood.jumps hgoes' hpc limit⟩

/-- A loop that is left from a try block before the finally clause could print anything. -/
def breaking : String :=
  "while (true) try \x7b break; \x7d finally \x7b println(1); \x7d"

def breaksTry : Checked.Stmt → Bool
  | .whileLoop _ _ (.tryCatch [.brk _ _] _ (.mk _ _)) => true
  | _ => false

open Checked (Spot tryParts) in
theorem jumps_skip_finally_breaking : ∃ exe program, ∃ σ τ : Spot,
    ∃ body catches slot cleanup t n line target dest,
      (compile "" breaking).result = .ok exe ∧
        Checked.check (compile "" breaking).stmts = .ok program ∧ σ.Of program.stmts ∧
        σ.stmts = [.tryCatch body catches (.mk slot cleanup)] ∧
        tryParts body catches slot cleanup σ.exits σ.labels = .ok (t, n) ∧ σ.Around τ ∧
        τ.stmts = [.brk line target] ∧
        Checked.Stmt.Goes exe.listing σ.exits (.brk line target) dest ∧
        (dest ≤ σ.place ∨ t.lastAt σ.place ≤ dest) ∧
        ∀ limit m, m.pc = τ.place → Machine.JumpsTo exe.listing limit m dest := by
  have haccepted : (compile "" breaking).failure? = none := by decide +kernel
  obtain ⟨exe, h⟩ := Compilation.result_of_failure? haccepted
  obtain ⟨program, hprogram, hspots, hskips⟩ := jumps_skip_finally h
  have hshape : ((Checked.check (compile "" breaking).stmts).toOption.any fun p =>
      p.stmts.any breaksTry) = true := by decide +kernel
  rw [hprogram, Except.toOption, Option.any_some, List.any_eq_true] at hshape
  obtain ⟨s, hs, hloop⟩ := hshape
  obtain ⟨rest, hrest⟩ := Checked.Occurs.of_mem hs
  unfold breaksTry at hloop
  split at hloop
  · rename_i frame cond line target catches slot cleanup
    obtain ⟨σ, hσ, hstmts⟩ := hspots _ (.tail hrest .whileBody)
    obtain ⟨t, n, ht, _, _, hjumps⟩ := hskips σ _ _ _ _ _ hσ hstmts
    obtain ⟨stmts, exits, k, lo⟩ := σ
    obtain rfl : stmts = _ := hstmts
    have haround : Spot.Around ⟨[.tryCatch [.brk line target] catches (.mk slot cleanup)], exits, k, lo⟩
        ⟨[.brk line target], exits, k + 3, lo⟩ := .single .tryBody
    obtain ⟨inner, hinner, hleaves⟩ := hjumps _ _ _ haround rfl
    obtain rfl : inner = [] := by simpa using hinner
    have hout : Checked.Stmt.Leaves [] (.brk line target) := by cases target <;> rfl
    have hblock : lo < t.copyAt lo := by
      obtain ⟨a, m₁, ha, f, m₂, _, cs, m₃, _, g, _, rfl⟩ := Checked.tryParts_ok.1 ht
      obtain ⟨b, m, hb, c, _, rfl⟩ := Checked.stmts_cons_ok.1 ha
      obtain ⟨l, _, rfl, _⟩ := Checked.brk_ok.1 hb
      simp only [Checked.TryParts.copyAt, Code.size_append, Code.size_cons, Item.size_goto]
      omega
    obtain ⟨dest, hgoes, hdest, _, hone⟩ :=
      hleaves hout _ List.mem_cons_self le_rfl hblock
    exact ⟨exe, program, _, _, _, _, _, _, t, n, line, target, dest, h, hprogram, hσ, rfl, ht,
      haround, rfl, hgoes, hdest, hone⟩
  · cases hloop

/-- The loop is left and the program is over, and the finally clause has printed nothing. -/
theorem breaking_prints_nothing :
    (compile "" breaking).failure? = none ∧
      ((compile "" breaking).run 0 100).map (fun r => (r.failure?, r.printed)) = some (none, []) := by
  decide +kernel

end Jminus
