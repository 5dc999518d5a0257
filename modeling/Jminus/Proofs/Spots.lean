import Jminus.Proofs.Nesting
import Mathlib

/-!
Where statements stand in a program.

A spot is a run of statements with all that its code depends on: the exits of the frames around it,
the number of labels used before it, and its place. Statements inside a finally clause stand in
several spots, one for each copy of the clause. In the code of a program, entries of the table that
come before those of a spot cover nothing of it, and those that come after lead out of it.
-/
namespace Jminus

/-- Nothing from `q` on is covered by the entries of some code. -/
def Behind (prog : Listing) (q : Nat) (code : Code) : Prop :=
  ∀ k ∈ code.handlers, ∀ p, q ≤ p → prog.within k.start k.stop p = false

def Away (prog : Listing) (lo hi : Nat) (code : Code) : Prop :=
  ∀ k ∈ code.handlers, ∃ q, prog.place? k.handler = some q ∧ (q < lo ∨ hi ≤ q)

/-- Some code stands at `lo`, and its entries are in the table. Those before them cover nothing of
the code, and those behind them lead out of it. -/
structure Sits (prog : Listing) (lo : Nat) (code : Code) : Prop where
  placed : code.At prog lo
  table : ∃ before after, prog.handlers = before ++ code.handlers ++ after ∧
    (∀ k ∈ before, ∀ p, lo ≤ p → p < lo + code.size → prog.within k.start k.stop p = false) ∧
    ∀ k ∈ after, ∃ q, prog.place? k.handler = some q ∧ (q < lo ∨ lo + code.size ≤ q)

section Table

variable {prog : Listing} {lo hi q : Nat} {a b : Code}

theorem Behind.quiet (h : a.handlers = []) : Behind prog q a := by
  intro k hk
  rw [h] at hk
  cases hk

/-- Code in order covers nothing behind itself. -/
theorem Ordered.behind (h : Ordered prog lo a) : Behind prog (lo + a.size) a := by
  intro k hk p hp
  obtain ⟨first, last, hbounds, _, _, hhi⟩ := h.bounds k hk
  rw [← Bool.not_eq_true, Listing.within_of_bounds hbounds]
  omega

theorem Away.quiet (h : a.handlers = []) : Away prog lo hi a := by
  intro k hk
  rw [h] at hk
  cases hk

/-- Entries lead away if those of both parts do. -/
theorem Away.append (ha : Away prog lo hi a) (hb : Away prog lo hi b) :
    Away prog lo hi (a ++ b) := by
  intro k hk
  rw [Code.handlers_append, List.mem_append] at hk
  rcases hk with hk | hk
  · exact ha k hk
  · exact hb k hk

theorem Away.cons {i : Item} (hi' : i.handler? = none) (ha : Away prog lo hi a) :
    Away prog lo hi (i :: a) := by
  intro k hk
  rw [Checked.handlers_cons_plain hi'] at hk
  exact ha k hk

theorem Away.handler {k : Handler} (hk : prog.place? k.handler = some q) (hout : q < lo ∨ hi ≤ q)
    (ha : Away prog lo hi a) : Away prog lo hi (.handler k :: a) := by
  intro k' hk'
  rcases List.mem_cons.1 hk' with rfl | hk'
  · exact ⟨q, hk, hout⟩
  · exact ha k' hk'

/-- Handlers of code further on are further on. -/
theorem Aimed.away {at' : Nat} (h : Aimed prog at' a) (hle : hi ≤ at') : Away prog lo hi a := by
  intro k hk
  obtain ⟨q, hq, hlo, _⟩ := h k hk
  exact ⟨q, hq, .inr (by omega)⟩

namespace Sits

/-- Code sits behind code that covers nothing of it. -/
theorem right (h : Sits prog lo (a ++ b)) (ha : Behind prog (lo + a.size) a) :
    Sits prog (lo + a.size) b := by
  obtain ⟨before, after, htable, hbefore, hafter⟩ := h.table
  rw [Code.size_append] at hbefore hafter
  refine ⟨(Code.at_append.1 h.placed).2, before ++ a.handlers, after, ?_, ?_, ?_⟩
  · rw [htable, Code.handlers_append]
    simp only [List.append_assoc]
  · intro k hk p hlo hhi
    rcases List.mem_append.1 hk with hk | hk
    · exact hbefore k hk p (by omega) (by omega)
    · exact ha k hk p hlo
  · intro k hk
    obtain ⟨q, hq, hout⟩ := hafter k hk
    exact ⟨q, hq, by omega⟩

theorem left (h : Sits prog lo (a ++ b)) (hb : Away prog lo (lo + a.size) b) :
    Sits prog lo a := by
  obtain ⟨before, after, htable, hbefore, hafter⟩ := h.table
  rw [Code.size_append] at hbefore hafter
  refine ⟨(Code.at_append.1 h.placed).1, before, b.handlers ++ after, ?_, ?_, ?_⟩
  · rw [htable, Code.handlers_append]
    simp only [List.append_assoc]
  · intro k hk p hlo hhi
    exact hbefore k hk p hlo (by omega)
  · intro k hk
    rcases List.mem_append.1 hk with hk | hk
    · exact hb k hk
    · obtain ⟨q, hq, hout⟩ := hafter k hk
      exact ⟨q, hq, by omega⟩

theorem skip {i : Item} (h : Sits prog lo (i :: b)) (hi : i.handler? = none) :
    Sits prog (lo + i.size) b := by
  have hsits : Sits prog (lo + Code.size [i]) b := by
    refine Sits.right (a := [i]) h (.quiet ?_)
    rw [Checked.handlers_cons_plain hi, Code.handlers_nil]
  exact hsits

/-- An entry that covers only what comes before. -/
theorem skip_handler {k : Handler} {first last : Nat} (h : Sits prog lo (.handler k :: b))
    (hk : prog.Bounds k.start k.stop first last) (hle : last ≤ lo) : Sits prog lo b := by
  refine Sits.right (a := [.handler k]) h fun k' hk' p hp => ?_
  obtain rfl := List.mem_singleton.1 hk'
  rw [← Bool.not_eq_true, Listing.within_of_bounds hk]
  simp only [Code.size_cons, Item.size_handler, Code.size_nil] at hp
  omega

end Sits

end Table

namespace Checked

open Code

structure Spot where
  stmts : List Stmt
  exits : Exits
  labels : Nat
  place : Nat

def Cleanup.stmts : Cleanup → List Stmt
  | .absent => []
  | .mk _ body => body

/-- A spot among groups of a switch whose bodies start at the given place. -/
inductive Spot.InGroups (σ : Spot) : List SwitchGroup → Exits → Nat → Nat → Prop
  | head {values isDefault groups} :
      InGroups σ (.mk values isDefault σ.stmts :: groups) σ.exits σ.labels σ.place
  | tail {values isDefault body groups exits n m lo a} : stmtsCode body exits n = .ok (a, m) →
      InGroups σ groups exits m (lo + a.size) →
      InGroups σ (.mk values isDefault body :: groups) exits n lo

/-- A spot among catch clauses, each with a copy of the finally clause behind it. -/
inductive Spot.InCatches (cleanup : List Stmt) :
    Spot → List CatchClause → Exits → Nat → Nat → Prop
  | body {param body clauses exits n lo} :
      InCatches cleanup ⟨body, exits, n + 2, lo + 1⟩ (.mk param body :: clauses) exits n lo
  | copy {param body clauses exits n m lo a} : stmtsCode body exits (n + 2) = .ok (a, m) →
      InCatches cleanup ⟨cleanup, exits, m, lo + 1 + a.size⟩ (.mk param body :: clauses) exits n lo
  | tail {σ param body clauses exits n m₁ m₂ lo a f} :
      stmtsCode body exits (n + 2) = .ok (a, m₁) → stmtsCode cleanup exits m₁ = .ok (f, m₂) →
      InCatches cleanup σ clauses exits m₂ (lo + 1 + a.size + f.size + 1) →
      InCatches cleanup σ (.mk param body :: clauses) exits n lo

abbrev loopExit (frame : Frame) (n : Nat) : Exit :=
  ⟨frame.id, some (.nth (n + 3)), some (.nth (n + 2))⟩

/-- What a switch adds to the exits if its groups use labels above `base`, and how many labels are
used by then. -/
abbrev switchExit (frame : Frame) (groups : List SwitchGroup) (base : Nat) : Exit × Nat :=
  let way := wayOut frame (fallback base groups (base + groups.length)).2.2
  (⟨frame.id, way.1, none⟩, way.2.2)

/-- A spot directly inside another: what follows its first statement, or a part of that statement. -/
inductive Spot.Inside : Spot → Spot → Prop
  | rest {s ss exits n m lo a} : stmtCode s exits n = .ok (a, m) →
      Inside ⟨ss, exits, m, lo + a.size⟩ ⟨s :: ss, exits, n, lo⟩
  | block {body ss exits n lo} : Inside ⟨body, exits, n, lo⟩ ⟨.block body :: ss, exits, n, lo⟩
  | thenBranch {cond thenBranch elseBranch ss exits n m lo a} :
      cond.cond (.nth (n + 1)) false (n + 1) = .ok (a, m) →
      Inside ⟨[thenBranch], exits, m, lo + a.size⟩
        ⟨.ifElse cond thenBranch elseBranch :: ss, exits, n, lo⟩
  | elseBranch {cond thenBranch elseBranch ss exits n m m' lo a b} :
      cond.cond (.nth (n + 1)) false (n + 1) = .ok (a, m) → stmtCode thenBranch exits m = .ok (b, m') →
      Inside ⟨[elseBranch], exits, m' + 1, lo + a.size + b.size + 1⟩
        ⟨.ifElse cond thenBranch (some elseBranch) :: ss, exits, n, lo⟩
  | whileBody {frame cond body ss exits n m lo a} :
      cond.cond (.nth (n + 3)) false (n + 3) = .ok (a, m) →
      Inside ⟨[body], loopExit frame n :: exits, m, lo + a.size⟩
        ⟨.whileLoop frame cond body :: ss, exits, n, lo⟩
  | doBody {frame cond body ss exits n lo} :
      Inside ⟨[body], loopExit frame n :: exits, n + 3, lo⟩
        ⟨.doLoop frame body cond :: ss, exits, n, lo⟩
  | forInit {frame init cond update body ss exits n lo} :
      Inside ⟨init, loopExit frame n :: exits, n + 3, lo⟩
        ⟨.forLoop frame init cond update body :: ss, exits, n, lo⟩
  | forBody {frame init cond update body ss exits n m₁ m₂ lo i a} :
      stmtsCode init (loopExit frame n :: exits) (n + 3) = .ok (i, m₁) →
      forTest cond (.nth (n + 3)) m₁ = .ok (a, m₂) →
      Inside ⟨[body], loopExit frame n :: exits, m₂, lo + i.size + a.size⟩
        ⟨.forLoop frame init cond update body :: ss, exits, n, lo⟩
  | group {σ line frame subject groups ss exits n m lo a} : subject.value n = .ok (a, m) →
      InGroups σ groups ((switchExit frame groups m).1 :: exits) (switchExit frame groups m).2
        (lo + a.size + 1) →
      Inside σ ⟨.switch line frame subject groups :: ss, exits, n, lo⟩
  | tryBody {body catches cleanup ss exits n lo} :
      Inside ⟨body, exits, n + 3, lo⟩ ⟨.tryCatch body catches cleanup :: ss, exits, n, lo⟩
  | tryCopy {body catches cleanup ss exits n m lo a} : stmtsCode body exits (n + 3) = .ok (a, m) →
      Inside ⟨cleanup.stmts, exits, m, lo + a.size⟩
        ⟨.tryCatch body catches cleanup :: ss, exits, n, lo⟩
  | clause {σ body catches cleanup ss exits n m₁ m₂ lo a f} :
      stmtsCode body exits (n + 3) = .ok (a, m₁) →
      stmtsCode cleanup.stmts exits m₁ = .ok (f, m₂) →
      InCatches cleanup.stmts σ catches exits m₂ (lo + a.size + f.size + 1) →
      Inside σ ⟨.tryCatch body catches cleanup :: ss, exits, n, lo⟩
  | delayed {body catches slot cleanup ss exits n m₁ m₂ m₃ lo a f cs} :
      stmtsCode body exits (n + 3) = .ok (a, m₁) → stmtsCode cleanup exits m₁ = .ok (f, m₂) →
      catchParts catches exits (stmtsCode cleanup exits) m₂ = .ok (cs, m₃) →
      Inside ⟨cleanup, exits, m₃ + 2, lo + a.size + f.size + 1 + catchesSize cs + 1⟩
        ⟨.tryCatch body catches (.mk slot cleanup) :: ss, exits, n, lo⟩

/-- Statements directly inside others, wherever their code may be. -/
inductive Part : List Stmt → List Stmt → Prop
  | rest {s ss} : Part ss (s :: ss)
  | block {body ss} : Part body (.block body :: ss)
  | thenBranch {cond thenBranch elseBranch ss} :
      Part [thenBranch] (.ifElse cond thenBranch elseBranch :: ss)
  | elseBranch {cond thenBranch elseBranch ss} :
      Part [elseBranch] (.ifElse cond thenBranch (some elseBranch) :: ss)
  | whileBody {frame cond body ss} : Part [body] (.whileLoop frame cond body :: ss)
  | doBody {frame cond body ss} : Part [body] (.doLoop frame body cond :: ss)
  | forInit {frame init cond update body ss} :
      Part init (.forLoop frame init cond update body :: ss)
  | forBody {frame init cond update body ss} :
      Part [body] (.forLoop frame init cond update body :: ss)
  | group {line frame subject groups values isDefault body ss} :
      .mk values isDefault body ∈ groups → Part body (.switch line frame subject groups :: ss)
  | tryBody {body catches cleanup ss} : Part body (.tryCatch body catches cleanup :: ss)
  | clause {body catches cleanup param clauseBody ss} : .mk param clauseBody ∈ catches →
      Part clauseBody (.tryCatch body catches cleanup :: ss)
  | cleanup {body catches cleanup ss} : Part cleanup.stmts (.tryCatch body catches cleanup :: ss)

abbrev Occurs (program ss : List Stmt) : Prop :=
  Relation.ReflTransGen (fun outer inner => Part inner outer) program ss

variable {ss body program : List Stmt} {exits : Exits} {n n' : Nat} {code : Code} {prog : Listing}
  {σ : Spot} {slots : Slots}

/-- A statement of a program occurs in it. -/
theorem Occurs.of_mem {s : Stmt} (h : s ∈ ss) : ∃ rest, Occurs ss (s :: rest) := by
  induction ss with
  | nil => cases h
  | cons t ss ih =>
    rcases List.mem_cons.1 h with rfl | h
    · exact ⟨ss, .refl⟩
    · obtain ⟨rest, hrest⟩ := ih h
      exact ⟨rest, .head .rest hrest⟩

abbrev Spot.Of (program : List Stmt) (σ : Spot) : Prop :=
  Relation.ReflTransGen (fun outer inner => Inside inner outer) ⟨program, [], 0, 0⟩ σ

/-- A spot with sound statements whose code sits where it should. -/
structure Spot.Good (prog : Listing) (σ : Spot) : Prop where
  code : ∃ code n, stmtsCode σ.stmts σ.exits σ.labels = .ok (code, n) ∧ Sits prog σ.place code
  sound : ∃ slots frames vs, (∀ v ∈ vs, Slots.Holds slots v) ∧ σ.exits.Serve frames ∧
    Stmt.AllSound slots frames vs σ.stmts

section Good

variable {prog : Listing} {slots : Slots} {frames : List Frame} {vs : List Local}

variable {s : Stmt} {exits : Exits} {n n' lo t₀ t₁ : Nat} {code rest : Code} {ss : List Stmt}
  {σ : Spot} {catches : List CatchClause} {caught : List Caught}

theorem stmtsCode_single (h : stmtCode s exits n = .ok (code, n')) :
    stmtsCode [s] exits n = .ok (code, n') :=
  stmts_cons_ok.2 ⟨code, n', h, [], rfl, (List.append_nil code).symm⟩

/-- A finally clause is made of its statements. -/
theorem cleanupCode_eq (c : Cleanup) (exits : Exits) :
    cleanupCode c exits = stmtsCode c.stmts exits := by
  cases c with
  | absent => rw [cleanupCode, Cleanup.stmts, stmtsCode]
  | mk slot body => rw [cleanupCode, Cleanup.stmts]

theorem Cleanup.Sound.stmts {c : Cleanup} (h : c.Sound slots frames vs) :
    Stmt.AllSound slots frames vs c.stmts := by
  cases c with
  | absent => trivial
  | mk slot body => exact .mono (List.take_prefix _ _) (.refl _) h.2

/-- The code behind a part leads nowhere into it. -/
theorem stmts_away {hi : Nat} (hcode : stmtsCode ss exits n = .ok (code, n'))
    (hat : code.At prog hi) : Away prog lo hi code :=
  (stmtsCode_orderly ss exits hcode hat).aimed.away le_rfl

/-- The code before a part covers nothing of it. -/
theorem stmts_behind (hcode : stmtsCode ss exits n = .ok (code, n'))
    (h : Sits prog lo (code ++ rest)) : Sits prog (lo + code.size) rest :=
  h.right (stmtsCode_orderly ss exits hcode (at_append.1 h.placed).1).behind

theorem stmt_behind (hcode : stmtCode s exits n = .ok (code, n')) (h : Sits prog lo (code ++ rest)) :
    Sits prog (lo + code.size) rest :=
  h.right (stmtCode_orderly s exits hcode (at_append.1 h.placed).1).behind

/-- The first statement of a spot by itself. -/
theorem Spot.Good.head (h : Spot.Good prog ⟨s :: ss, exits, n, lo⟩) :
    (∃ code n', stmtCode s exits n = .ok (code, n') ∧ Sits prog lo code) ∧
      ∃ slots frames vs, (∀ v ∈ vs, Slots.Holds slots v) ∧ exits.Serve frames ∧
        s.Sound slots frames vs := by
  obtain ⟨⟨code, n', hcode, hsits⟩, slots, frames, vs, hvs, hexits, hs, _⟩ := h
  obtain ⟨a, m, ha, b, hb, rfl⟩ := stmts_cons_ok.1 hcode
  exact ⟨⟨a, m, ha, hsits.left (stmts_away hb (at_append.1 hsits.placed).2)⟩, slots, frames, vs,
    hvs, hexits, hs⟩

/-- The bodies of groups are good spots. -/
theorem Spot.InGroups.good {groups : List SwitchGroup} (h : σ.InGroups groups exits n lo)
    (hvs : ∀ v ∈ vs, slots.Holds v) (hexits : exits.Serve frames) {base : Nat}
    (hcode : groupsCode groups base exits n = .ok (code, n')) (hsits : Sits prog lo code)
    (hsound : SwitchGroup.AllSound slots frames vs groups) : σ.Good prog := by
  induction h generalizing base code n' with
  | head =>
    obtain ⟨a, m, ha, b, hb, rfl⟩ := groups_cons_ok.1 hcode
    have hbody := hsits.skip rfl
    refine ⟨⟨a, m, ha, hbody.left ?_⟩, slots, frames, vs, hvs, hexits, hsound.1⟩
    exact (groupsCode_orderly _ _ _ hb (at_append.1 hbody.placed).2).aimed.away le_rfl
  | tail ha _ ih =>
    obtain ⟨a, m, ha', b, hb, rfl⟩ := groups_cons_ok.1 hcode
    cases ha.symm.trans ha'
    exact ih hexits hb (stmts_behind ha (hsits.skip rfl)) hsound.2

theorem Spot.InCatches.good {cleanup : List Stmt} (h : InCatches cleanup σ catches exits n lo)
    (hvs : ∀ v ∈ vs, slots.Holds v) (hexits : exits.Serve frames) {last start stop : Label}
    (hcode : catchesCode catches exits (stmtsCode cleanup exits) last start stop n =
      .ok ((code, caught), n')) (hsits : Sits prog lo code) (htry : prog.Bounds start stop t₀ t₁)
    (hle : t₀ ≤ t₁) (hbehind : t₁ ≤ lo) (hsound : CatchClause.AllSound slots frames vs catches)
    (hcleanup : Stmt.AllSound slots frames vs cleanup) : σ.Good prog := by
  have horderly : ∀ {clauses : List CatchClause} {exits : Exits} {n n' lo : Nat} {c : Code} {more},
      catchesCode clauses exits (stmtsCode cleanup exits) last start stop n = .ok ((c, more), n') →
        c.At prog lo → t₁ ≤ lo → Aimed prog lo c := fun hc hat hlo =>
    (catchesCode_orderly _ _ (stmtsCode_orderly cleanup _) hc hat htry hle hlo).aimed
  induction h generalizing code caught n' with
  | body =>
    obtain ⟨a, m₁, ha, f, m₂, hf, c, more, hc, rfl, rfl⟩ := catches_cons_ok.1 hcode
    simp only [List.append_assoc, List.cons_append, List.nil_append] at hsits
    have hbody := (hsits.skip rfl).skip rfl
    have hat := hbody.placed
    simp only [at_append, at_cons] at hat
    have hstart := hsits.placed.1
    refine ⟨⟨a, m₁, ha, hbody.left (.cons rfl (.append ?_ (.cons rfl (.handler hstart ?_ ?_))))⟩,
      slots, frames, _, holds_cons hsound.1 hvs, hexits, hsound.2.2.1⟩
    · exact stmts_away hf hat.2.2.1
    · exact .inl (Nat.lt_succ_self _)
    · exact (horderly hc hat.2.2.2.2.2 (by omega)).away (by omega)
  | copy ha =>
    obtain ⟨a, m₁, ha', f, m₂, hf, c, more, hc, rfl, rfl⟩ := catches_cons_ok.1 hcode
    cases ha.symm.trans ha'
    simp only [List.append_assoc, List.cons_append, List.nil_append] at hsits
    have hcopy := (stmts_behind ha ((hsits.skip rfl).skip rfl)).skip rfl
    have hat := hcopy.placed
    simp only [at_append, at_cons] at hat
    have hstart := hsits.placed.1
    refine ⟨⟨f, m₂, hf, hcopy.left (.cons rfl (.handler hstart (.inl ?_) ?_))⟩, slots, frames, vs,
      hvs, hexits, hcleanup⟩
    · simp only [Item.size_label, Item.size_store]
      omega
    · exact (horderly hc hat.2.2.2 (by omega)).away (by omega)
  | tail ha hf _ ih =>
    obtain ⟨a, m₁, ha', f, m₂, hf', c, more, hc, rfl, rfl⟩ := catches_cons_ok.1 hcode
    cases ha.symm.trans ha'
    cases hf.symm.trans hf'
    simp only [List.append_assoc, List.cons_append, List.nil_append] at hsits
    have hcopy := (stmts_behind ha ((hsits.skip rfl).skip rfl)).skip rfl
    have hmore := ((stmts_behind hf hcopy).skip rfl).skip_handler htry (by omega)
    exact ih hexits hc hmore (by omega) hsound.2.2.2

/-- Clauses cover nothing behind themselves. -/
theorem Catching.behind (h : Catching prog t₀ t₁ lo code caught) (hle : t₁ ≤ lo) :
    Behind prog (lo + code.size) code := by
  intro k hk p hp
  obtain ⟨first, last, hbounds, _, hplaces⟩ := h.bounds k hk
  rw [← Bool.not_eq_true, Listing.within_of_bounds hbounds]
  omega

/-- The parts of a try statement, each in its place. -/
theorem try_sits {body : List Stmt} {cleanup : Cleanup} {m₁ m₂ m₃ : Nat} {a f c d : Code}
    (ha : stmtsCode body exits (n + 3) = .ok (a, m₁))
    (hf : stmtsCode cleanup.stmts exits m₁ = .ok (f, m₂))
    (hc : catchesCode catches exits (stmtsCode cleanup.stmts exits) (.nth (n + 3)) (.nth (n + 1))
      (.nth (n + 2)) m₂ = .ok ((c, caught), m₃))
    (hd : delayed cleanup exits (.nth (n + 1)) (.nth (n + 2)) caught m₃ = .ok (d, n'))
    (h : Sits prog lo ([.label (.nth (n + 1))] ++ a ++ [.label (.nth (n + 2))] ++ f ++
      [goto (.nth (n + 3))] ++ c ++ d ++ [.label (.nth (n + 3))])) :
    prog.Bounds (.nth (n + 1)) (.nth (n + 2)) lo (lo + a.size) ∧ Sits prog lo a ∧
      Sits prog (lo + a.size) f ∧ Sits prog (lo + a.size + f.size + 1) c ∧
      Sits prog (lo + a.size + f.size + 1 + c.size) d := by
  have hat := h.placed
  simp only [at_append, at_cons, Code.size_append, Code.size_cons, Code.size_nil, Item.size_label,
    Item.size_goto, Nat.add_zero, Nat.zero_add, ← Nat.add_assoc] at hat
  obtain ⟨⟨⟨⟨⟨⟨⟨⟨hstart, _⟩, _⟩, hstop, _⟩, hatf⟩, _⟩, hatc⟩, hatd⟩, _⟩ := hat
  have hcatching := catchesCode_orderly catches exits (stmtsCode_orderly _ exits) hc hatc
    ⟨hstart, hstop⟩ (by omega) (by omega)
  have hcleanup : Orderly (cleanupCode cleanup exits) := by
    rw [cleanupCode_eq]
    exact stmtsCode_orderly _ exits
  have haimed := delayed_aimed hcleanup hd hatd
  simp only [List.append_assoc, List.cons_append, List.nil_append] at h
  have htail : ∀ {lo' hi' : Nat}, hi' ≤ lo + a.size + f.size + 1 → Away prog lo' hi'
      (goto (.nth (n + 3)) :: (c ++ (d ++ [.label (.nth (n + 3))]))) := fun hle =>
    .cons rfl (.append (hcatching.aimed.away hle) (.append (haimed.away (by omega)) (.quiet rfl)))
  have hbody := h.skip rfl
  have hcopy := (stmts_behind ha hbody).skip rfl
  have hclauses := (stmts_behind hf hcopy).skip rfl
  have hdelayed := hclauses.right (hcatching.behind (by omega))
  refine ⟨⟨hstart, hstop⟩, hbody.left (.cons rfl (.append (stmts_away hf hatf) (htail ?_))),
    hcopy.left (htail ?_), hclauses.left (.append (haimed.away le_rfl) (.quiet rfl)),
    hdelayed.left (.quiet rfl)⟩
  · simp only [Item.size_label]
    omega
  · simp only [Item.size_label]
    omega

/-- What is directly inside a good spot is good. -/
theorem Spot.Inside.good {τ : Spot} (h : Inside τ σ) (hσ : σ.Good prog) : τ.Good prog := by
  cases h with
  | rest ha =>
    obtain ⟨⟨code, n', hcode, hsits⟩, slots, frames, vs, hvs, hexits, hs, hss⟩ := hσ
    obtain ⟨a, m, ha', b, hb, rfl⟩ := stmts_cons_ok.1 hcode
    cases ha.symm.trans ha'
    exact ⟨⟨b, n', hb, stmt_behind ha hsits⟩, slots, frames, _, holds_declares hvs hs, hexits, hss⟩
  | block =>
    obtain ⟨⟨code, n', hcode, hsits⟩, slots, frames, vs, hvs, hexits, hs⟩ := hσ.head
    exact ⟨⟨code, n', hcode, hsits⟩, slots, frames, vs, hvs, hexits, hs⟩
  | @thenBranch cond t e ss exits n m lo a ha =>
    obtain ⟨⟨code, n', hcode, hsits⟩, slots, frames, vs, hvs, hexits, hs⟩ := hσ.head
    have hquiet := (forms_quiet cond).cond _ _ ha
    cases e with
    | none =>
      obtain ⟨a', m', ha', b, hb, rfl⟩ := if_ok.1 hcode
      cases ha.symm.trans ha'
      rw [List.append_assoc] at hsits
      exact ⟨⟨b, n', stmtsCode_single hb, (hsits.right (.quiet hquiet)).left (.quiet rfl)⟩, slots,
        frames, vs, hvs, hexits, hs.2, trivial⟩
    | some e =>
      obtain ⟨a', m', ha', b, m₂, hb, c, hc, rfl⟩ := ifElse_ok.1 hcode
      cases ha.symm.trans ha'
      simp only [List.append_assoc, List.cons_append, List.nil_append] at hsits
      have hthen := hsits.right (.quiet hquiet)
      have hat := hthen.placed
      simp only [at_append, at_cons] at hat
      have hc' := (stmtCode_orderly e exits hc hat.2.2.2.1).aimed
      refine ⟨⟨b, m₂, stmtsCode_single hb, hthen.left (.cons rfl (.cons rfl (.append ?_ ?_)))⟩,
        slots, frames, vs, hvs, hexits, hs.2.1, trivial⟩
      · exact hc'.away (by simp)
      · exact .quiet rfl
  | @elseBranch cond t e ss exits n m m' lo a b ha hb =>
    obtain ⟨⟨code, n', hcode, hsits⟩, slots, frames, vs, hvs, hexits, hs⟩ := hσ.head
    obtain ⟨a', m₁, ha', b', m₂, hb', c, hc, rfl⟩ := ifElse_ok.1 hcode
    cases ha.symm.trans ha'
    cases hb.symm.trans hb'
    simp only [List.append_assoc, List.cons_append, List.nil_append] at hsits
    have helse := ((stmt_behind hb (hsits.right (.quiet ((forms_quiet cond).cond _ _ ha)))).skip
      rfl).skip rfl
    exact ⟨⟨c, n', stmtsCode_single hc, helse.left (.quiet rfl)⟩, slots, frames, vs, hvs, hexits,
      hs.2.2, trivial⟩
  | @whileBody frame cond body ss exits n m lo a ha =>
    obtain ⟨⟨code, n', hcode, hsits⟩, slots, frames, vs, hvs, hexits, hs⟩ := hσ.head
    obtain ⟨a', m₁, ha', b, hb, rfl⟩ := while_ok.1 hcode
    cases ha.symm.trans ha'
    simp only [List.append_assoc, List.cons_append, List.nil_append] at hsits
    have hbody := (hsits.skip rfl).right (.quiet ((forms_quiet cond).cond _ _ ha))
    exact ⟨⟨b, n', stmtsCode_single hb, hbody.left (.quiet rfl)⟩, slots, _, vs, hvs,
      .cons (loop_serves frame _ _) hexits, hs.2.2, trivial⟩
  | @doBody frame cond body ss exits n lo =>
    obtain ⟨⟨code, n', hcode, hsits⟩, slots, frames, vs, hvs, hexits, hs⟩ := hσ.head
    obtain ⟨b, m, hb, a, ha, rfl⟩ := do_ok.1 hcode
    simp only [List.append_assoc, List.cons_append, List.nil_append] at hsits
    have hquiet := (forms_quiet cond).cond _ _ ha
    have hbody := (hsits.skip rfl).skip rfl
    exact ⟨⟨b, m, stmtsCode_single hb, hbody.left (.append (.quiet hquiet) (.quiet rfl))⟩, slots, _,
      vs, hvs, .cons (loop_serves frame _ _) hexits, hs.2.1, trivial⟩
  | @forInit frame init cond update body ss exits n lo =>
    obtain ⟨⟨code, n', hcode, hsits⟩, slots, frames, vs, hvs, hexits, hs⟩ := hσ.head
    obtain ⟨i, m₁, hi, a, m₂, ha, b, m₃, hb, u, hu, rfl⟩ := for_ok.1 hcode
    simp only [List.append_assoc, List.cons_append, List.nil_append] at hsits
    have hat := hsits.placed
    simp only [at_append, at_cons] at hat
    have hb' := (stmtCode_orderly body _ hb hat.2.2.2.1).aimed
    refine ⟨⟨i, m₁, hi, hsits.left (.cons rfl (.append (.quiet ?_) (.append (hb'.away ?_) (.cons rfl
      (.append (.quiet (effects_quiet update hu)) (.quiet rfl))))))⟩, slots, _, vs, hvs,
      .cons (loop_serves frame _ _) hexits, hs.2.2.1⟩
    · exact Meaning.forTest_quiet cond _ ha
    · simp
  | @forBody frame init cond update body ss exits n m₁ m₂ lo i a hi ha =>
    obtain ⟨⟨code, n', hcode, hsits⟩, slots, frames, vs, hvs, hexits, hs⟩ := hσ.head
    obtain ⟨i', m₁', hi', a', m₂', ha', b, m₃, hb, u, hu, rfl⟩ := for_ok.1 hcode
    cases hi.symm.trans hi'
    cases ha.symm.trans ha'
    simp only [List.append_assoc, List.cons_append, List.nil_append] at hsits
    have hbody := ((stmts_behind hi hsits).skip rfl).right (.quiet (Meaning.forTest_quiet cond _ ha))
    exact ⟨⟨b, m₃, stmtsCode_single hb, hbody.left (.cons rfl (.append
      (.quiet (effects_quiet update hu)) (.quiet rfl)))⟩, slots, _, _,
      holds_inSight hvs hs.2.2.1, .cons (loop_serves frame _ _) hexits, hs.2.2.2.2.2, trivial⟩
  | @group _ line frame subject groups ss exits n m lo a ha hσ' =>
    obtain ⟨⟨code, n', hcode, hsits⟩, slots, frames, vs, hvs, hexits, hs⟩ := hσ.head
    obtain ⟨a', m', ha', d, rfl, o, rfl, b, hb, rfl⟩ := switch_ok.1 hcode
    cases ha.symm.trans ha'
    simp only [List.append_assoc, List.cons_append, List.nil_append] at hsits
    have hbodies := (hsits.right (.quiet ((forms_quiet subject).value ha))).skip rfl
    refine hσ'.good hvs (.cons (switch_serves hs.1 _) hexits) hb (hbodies.left (.append ?_ ?_))
      hs.2.2.2.2.2
    · exact .quiet (fallback_quiet _ _ _)
    · exact .quiet (wayOut_quiet _ _)
  | @tryBody body catches cleanup ss exits n lo =>
    obtain ⟨⟨code, n', hcode, hsits⟩, slots, frames, vs, hvs, hexits, hs⟩ := hσ.head
    obtain ⟨a, m₁, ha, f, m₂, hf, c, caught, m₃, hc, d, hd, rfl⟩ := try_ok.1 hcode
    rw [cleanupCode_eq] at hf hc
    obtain ⟨_, hbody, _⟩ := try_sits ha hf hc hd hsits
    exact ⟨⟨a, m₁, ha, hbody⟩, slots, frames, vs, hvs, hexits, hs.1⟩
  | @tryCopy body catches cleanup ss exits n m lo a ha =>
    obtain ⟨⟨code, n', hcode, hsits⟩, slots, frames, vs, hvs, hexits, hs⟩ := hσ.head
    obtain ⟨a', m₁, ha', f, m₂, hf, c, caught, m₃, hc, d, hd, rfl⟩ := try_ok.1 hcode
    rw [cleanupCode_eq] at hf hc
    cases ha.symm.trans ha'
    obtain ⟨_, _, hcopy, _⟩ := try_sits ha hf hc hd hsits
    exact ⟨⟨f, m₂, hf, hcopy⟩, slots, frames, vs, hvs, hexits, hs.2.2.stmts⟩
  | @clause _ body catches cleanup ss exits n m₁ m₂ lo a f ha hf hσ' =>
    obtain ⟨⟨code, n', hcode, hsits⟩, slots, frames, vs, hvs, hexits, hs⟩ := hσ.head
    obtain ⟨a', m₁', ha', f', m₂', hf', c, caught, m₃, hc, d, hd, rfl⟩ := try_ok.1 hcode
    rw [cleanupCode_eq] at hf' hc
    cases ha.symm.trans ha'
    cases hf.symm.trans hf'
    obtain ⟨htry, _, _, hclauses, _⟩ := try_sits ha hf hc hd hsits
    exact hσ'.good hvs hexits hc hclauses htry (by omega) (by omega) hs.2.1 hs.2.2.stmts
  | @delayed body catches slot cleanup ss exits n m₁ m₂ m₃ lo a f cs ha hf hcs =>
    obtain ⟨⟨code, n', hcode, hsits⟩, slots, frames, vs, hvs, hexits, hs⟩ := hσ.head
    obtain ⟨a', m₁', ha', f', m₂', hf', c, caught, m₃', hc, d, hd, rfl⟩ := try_ok.1 hcode
    rw [cleanupCode_eq] at hf' hc
    obtain ⟨_, _, _, _, hdelayed⟩ := try_sits ha' hf' hc hd hsits
    cases ha.symm.trans ha'
    cases hf.symm.trans hf'
    obtain ⟨cs', hcs', rfl, rfl⟩ := catchesCode_parts.1 hc
    cases hcs.symm.trans hcs'
    obtain ⟨g, hg, rfl⟩ := delay_ok.1 hd
    rw [size_catches] at hdelayed
    rw [cleanupCode_eq] at hg
    simp only [List.append_assoc, List.cons_append, List.nil_append] at hdelayed
    have hhandler := hdelayed.placed.1
    have hcopy := ((hdelayed.skip rfl).skip rfl).skip rfl
    refine ⟨⟨g, n', hg, hcopy.left (.cons rfl (.cons rfl fun k hk => ?_))⟩, slots, frames, vs, hvs,
      hexits, hs.2.2.stmts⟩
    rw [handlers_delays] at hk
    obtain ⟨r, _, rfl⟩ := List.mem_map.1 hk
    exact ⟨_, hhandler, .inl (Nat.lt_succ_self _)⟩

end Good

theorem Spot.InGroups.exists {values : List Int32} {isDefault : Bool} {groups : List SwitchGroup}
    (h : .mk values isDefault body ∈ groups) {base : Nat}
    (hcode : groupsCode groups base exits n = .ok (code, n')) (lo : Nat) :
    ∃ σ : Spot, σ.InGroups groups exits n lo ∧ σ.stmts = body := by
  induction groups generalizing base n code lo with
  | nil => cases h
  | cons g groups ih =>
    obtain ⟨values', isDefault', body'⟩ := g
    obtain ⟨a, m, ha, b, hb, rfl⟩ := groups_cons_ok.1 hcode
    rcases List.mem_cons.1 h with heq | h
    · cases heq
      exact ⟨⟨body, exits, n, lo⟩, .head, rfl⟩
    · obtain ⟨σ, hσ, hstmts⟩ := ih h hb (lo + a.size)
      exact ⟨σ, .tail ha hσ, hstmts⟩

theorem Spot.InCatches.exists {cleanup : List Stmt} {param : Local} {catches : List CatchClause}
    (h : .mk param body ∈ catches) {last start stop : Label} {caught : List Caught}
    (hcode : catchesCode catches exits (stmtsCode cleanup exits) last start stop n =
      .ok ((code, caught), n')) (lo : Nat) :
    ∃ σ : Spot, InCatches cleanup σ catches exits n lo ∧ σ.stmts = body := by
  induction catches generalizing n code caught lo with
  | nil => cases h
  | cons c catches ih =>
    obtain ⟨param', body'⟩ := c
    obtain ⟨a, m₁, ha, f, m₂, hf, c, more, hc, rfl, rfl⟩ := catches_cons_ok.1 hcode
    rcases List.mem_cons.1 h with heq | h
    · cases heq
      exact ⟨⟨body, exits, n + 2, lo + 1⟩, .body, rfl⟩
    · obtain ⟨σ, hσ, hstmts⟩ := ih h hc (lo + 1 + a.size + f.size + 1)
      exact ⟨σ, .tail ha hf hσ, hstmts⟩

/-- Statements inside others have a spot inside theirs. -/
theorem Spot.Good.exists_inside (hσ : σ.Good prog) (h : Part ss σ.stmts) :
    ∃ τ : Spot, τ.Inside σ ∧ τ.stmts = ss := by
  obtain ⟨stmts, exits, n, lo⟩ := σ
  cases h with
  | rest =>
    obtain ⟨⟨code, n', hcode, _⟩, _⟩ := hσ.head
    exact ⟨_, .rest hcode, rfl⟩
  | block => exact ⟨_, .block, rfl⟩
  | @thenBranch cond t e ss =>
    obtain ⟨⟨code, n', hcode, _⟩, _⟩ := hσ.head
    cases e with
    | none =>
      obtain ⟨a, m, ha, _⟩ := if_ok.1 hcode
      exact ⟨_, .thenBranch ha, rfl⟩
    | some e =>
      obtain ⟨a, m, ha, _⟩ := ifElse_ok.1 hcode
      exact ⟨_, .thenBranch ha, rfl⟩
  | elseBranch =>
    obtain ⟨⟨code, n', hcode, _⟩, _⟩ := hσ.head
    obtain ⟨a, m, ha, b, m', hb, _⟩ := ifElse_ok.1 hcode
    exact ⟨_, .elseBranch ha hb, rfl⟩
  | whileBody =>
    obtain ⟨⟨code, n', hcode, _⟩, _⟩ := hσ.head
    obtain ⟨a, m, ha, _⟩ := while_ok.1 hcode
    exact ⟨_, .whileBody ha, rfl⟩
  | doBody => exact ⟨_, .doBody, rfl⟩
  | forInit => exact ⟨_, .forInit, rfl⟩
  | forBody =>
    obtain ⟨⟨code, n', hcode, _⟩, _⟩ := hσ.head
    obtain ⟨i, m₁, hi, a, m₂, ha, _⟩ := for_ok.1 hcode
    exact ⟨_, .forBody hi ha, rfl⟩
  | group hmem =>
    obtain ⟨⟨code, n', hcode, _⟩, _⟩ := hσ.head
    obtain ⟨a, m, ha, d, rfl, o, rfl, b, hb, _⟩ := switch_ok.1 hcode
    obtain ⟨τ, hτ, hstmts⟩ := Spot.InGroups.exists hmem hb (lo + a.size + 1)
    exact ⟨τ, .group ha hτ, hstmts⟩
  | tryBody => exact ⟨_, .tryBody, rfl⟩
  | clause hmem =>
    obtain ⟨⟨code, n', hcode, _⟩, _⟩ := hσ.head
    obtain ⟨a, m₁, ha, f, m₂, hf, c, caught, m₃, hc, _⟩ := try_ok.1 hcode
    rw [cleanupCode_eq] at hf hc
    obtain ⟨τ, hτ, hstmts⟩ := Spot.InCatches.exists hmem hc (lo + a.size + f.size + 1)
    exact ⟨τ, .clause ha hf hτ, hstmts⟩
  | cleanup =>
    obtain ⟨⟨code, n', hcode, _⟩, _⟩ := hσ.head
    obtain ⟨a, m₁, ha, _⟩ := try_ok.1 hcode
    exact ⟨_, .tryCopy ha, rfl⟩

/-- Every spot of a program is a good one. -/
theorem Spot.Of.good (hsound : Stmt.AllSound slots [] [] program)
    (hcode : stmtsCode program [] 0 = .ok (code, n)) (hholds : prog.Holds (code ++ [op .ret]))
    (h : σ.Of program) : σ.Good prog := by
  induction h with
  | refl =>
    refine ⟨⟨code, n, hcode, (at_append.1 hholds.placed).1, [], [], ?_, by simp, by simp⟩, slots, [],
      [], by simp, .nil, hsound⟩
    rw [hholds.handlers, Code.handlers_append]
    rfl
  | tail _ hinside ih => exact hinside.good ih

/-- All statements of a program stand somewhere. -/
theorem Spot.exists_of_occurs (hsound : Stmt.AllSound slots [] [] program)
    (hcode : stmtsCode program [] 0 = .ok (code, n)) (hholds : prog.Holds (code ++ [op .ret]))
    (h : Occurs program ss) : ∃ σ : Spot, σ.Of program ∧ σ.stmts = ss := by
  induction h with
  | refl => exact ⟨_, .refl, rfl⟩
  | tail _ hpart ih =>
    obtain ⟨σ, hσ, rfl⟩ := ih
    obtain ⟨τ, hτ, hstmts⟩ := (hσ.good hsound hcode hholds).exists_inside hpart
    exact ⟨τ, .tail hσ hτ, hstmts⟩

end Checked

end Jminus
