import Jminus.Proofs.Frame
import Jminus.Proofs.Spots
import Jminus.Proofs.Stores
import Mathlib

/-!
A finally clause runs exactly once.

A run that is in a block of a try statement can leave the blocks in three ways: by a jump to the exits
of the frames around it, into the copy of the finally clause behind the block, or to the handler that
puts an exception aside and runs a copy of its own. Once in a copy, it stays in that copy until it is
done with it. Then the statement is left as it would have been left without the finally clause.
-/
namespace Jminus

open Machine (tick handlerFor? accepts Performed)

namespace Machine

inductive Stays (prog : Listing) (limit : Nat) (P : Machine → Prop) : Machine → Machine → Prop
  | refl {m : Machine} (h : P m) : Stays prog limit P m m
  | step {m m₁ m' : Machine} (h : P m) (htick : tick prog limit m = .running m₁)
      (hrest : Stays prog limit P m₁ m') : Stays prog limit P m m'

variable {prog : Listing} {limit : Nat} {P : Machine → Prop} {m m' : Machine}

theorem Stays.last (h : Stays prog limit P m m') : P m' := by
  induction h with
  | refl h => exact h
  | step _ _ _ ih => exact ih

/-- A run that starts with a property keeps it, or there is a tick at which it is lost. -/
theorem Leads.stays_or_leaves (h : Leads prog limit m m') (hP : P m) :
    Stays prog limit P m m' ∨ ∃ m₁ m₂, Stays prog limit P m m₁ ∧ tick prog limit m₁ = .running m₂ ∧
      ¬ P m₂ ∧ Leads prog limit m₂ m' := by
  induction h using Relation.ReflTransGen.head_induction_on with
  | refl => exact .inl (.refl hP)
  | @head m m₁ htick hrest ih =>
    by_cases hP₁ : P m₁
    · rcases ih hP₁ with hstays | ⟨m₂, m₃, hstays, hleaves⟩
      · exact .inl (.step hP htick hstays)
      · exact .inr ⟨m₂, m₃, .step hP htick hstays, hleaves⟩
    · exact .inr ⟨m, m₁, .refl hP, htick, hP₁, hrest⟩

end Machine

namespace Checked

open Code

/-- Code in its place, with jumps into itself or to the given labels, and with its entries in
order. -/
structure Piece (prog : Listing) (outs : List Label) (lo : Nat) (code : Code) : Prop where
  placed : code.At prog lo
  laid : ∃ n n', Laid n n' outs [] code
  ordered : Ordered prog lo code

/-- A jump to one of the given labels, or to the end of the program. -/
def JumpsOut (prog : Listing) (outs : List Label) (m m' : Machine) : Prop :=
  ∃ ins, prog.code[m.pc]? = some ins ∧
    ((∃ l ∈ ins.labels, l ∈ outs ∧ prog.place? l = some m'.pc) ∨
      (∃ arg, ins = .plain .ret arg) ∧ m'.pc = prog.code.size)

namespace Piece

variable {prog : Listing} {outs : List Label} {lo limit : Nat} {code : Code} {m m' : Machine}

/-- A tick in a piece goes on in the piece or to its end, or it jumps out, or it throws. -/
theorem step (h : Piece prog outs lo code) (hlo : lo ≤ m.pc) (hhi : m.pc < lo + code.size)
    (htick : tick prog limit m = .running m') :
    (Performed prog m m' ∧ lo ≤ m'.pc ∧ m'.pc ≤ lo + code.size) ∨ JumpsOut prog outs m m' ∨
      ∃ x k, Machine.Caught prog x k m m' := by
  rcases Machine.tick_running htick with hperformed | hcaught
  · obtain ⟨ins, hins, hrun⟩ := id hperformed
    obtain ⟨i, hi, ins', hi', hins'⟩ := h.placed.item hlo hhi
    cases hins.symm.trans hins'
    obtain ⟨n, n', hlaid⟩ := h.laid
    rcases (Machine.perform_moves hrun).1 with hpc | ⟨l, hl, hplace⟩ | hret
    · dsimp only at hpc
      exact .inl ⟨hperformed, by omega, by omega⟩
    · rcases hlaid.jumps l (List.mem_flatMap.2 ⟨i, hi, i.labels_subset_jumps hi' l hl⟩) with
        hbetween | hout
      · obtain ⟨q, hq, hqlo, hqhi⟩ := h.placed.range (hlaid.placed hbetween)
        cases hq.symm.trans hplace
        exact .inl ⟨hperformed, hqlo, hqhi⟩
      · exact .inr (.inl ⟨ins, hins, .inl ⟨l, hl, hout, hplace⟩⟩)
    · exact .inr (.inl ⟨ins, hins, .inr hret⟩)
  · exact .inr (.inr hcaught)

/-- A tick in a piece leaves the locals alone that the piece does not store to. -/
theorem locals (h : Piece prog outs lo code) (hlo : lo ≤ m.pc) (hhi : m.pc < lo + code.size)
    {slot : Nat} (havoids : code.Avoids slot) (htick : tick prog limit m = .running m') :
    m'.locals[slot]? = m.locals[slot]? := by
  rcases Machine.tick_locals htick with hsame | ⟨cell, n, v, hins, hset⟩
  · rw [hsame]
  · obtain ⟨i, hi, ins, hi', hins'⟩ := h.placed.item hlo hhi
    cases hins.symm.trans hins'
    have hne : n ≠ slot := havoids i hi cell n (i.eq_plain hi')
    rw [hset, Array.getElem?_setIfInBounds_ne hne]

end Piece

variable {slots : Slots} {frames : List Frame} {vs : List Local} {exits : Exits} {n n' : Nat}
  {cleanup : List Stmt} {catches : List CatchClause}

/-- The code of sound statements is a piece. -/
theorem Piece.of_stmts {prog : Listing} {ss : List Stmt} {lo : Nat} {code : Code}
    (hvs : ∀ v ∈ vs, slots.Holds v) (hexits : exits.Serve frames)
    (hsound : Stmt.AllSound slots frames vs ss) (hcode : stmtsCode ss exits n = .ok (code, n'))
    (hat : code.At prog lo) : Piece prog exits.labels lo code :=
  ⟨hat, ⟨n, n', (stmtsCode_lays hvs hexits hsound).laid hcode⟩, stmtsCode_orderly ss exits hcode hat⟩

namespace TryParts

/-- A try or catch block, with the copy of the finally clause that stands where it ends. -/
structure Block where
  first : Nat
  last : Nat
  copy : Code

def blocks (t : TryParts) (lo : Nat) : List Block :=
  ⟨lo, t.copyAt lo, t.copy⟩ ::
    (t.clauses lo).map fun x => ⟨x.1, x.1 + 1 + x.2.body.size, x.2.copy⟩

def clausePieces (xs : List (Nat × CatchPart)) : List (Nat × Code) :=
  xs.flatMap fun x => [(x.1 + 1, x.2.body), (x.1 + 1 + x.2.body.size, x.2.copy)]

/-- All code of a statement that belongs to statements inside it, with its places. -/
def pieces (t : TryParts) (lo : Nat) : List (Nat × Code) :=
  (lo, t.body) :: (t.copyAt lo, t.copy) :: (clausePieces (t.clauses lo) ++ [(t.delayedAt lo, t.delayed)])

theorem clausePieces_range {cs : List CatchPart} {pc : Nat} {P : Nat × Code}
    (h : P ∈ clausePieces (placedFrom pc cs)) : pc ≤ P.1 ∧ P.1 + P.2.size ≤ pc + catchesSize cs := by
  obtain ⟨x, hx, hP⟩ := List.mem_flatMap.1 h
  obtain ⟨_, hlo, hhi⟩ := placedFrom_mem hx
  have hsize : x.2.size = 1 + x.2.body.size + x.2.copy.size + 1 := rfl
  simp only [List.mem_cons, List.not_mem_nil, or_false] at hP
  rcases hP with rfl | rfl
  · exact ⟨by dsimp only; omega, by dsimp only; omega⟩
  · exact ⟨by dsimp only; omega, by dsimp only; omega⟩

theorem clausePieces_apart (pc : Nat) (cs : List CatchPart) :
    (clausePieces (placedFrom pc cs)).Pairwise fun P Q => P.1 + P.2.size ≤ Q.1 := by
  induction cs generalizing pc with
  | nil => exact .nil
  | cons c cs ih =>
    have hrest := ih (pc + c.size)
    have hsize : c.size = 1 + c.body.size + c.copy.size + 1 := rfl
    refine List.pairwise_cons.2 ⟨fun Q hQ => ?_, List.pairwise_cons.2 ⟨fun Q hQ => ?_, hrest⟩⟩
    · rcases List.mem_cons.1 hQ with rfl | hQ
      · exact le_rfl
      · have := clausePieces_range hQ
        dsimp only
        omega
    · have := clausePieces_range hQ
      dsimp only
      omega

/-- Every piece lies inside the statement. -/
theorem pieces_range {t : TryParts} {lo : Nat} {P : Nat × Code} (h : P ∈ t.pieces lo) :
    lo ≤ P.1 ∧ P.1 + P.2.size ≤ t.rethrowAt lo := by
  have hplaces : t.catchesAt lo = t.copyAt lo + t.copy.size + 1 ∧ t.copyAt lo = lo + t.body.size ∧
      t.handlerAt lo = t.catchesAt lo + catchesSize t.catches ∧ t.delayedAt lo = t.handlerAt lo + 1 ∧
      t.rethrowAt lo = t.delayedAt lo + t.delayed.size := ⟨rfl, rfl, rfl, rfl, rfl⟩
  simp only [pieces, List.mem_cons, List.mem_append, List.not_mem_nil, or_false] at h
  rcases h with rfl | rfl | hP | rfl
  · exact ⟨le_rfl, by dsimp only; omega⟩
  · exact ⟨by dsimp only; omega, by dsimp only; omega⟩
  · have := clausePieces_range hP
    omega
  · exact ⟨by dsimp only; omega, by dsimp only; omega⟩

/-- Copies of the finally clause are pieces. -/
theorem copies_subset (t : TryParts) (lo : Nat) : t.copies lo ⊆ t.pieces lo := by
  intro P hP
  simp only [copies, List.mem_cons, List.mem_append, List.mem_map] at hP
  simp only [pieces, clausePieces, List.mem_cons, List.mem_append, List.mem_flatMap]
  rcases hP with (rfl | ⟨x, hx, rfl⟩) | hP
  · exact .inr (.inl rfl)
  · exact .inr (.inr (.inl ⟨x, hx, .inr (.inl rfl)⟩))
  · exact .inr (.inr (.inr hP))

theorem in_statement {t : TryParts} {lo p : Nat} {P : Nat × Code} (h : P ∈ t.pieces lo)
    (hp : P.1 ≤ p ∧ p < P.1 + P.2.size) : lo ≤ p ∧ p < t.lastAt lo := by
  have hlast : t.lastAt lo = t.rethrowAt lo + 2 := rfl
  have hrange := pieces_range h
  omega

/-- A place lies in one piece only. -/
theorem pieces_unique {t : TryParts} {lo p : Nat} {P Q : Nat × Code} (hP : P ∈ t.pieces lo)
    (hQ : Q ∈ t.pieces lo) (hp : P.1 ≤ p ∧ p < P.1 + P.2.size) (hq : Q.1 ≤ p ∧ p < Q.1 + Q.2.size) :
    P = Q := by
  have hplaces : t.catchesAt lo = t.copyAt lo + t.copy.size + 1 ∧ t.copyAt lo = lo + t.body.size ∧
      t.handlerAt lo = t.catchesAt lo + catchesSize t.catches ∧ t.delayedAt lo = t.handlerAt lo + 1 :=
    ⟨rfl, rfl, rfl, rfl⟩
  have hchain : (t.pieces lo).Pairwise fun P Q => P.1 + P.2.size ≤ Q.1 := by
    refine List.pairwise_cons.2 ⟨fun Q hQ => ?_, List.pairwise_cons.2 ⟨fun Q hQ => ?_,
      List.pairwise_append.2 ⟨clausePieces_apart _ _, List.pairwise_singleton _ _, fun P hP Q hQ => ?_⟩⟩⟩
    · simp only [List.mem_cons, List.mem_append, List.not_mem_nil, or_false] at hQ
      rcases hQ with rfl | hQ | rfl
      · exact le_rfl
      · have := clausePieces_range hQ
        dsimp only
        omega
      · dsimp only
        omega
    · simp only [List.mem_append, List.mem_singleton] at hQ
      rcases hQ with hQ | rfl
      · have := clausePieces_range hQ
        dsimp only
        omega
      · dsimp only
        omega
    · obtain rfl := List.mem_singleton.1 hQ
      have := clausePieces_range hP
      dsimp only
      omega
  let Apart : Nat × Code → Nat × Code → Prop := fun P Q =>
    P.1 + P.2.size ≤ Q.1 ∨ Q.1 + Q.2.size ≤ P.1
  have hsymm : Std.Symm Apart := ⟨fun _ _ h => h.symm⟩
  have hapart : (t.pieces lo).Pairwise Apart := hchain.imp .inl
  by_contra hne
  rcases hapart.forall hP hQ hne with h | h <;> omega

/-- A statement whose code stands in a listing as it should. -/
structure Stands (prog : Listing) (outs : List Label) (lo : Nat) (t : TryParts) : Prop where
  placed : t.Placed prog lo
  pieces : ∀ P ∈ t.pieces lo, Piece prog outs P.1 P.2
  spared : t.delayed.Avoids t.slot
  sits : Sits prog lo t.code
  resolved : prog.Resolved

def inner (t : TryParts) : List Handler :=
  Code.handlers (t.front ++ t.catches.flatMap (·.code t.start t.stop t.last))

theorem handlers_code (t : TryParts) : t.code.handlers = t.inner ++ t.back.handlers := by
  simp only [code, inner, Code.handlers_append, Code.handlers_label, Code.handlers_nil,
    List.append_nil]

theorem mem_inner {t : TryParts} (lo : Nat) {k : Handler} (h : k ∈ t.inner) :
    k ∈ t.body.handlers ∨ k ∈ t.copy.handlers ∨ ∃ x ∈ t.clauses lo,
      k ∈ x.2.body.handlers ∨ k ∈ x.2.copy.handlers ∨ k = x.2.entry t.start t.stop := by
  simp only [inner, front, Code.handlers_append, List.mem_append] at h
  rcases h with ((((h | h) | h) | h) | h) | h
  · cases h
  · exact .inl h
  · cases h
  · exact .inr (.inl h)
  · cases h
  · obtain ⟨i, hi, hik⟩ := List.mem_filterMap.1 h
    obtain ⟨c, hc, hic⟩ := List.mem_flatMap.1 hi
    obtain ⟨q, hq⟩ := mem_placedFrom hc (t.catchesAt lo)
    have hmem : k ∈ Code.handlers (c.code t.start t.stop t.last) := List.mem_filterMap.2 ⟨i, hic, hik⟩
    simp only [CatchPart.code, Code.handlers_append, List.mem_append] at hmem
    refine .inr (.inr ⟨(q, c), hq, ?_⟩)
    rcases hmem with (((hmem | hmem) | hmem) | hmem) | hmem
    · cases hmem
    · exact .inl hmem
    · cases hmem
    · exact .inr (.inl hmem)
    · exact .inr (.inr (List.mem_singleton.1 hmem))

/-- Behind the clauses there are only entries for the finally clause, and those of its last copy. -/
theorem mem_back {t : TryParts} {k : Handler} (h : k ∈ t.back.handlers) :
    k ∈ t.delayed.handlers ∨ ∃ r ∈ t.ranges, k = ⟨r.start, r.stop, t.handler, ""⟩ := by
  simp only [back, Code.handlers_append, List.mem_append] at h
  rcases h with ((h | h) | h) | h
  · cases h
  · exact .inl h
  · cases h
  · rw [handlers_delays] at h
    obtain ⟨r, hr, rfl⟩ := List.mem_map.1 h
    exact .inr ⟨r, hr, rfl⟩

/-- An entry is one of a piece or of the statement itself. -/
theorem mem_handlers {t : TryParts} (lo : Nat) {k : Handler} (h : k ∈ t.code.handlers) :
    (∃ P ∈ t.pieces lo, k ∈ P.2.handlers) ∨ k ∈ t.entries := by
  rw [handlers_code, List.mem_append] at h
  rcases h with h | h
  · rcases mem_inner lo h with h | h | ⟨x, hx, h | h | rfl⟩
    · exact .inl ⟨_, List.mem_cons_self, h⟩
    · exact .inl ⟨_, List.mem_cons_of_mem _ List.mem_cons_self, h⟩
    · refine .inl ⟨(x.1 + 1, x.2.body), ?_, h⟩
      simp only [pieces, clausePieces, List.mem_cons, List.mem_append, List.mem_flatMap]
      exact .inr (.inr (.inl ⟨x, hx, .inl rfl⟩))
    · refine .inl ⟨(x.1 + 1 + x.2.body.size, x.2.copy), ?_, h⟩
      simp only [pieces, clausePieces, List.mem_cons, List.mem_append, List.mem_flatMap]
      exact .inr (.inr (.inl ⟨x, hx, .inr (.inl rfl)⟩))
    · exact .inr (List.mem_append_left _ (List.mem_map.2 ⟨x.2, (placedFrom_mem hx).1, rfl⟩))
  · rcases mem_back h with h | ⟨r, hr, rfl⟩
    · exact .inl ⟨(t.delayedAt lo, t.delayed), by simp [pieces], h⟩
    · exact .inr (List.mem_append_right _ (List.mem_map.2 ⟨r, hr, rfl⟩))

namespace Stands

variable {prog : Listing} {outs : List Label} {lo p q : Nat} {t : TryParts} {k : Handler} {cls : Class}
  {P : Nat × Code}

/-- Where the entries of the statement itself lead. -/
theorem target (h : t.Stands prog outs lo) (hk : k ∈ t.entries) :
    (∃ x ∈ t.clauses lo, prog.place? k.handler = some x.1) ∨
      prog.place? k.handler = some (t.handlerAt lo) := by
  rcases List.mem_append.1 hk with hk | hk
  · obtain ⟨c, hc, rfl⟩ := List.mem_map.1 hk
    obtain ⟨q, hq⟩ := mem_placedFrom hc (t.catchesAt lo)
    exact .inl ⟨(q, c), hq, (h.placed.clauses _ hq).start⟩
  · obtain ⟨r, _, rfl⟩ := List.mem_map.1 hk
    exact .inr h.placed.handler

/-- The entries up to the last clause do not lead to where exceptions are put aside. -/
theorem inner_target (h : t.Stands prog outs lo) (hk : k ∈ t.inner) :
    ∃ q, prog.place? k.handler = some q ∧ q < t.handlerAt lo := by
  have hplaces : t.catchesAt lo = t.copyAt lo + t.copy.size + 1 ∧ t.copyAt lo = lo + t.body.size ∧
      t.handlerAt lo = t.catchesAt lo + catchesSize t.catches := ⟨rfl, rfl, rfl⟩
  have hpiece : ∀ P ∈ t.pieces lo, k ∈ P.2.handlers → ∃ q, prog.place? k.handler = some q ∧
      q < P.1 + P.2.size := fun P hP hk => by
    obtain ⟨q, hq, _, hhi⟩ := (h.pieces P hP).ordered.aimed k hk
    exact ⟨q, hq, hhi⟩
  have hclause : ∀ x ∈ t.clauses lo, ∀ P ∈ clausePieces [x], k ∈ P.2.handlers →
      ∃ q, prog.place? k.handler = some q ∧ q < t.handlerAt lo := fun x hx P hP hk => by
    have hmem : P ∈ clausePieces (t.clauses lo) := List.mem_flatMap.2 ⟨x, hx, by
      simpa [clausePieces] using hP⟩
    obtain ⟨q, hq, hlt⟩ := hpiece P (by simp [TryParts.pieces, hmem]) hk
    have := clausePieces_range hmem
    exact ⟨q, hq, by omega⟩
  rcases mem_inner lo hk with hk | hk | ⟨x, hx, hk | hk | rfl⟩
  · obtain ⟨q, hq, hlt⟩ := hpiece (lo, t.body) (by simp [TryParts.pieces]) hk
    exact ⟨q, hq, by dsimp only at hlt; omega⟩
  · obtain ⟨q, hq, hlt⟩ := hpiece (t.copyAt lo, t.copy) (by simp [TryParts.pieces]) hk
    exact ⟨q, hq, by dsimp only at hlt; omega⟩
  · exact hclause x hx (x.1 + 1, x.2.body) (by simp [clausePieces]) hk
  · exact hclause x hx (x.1 + 1 + x.2.body.size, x.2.copy) (by simp [clausePieces]) hk
  · have := placedFrom_mem hx
    have hsize : x.2.size = 1 + x.2.body.size + x.2.copy.size + 1 := rfl
    exact ⟨x.1, (h.placed.clauses x hx).start, by omega⟩

/-- What is found for an object thrown in the statement: an entry of a piece, an entry of the
statement itself, or one that leads out of the statement. -/
theorem found (h : t.Stands prog outs lo) (hp : lo ≤ p ∧ p < t.lastAt lo)
    (hfound : handlerFor? prog cls p prog.handlers = .ok (some k)) :
    (∃ P ∈ t.pieces lo, (P.1 ≤ p ∧ p < P.1 + P.2.size) ∧
      ∃ q, prog.place? k.handler = some q ∧ P.1 ≤ q ∧ q < P.1 + P.2.size) ∨
    (k ∈ t.entries ∧ prog.within k.start k.stop p = true ∧ t.code.handlers.find?
      (fun e => prog.within e.start e.stop p && accepts e cls) = some k) ∨
    (∃ q, prog.place? k.handler = some q ∧ (q < lo ∨ t.lastAt lo ≤ q)) ∧ t.code.handlers.find?
      (fun e => prog.within e.start e.stop p && accepts e cls) = none := by
  rw [Listing.handlerFor?_find h.resolved.bounds, Except.ok.injEq] at hfound
  obtain ⟨before, after, htable, hbefore, hafter⟩ := h.sits.table
  rw [t.size_code lo] at hbefore hafter
  have hnone : before.find? (fun e => prog.within e.start e.stop p && accepts e cls) = none :=
    List.find?_eq_none.2 fun e he => by simp [hbefore e he p hp.1 hp.2]
  rw [htable, List.append_assoc, List.find?_append, hnone, Option.none_or, List.find?_append] at hfound
  cases hcode : t.code.handlers.find? (fun e => prog.within e.start e.stop p && accepts e cls) with
  | some e =>
    rw [hcode] at hfound
    cases hfound
    have hfits := List.find?_some hcode
    rw [Bool.and_eq_true] at hfits
    rcases mem_handlers lo (List.mem_of_find?_eq_some hcode) with ⟨Q, hQ, hk⟩ | hk
    · obtain ⟨first, last, hb, hlo, _, hhi⟩ := (h.pieces Q hQ).ordered.bounds k hk
      have hin := (Listing.within_of_bounds hb).1 hfits.1
      exact .inl ⟨Q, hQ, by omega, (h.pieces Q hQ).ordered.aimed k hk⟩
    · exact .inr (.inl ⟨hk, hfits.1, rfl⟩)
  | none =>
    rw [hcode, Option.none_or] at hfound
    exact .inr (.inr ⟨hafter k (List.mem_of_find?_eq_some hfound), rfl⟩)

/-- What is thrown in a copy goes to a handler in that copy or out of the statement. -/
theorem found_in_copy (h : t.Stands prog outs lo) (hP : P ∈ t.copies lo)
    (hp : P.1 ≤ p ∧ p < P.1 + P.2.size)
    (hfound : handlerFor? prog cls p prog.handlers = .ok (some k)) :
    ∃ q, prog.place? k.handler = some q ∧
      (P.1 ≤ q ∧ q < P.1 + P.2.size ∨ q < lo ∨ t.lastAt lo ≤ q) := by
  have hpiece := copies_subset t lo hP
  rcases h.found (in_statement hpiece hp) hfound with ⟨Q, hQ, hpQ, q, hq, hin⟩ | ⟨hk, hin, _⟩ |
    ⟨⟨q, hq, hout⟩, _⟩
  · obtain rfl := pieces_unique hpiece hQ hp hpQ
    exact ⟨q, hq, .inl hin⟩
  · rw [h.placed.unprotected hP hk hp.1 hp.2] at hin
    cases hin
  · exact ⟨q, hq, .inr hout⟩

/-- Each block is covered by an entry that takes everything. -/
theorem block_range (h : t.Stands prog outs lo) {b : Block} (hb : b ∈ t.blocks lo) :
    ∃ r ∈ t.ranges, prog.Bounds r.start r.stop b.first b.last := by
  rcases List.mem_cons.1 hb with rfl | hb
  · exact ⟨⟨t.start, t.stop⟩, by simp [ranges], h.placed.start, h.placed.stop⟩
  · obtain ⟨x, hx, rfl⟩ := List.mem_map.1 hb
    have hplaced := h.placed.clauses x hx
    refine ⟨x.2.range, ?_, hplaced.start, hplaced.stop⟩
    simp only [ranges, List.mem_append, List.mem_cons]
    exact .inl (.inr (List.mem_map_of_mem (placedFrom_mem hx).1))

/-- What is thrown in a block goes to a handler in a block, or it is put aside. It is not put aside
if a clause takes it. -/
theorem found_in_block (h : t.Stands prog outs lo) {b : Block} (hb : b ∈ t.blocks lo) (cls : Class)
    (hfirst : b.first ≤ P.1) (hlast : P.1 + P.2.size = b.last) (hP : P ∈ t.pieces lo)
    (hp : P.1 ≤ p ∧ p < P.1 + P.2.size) :
    ∃ k, handlerFor? prog cls p prog.handlers = .ok (some k) ∧ ∃ q, prog.place? k.handler = some q ∧
      ((∃ b' ∈ t.blocks lo, b'.first ≤ q ∧ q < b'.last) ∨ q = t.handlerAt lo ∧
        (p < t.copyAt lo → ∀ c ∈ t.catches, accepts (c.entry t.start t.stop) cls = false)) := by
  obtain ⟨r, hr, hbounds⟩ := h.block_range hb
  have hcovers : prog.within r.start r.stop p = true :=
    (Listing.within_of_bounds hbounds).2 (by omega)
  have hmem : (⟨r.start, r.stop, t.handler, ""⟩ : Handler) ∈ t.code.handlers :=
    t.entries_subset (List.mem_append_right _ (List.mem_map.2 ⟨r, hr, rfl⟩))
  have hsome : t.code.handlers.find?
      (fun e => prog.within e.start e.stop p && accepts e cls) ≠ none := by
    intro hnone
    have hno := List.find?_eq_none.1 hnone _ hmem
    simp [hcovers, accepts] at hno
  obtain ⟨before, after, htable, _⟩ := h.sits.table
  have hfind : ∃ k, prog.handlers.find?
      (fun e => prog.within e.start e.stop p && accepts e cls) = some k := by
    rw [← Option.isSome_iff_exists, List.find?_isSome]
    refine ⟨(⟨r.start, r.stop, t.handler, ""⟩ : Handler), ?_, by simp [hcovers, accepts]⟩
    rw [htable]
    exact List.mem_append_left _ (List.mem_append_right _ hmem)
  obtain ⟨k, hk⟩ := hfind
  have hfound : handlerFor? prog cls p prog.handlers = .ok (some k) := by
    rw [Listing.handlerFor?_find h.resolved.bounds, hk]
  refine ⟨k, hfound, ?_⟩
  rcases h.found (in_statement hP hp) hfound with ⟨Q, hQ, hpQ, q, hq, hin⟩ | ⟨hk, _, hfirst⟩ |
    ⟨_, hnone⟩
  · obtain rfl := pieces_unique hP hQ hp hpQ
    exact ⟨q, hq, .inl ⟨b, hb, by omega, by omega⟩⟩
  · rcases h.target hk with ⟨x, hx, hq⟩ | hq
    · refine ⟨x.1, hq, .inl ⟨⟨x.1, x.1 + 1 + x.2.body.size, x.2.copy⟩, ?_, le_rfl, ?_⟩⟩
      · exact List.mem_cons_of_mem _ (List.mem_map.2 ⟨x, hx, rfl⟩)
      · dsimp only
        omega
    · refine ⟨_, hq, .inr ⟨rfl, fun hin c hc => ?_⟩⟩
      -- an entry of a clause comes before those that put exceptions aside
      by_contra haccepts
      rw [Bool.not_eq_false] at haccepts
      have htry : prog.within t.start t.stop p = true :=
        (Listing.within_of_bounds ⟨h.placed.start, h.placed.stop⟩).2
          ⟨by have := (pieces_range hP).1; omega, hin⟩
      have hentry : c.entry t.start t.stop ∈ t.inner := by
        refine List.mem_filterMap.2 ⟨.handler (c.entry t.start t.stop), ?_, rfl⟩
        refine List.mem_append_right _ (List.mem_flatMap.2 ⟨c, hc, ?_⟩)
        simp [CatchPart.code]
      rw [handlers_code, List.find?_append] at hfirst
      cases hinner : t.inner.find? (fun e => prog.within e.start e.stop p && accepts e cls) with
      | none =>
        have hno := List.find?_eq_none.1 hinner _ hentry
        rw [haccepts, Bool.and_true] at hno
        exact hno htry
      | some e =>
        rw [hinner] at hfirst
        cases hfirst
        obtain ⟨q, hq', hlt⟩ := h.inner_target (List.mem_of_find?_eq_some hinner)
        cases hq.symm.trans hq'
        omega
  · exact absurd hnone hsome

/-- A place in a block is in a piece that goes up to the end of the block, or it is the first of a
clause, where the exception is taken from the stack. -/
theorem block_cases (h : t.Stands prog outs lo) {b : Block} (hb : b ∈ t.blocks lo)
    (hp : b.first ≤ p ∧ p < b.last) :
    (∃ P ∈ t.pieces lo, b.first ≤ P.1 ∧ P.1 + P.2.size = b.last ∧ P.1 ≤ p ∧ p < P.1 + P.2.size) ∨
      p = b.first ∧ ∃ cell slot, (store cell slot).At prog p := by
  rcases List.mem_cons.1 hb with rfl | hb
  · exact .inl ⟨_, List.mem_cons_self, le_rfl, rfl, hp⟩
  · obtain ⟨x, hx, rfl⟩ := List.mem_map.1 hb
    dsimp only at hp
    by_cases hstart : p = x.1
    · exact .inr ⟨hstart, _, _, hstart ▸ (h.placed.clauses x hx).store⟩
    · refine .inl ⟨(x.1 + 1, x.2.body), ?_, Nat.le_succ x.1, rfl, by dsimp only; omega, hp.2⟩
      simp only [TryParts.pieces, clausePieces, List.mem_cons, List.mem_append, List.mem_flatMap]
      exact .inr (.inr (.inl ⟨x, hx, .inl rfl⟩))

/-- What is thrown on at the end goes out of the statement. -/
theorem found_at_rethrow (h : t.Stands prog outs lo)
    (hfound : handlerFor? prog cls (t.rethrowAt lo + 1) prog.handlers = .ok (some k)) :
    ∃ q, prog.place? k.handler = some q ∧ (q < lo ∨ t.lastAt lo ≤ q) := by
  have hplaces : t.catchesAt lo = t.copyAt lo + t.copy.size + 1 ∧ t.copyAt lo = lo + t.body.size ∧
      t.handlerAt lo = t.catchesAt lo + catchesSize t.catches ∧
      t.delayedAt lo = t.handlerAt lo + 1 ∧ t.rethrowAt lo = t.delayedAt lo + t.delayed.size ∧
      t.lastAt lo = t.rethrowAt lo + 2 := ⟨rfl, rfl, rfl, rfl, rfl, rfl⟩
  rcases h.found (by omega) hfound with ⟨Q, hQ, hpQ, _⟩ | ⟨hk, hin, _⟩ | ⟨hout, _⟩
  · have := pieces_range hQ
    omega
  · obtain hb | ⟨x, hx, hb⟩ | hb := h.placed.bounds hk
    · have := (Listing.within_of_bounds hb).1 hin
      omega
    · have := (Listing.within_of_bounds hb).1 hin
      have := placedFrom_mem hx
      have hsize : x.2.size = 1 + x.2.body.size + x.2.copy.size + 1 := rfl
      omega
    · have := (Listing.within_of_bounds hb).1 hin
      omega
  · exact hout

end Stands

/-- In the try block or in a catch block. -/
def InBlocks (t : TryParts) (lo : Nat) (m : Machine) : Prop :=
  ∃ b ∈ t.blocks lo, b.first ≤ m.pc ∧ m.pc < b.last

/-- In the copy that stands behind a block, or at the jump behind that. -/
def Block.Copying (b : Block) (m : Machine) : Prop :=
  b.last ≤ m.pc ∧ m.pc ≤ b.last + b.copy.size

/-- An exception is being put aside, or it is in its slot while a copy runs, or it is about to be
thrown again. -/
def Delaying (t : TryParts) (lo : Nat) (x : Thrown) (m : Machine) : Prop :=
  m.pc = t.handlerAt lo ∧ m.stack = [x.value] ∨
    (t.delayedAt lo ≤ m.pc ∧ m.pc ≤ t.rethrowAt lo) ∧ m.locals[t.slot]? = some x.value ∨
    m.pc = t.rethrowAt lo + 1 ∧ m.stack.head? = some x.value

def Outside (t : TryParts) (lo : Nat) (m : Machine) : Prop := m.pc < lo ∨ t.lastAt lo ≤ m.pc

namespace Stands

variable {prog : Listing} {outs : List Label} {lo limit : Nat} {t : TryParts} {m m' : Machine}
  {b : Block}

/-- A tick in a block. -/
theorem block_step (h : t.Stands prog outs lo) (hb : b ∈ t.blocks lo)
    (hm : b.first ≤ m.pc ∧ m.pc < b.last) (htick : tick prog limit m = .running m') :
    t.InBlocks lo m' ∨ (Performed prog m m' ∧ m'.pc = b.last) ∨ JumpsOut prog outs m m' ∨
      ∃ x k, Machine.Caught prog x k m m' ∧ m'.pc = t.handlerAt lo ∧ m'.stack = [x.value] ∧
        (m.pc < t.copyAt lo → ∀ c ∈ t.catches, accepts (c.entry t.start t.stop) x.cls = false) := by
  have hperforms : Performed prog m m' → b.first ≤ m'.pc → m'.pc ≤ b.last →
      t.InBlocks lo m' ∨ (Performed prog m m' ∧ m'.pc = b.last) := by
    intro hperformed hfirst hlast
    by_cases hend : m'.pc = b.last
    · exact .inr ⟨hperformed, hend⟩
    · exact .inl ⟨b, hb, hfirst, by omega⟩
  rcases h.block_cases hb hm with ⟨P, hP, hfirst, hlast, hin⟩ | ⟨hstart, cell, slot, hstore⟩
  · rcases (h.pieces P hP).step hin.1 hin.2 htick with ⟨hperformed, hlo, hhi⟩ | hout | ⟨x, k, hcaught⟩
    · exact (hperforms hperformed (by omega) (by omega)).imp_right .inl
    · exact .inr (.inr (.inl hout))
    · obtain ⟨hpc, hstack, hfound⟩ := hcaught.lands
      obtain ⟨k', hfound', q, hq, hwhere⟩ := h.found_in_block hb x.cls hfirst hlast hP hin
      cases hfound.symm.trans hfound'
      cases hpc.symm.trans hq
      rcases hwhere with hblocks | ⟨haside, hno⟩
      · exact .inl hblocks
      · exact .inr (.inr (.inr ⟨x, k, hcaught, haside, hstack, hno⟩))
  · obtain ⟨hperformed, hpc, _⟩ := Machine.tick_store hstore htick
    exact (hperforms hperformed (by omega) (by omega)).imp_right .inl

/-- A tick in a copy. -/
theorem copy_step (h : t.Stands prog outs lo) {P : Nat × Code} (hP : P ∈ t.copies lo)
    (hm : P.1 ≤ m.pc ∧ m.pc < P.1 + P.2.size)
    (htick : tick prog limit m = .running m') :
    (P.1 ≤ m'.pc ∧ m'.pc ≤ P.1 + P.2.size) ∨ JumpsOut prog outs m m' ∨
      ∃ y k, Machine.Caught prog y k m m' ∧ t.Outside lo m' := by
  rcases (h.pieces P (copies_subset t lo hP)).step hm.1 hm.2 htick with ⟨_, hlo, hhi⟩ | hout | ⟨y, k, hcaught⟩
  · exact .inl ⟨hlo, hhi⟩
  · exact .inr (.inl hout)
  · obtain ⟨hpc, _, hfound⟩ := hcaught.lands
    obtain ⟨q, hq, hwhere⟩ := h.found_in_copy hP hm hfound
    cases hpc.symm.trans hq
    rcases hwhere with hin | hout
    · exact .inl ⟨hin.1, hin.2.le⟩
    · exact .inr (.inr ⟨y, k, hcaught, hout⟩)

/-- A tick in the copy behind a block. Behind the copy the statement is over. -/
theorem copying_step (h : t.Stands prog outs lo) (hb : b ∈ t.blocks lo) (hm : b.Copying m)
    (htick : tick prog limit m = .running m') :
    b.Copying m' ∨
      (m.pc = b.last + b.copy.size ∧ Performed prog m m' ∧ m'.pc = t.lastAt lo) ∨
      JumpsOut prog outs m m' ∨
      ∃ y k, Machine.Caught prog y k m m' ∧ (b.last ≤ m.pc ∧ m.pc < b.last + b.copy.size) ∧
        t.Outside lo m' := by
  have hcopy : (b.last, b.copy) ∈ t.copies lo ∧
      (goto t.last).At prog (b.last + b.copy.size) := by
    rcases List.mem_cons.1 hb with rfl | hb
    · exact ⟨by simp [copies], h.placed.leave⟩
    · obtain ⟨x, hx, rfl⟩ := List.mem_map.1 hb
      refine ⟨?_, (h.placed.clauses x hx).leave⟩
      simp only [copies, List.mem_append, List.mem_cons, List.mem_map]
      exact .inl (.inr ⟨x, hx, rfl⟩)
  by_cases hend : m.pc = b.last + b.copy.size
  · have hgoto := hcopy.2
    rw [← hend] at hgoto
    obtain ⟨hperformed, hpc⟩ := Machine.tick_goto hgoto htick
    exact .inr (.inl ⟨hend, hperformed, (Option.some.inj (h.placed.last.symm.trans hpc)).symm⟩)
  · have hlt : m.pc < b.last + b.copy.size := by
      have := hm.2
      omega
    rcases h.copy_step hcopy.1 ⟨hm.1, hlt⟩ htick with hin | hout | ⟨y, k, hcaught, hout⟩
    · exact .inl hin
    · exact .inr (.inr (.inl hout))
    · exact .inr (.inr (.inr ⟨y, k, hcaught, ⟨hm.1, hlt⟩, hout⟩))

/-- A tick while an exception is put aside. Behind the copy it is thrown again. -/
theorem delaying_step (h : t.Stands prog outs lo) {x : Thrown} (hm : t.Delaying lo x m)
    (htick : tick prog limit m = .running m') :
    t.Delaying lo x m' ∨
      (m.pc = t.rethrowAt lo + 1 ∧ ∃ k, Machine.Caught prog x k m m' ∧ t.Outside lo m') ∨
      JumpsOut prog outs m m' ∨
      ∃ y k, Machine.Caught prog y k m m' ∧
        (t.delayedAt lo ≤ m.pc ∧ m.pc < t.delayedAt lo + t.delayed.size) ∧ t.Outside lo m' := by
  have hplaces : t.delayedAt lo = t.handlerAt lo + 1 ∧
      t.rethrowAt lo = t.delayedAt lo + t.delayed.size := ⟨rfl, rfl⟩
  rcases hm with ⟨hpc, hstack⟩ | ⟨⟨hlo, hhi⟩, hslot⟩ | ⟨hpc, hstack⟩
  · have hstore := h.placed.store
    rw [← hpc] at hstore
    obtain ⟨_, hpc', v, rest, hstack', hslot⟩ := Machine.tick_store hstore htick
    cases hstack.symm.trans hstack'
    exact .inl (.inr (.inl ⟨by omega, by simpa using hslot⟩))
  · by_cases hend : m.pc = t.rethrowAt lo
    · have hload := h.placed.load
      rw [← hend] at hload
      obtain ⟨hpc', v, hv, hstack⟩ := Machine.tick_load hload htick
      have hsame : some x.value = some v := hslot.symm.trans (by simpa using hv)
      cases hsame
      exact .inl (.inr (.inr ⟨by omega, by rw [hstack]; rfl⟩))
    · have hcopy : (t.delayedAt lo, t.delayed) ∈ t.copies lo := by simp [copies]
      have hin : t.delayedAt lo ≤ m.pc ∧ m.pc < t.delayedAt lo + t.delayed.size := by omega
      have hpiece := h.pieces _ (copies_subset t lo hcopy)
      rcases h.copy_step hcopy hin htick with hin' | hout | ⟨y, k, hcaught, hout⟩
      · refine .inl (.inr (.inl ⟨hin', ?_⟩))
        rw [hpiece.locals hin.1 hin.2 h.spared htick, hslot]
      · exact .inr (.inr (.inl hout))
      · exact .inr (.inr (.inr ⟨y, k, hcaught, hin, hout⟩))
  · obtain ⟨rest, hstack⟩ := List.head?_eq_some_iff.1 hstack
    have hthrow := h.placed.rethrow
    rw [← hpc] at hthrow
    obtain ⟨k, hcaught⟩ := Machine.tick_athrow hthrow hstack htick
    obtain ⟨hpc', _, hfound⟩ := hcaught.lands
    rw [hpc] at hfound
    obtain ⟨q, hq, hout⟩ := h.found_at_rethrow hfound
    cases hpc'.symm.trans hq
    exact .inr (.inl ⟨hpc, k, hcaught, hout⟩)

/-- What is thrown in a block never ends the run. -/
theorem block_caught (h : t.Stands prog outs lo) (hm : t.InBlocks lo m) (cls : Class) (p : Nat) :
    tick prog limit m ≠ .stopped (.uncaught cls p) m' := by
  intro htick
  obtain ⟨ins, x, m₁, hins, hrun, hnone, _⟩ := Machine.tick_uncaught htick
  obtain ⟨b, hb, hin⟩ := hm
  rcases h.block_cases hb hin with ⟨P, hP, hfirst, hlast, hin⟩ | ⟨_, cell, slot, hstore⟩
  · obtain ⟨k, hfound, _⟩ := h.found_in_block hb x.cls hfirst hlast hP hin
    cases hnone.symm.trans hfound
  · cases hins.symm.trans hstore
    cases (Machine.perform_store_ok hrun).1

/-- If a run ends where an exception is thrown again, that exception ends it. -/
theorem rethrow_stopped (h : t.Stands prog outs lo) {x : Thrown} {s : Stop}
    (hm : t.Delaying lo x m) (hpc : m.pc = t.rethrowAt lo + 1)
    (htick : tick prog limit m = .stopped s m') : s = .stepLimit ∨ s = .uncaught x.cls m.pc := by
  have hplaces : t.delayedAt lo = t.handlerAt lo + 1 ∧
      t.rethrowAt lo = t.delayedAt lo + t.delayed.size := ⟨rfl, rfl⟩
  rcases hm with ⟨hat, _⟩ | ⟨hat, _⟩ | ⟨_, hstack⟩
  · omega
  · omega
  · obtain ⟨rest, hstack⟩ := List.head?_eq_some_iff.1 hstack
    have hthrow := h.placed.rethrow
    rw [← hpc] at hthrow
    refine Machine.tick_athrow_stopped hthrow hstack (Listing.handlerFor?_find h.resolved.bounds)
      (fun k hk => ?_) htick
    exact Listing.exists_place? (h.resolved.table k (List.mem_of_find?_eq_some hk) k.handler (by simp))

end Stands

/-- What becomes of a run that has entered a copy of the finally clause. It is still in that copy; or
it is done with it; or an object thrown in the copy has taken it out of the statement; or a jump
has. -/
inductive Copied (prog : Listing) (outs : List Label) (limit lo : Nat) (t : TryParts)
    (copy : Nat × Code) (In : Machine → Prop) (Done : Machine → Machine → Prop) (m m' : Machine) :
    Prop
  | inside (hin : Machine.Stays prog limit In m m')
  | done {m₁ m₂ : Machine} (hin : Machine.Stays prog limit In m m₁)
      (htick : tick prog limit m₁ = .running m₂) (h : Done m₁ m₂)
      (hrest : Machine.Leads prog limit m₂ m')
  | raised {m₁ m₂ : Machine} {y : Thrown} {k : Handler} (hin : Machine.Stays prog limit In m m₁)
      (htick : tick prog limit m₁ = .running m₂) (h : Machine.Caught prog y k m₁ m₂)
      (hcopy : copy.1 ≤ m₁.pc ∧ m₁.pc < copy.1 + copy.2.size) (hout : t.Outside lo m₂)
      (hrest : Machine.Leads prog limit m₂ m')
  | jumped {m₁ m₂ : Machine} (hin : Machine.Stays prog limit In m m₁)
      (htick : tick prog limit m₁ = .running m₂) (h : JumpsOut prog outs m₁ m₂)
      (hrest : Machine.Leads prog limit m₂ m')

/-- What becomes of a run that is in a block of the statement. It is still in the blocks; or a jump
has taken it out of them; or a block is completed, and the run has entered the copy behind it; or an
object that no clause takes is put aside, and the run has entered the copy that comes with that. A
run that is done with a copy goes on behind the statement, or the same object is thrown again and
goes out of the statement. -/
inductive Passage (prog : Listing) (outs : List Label) (limit lo : Nat) (t : TryParts)
    (m m' : Machine) : Prop
  | inside (hin : Machine.Stays prog limit (t.InBlocks lo) m m')
  | jumped {m₁ m₂ : Machine} (hin : Machine.Stays prog limit (t.InBlocks lo) m m₁)
      (htick : tick prog limit m₁ = .running m₂) (h : JumpsOut prog outs m₁ m₂)
      (hrest : Machine.Leads prog limit m₂ m')
  | completed {b : Block} {m₁ : Machine} (hb : b ∈ t.blocks lo) (hlast : m₁.pc = b.last)
      (hin : m₁ = m ∨ ∃ m₀, Machine.Stays prog limit (t.InBlocks lo) m m₀ ∧
        (b.first ≤ m₀.pc ∧ m₀.pc < b.last) ∧ tick prog limit m₀ = .running m₁ ∧
        Performed prog m₀ m₁)
      (hcopy : t.Copied prog outs limit lo (b.last, b.copy) b.Copying
        (fun m₂ m₃ => m₂.pc = b.last + b.copy.size ∧ m₃.pc = t.lastAt lo) m₁ m')
  | delayed {x : Thrown} {k : Handler} {m₀ m₁ : Machine}
      (hin : Machine.Stays prog limit (t.InBlocks lo) m m₀)
      (htick : tick prog limit m₀ = .running m₁) (h : Machine.Caught prog x k m₀ m₁)
      (hno : m₀.pc < t.copyAt lo →
        ∀ c ∈ t.catches, accepts (c.entry t.start t.stop) x.cls = false)
      (haside : m₁.pc = t.handlerAt lo)
      (hcopy : t.Copied prog outs limit lo (t.delayedAt lo, t.delayed) (t.Delaying lo x)
        (fun m₂ m₃ => m₂.pc = t.rethrowAt lo + 1 ∧
          ∃ k, Machine.Caught prog x k m₂ m₃ ∧ t.Outside lo m₃) m₁ m')

section Runs

variable {prog : Listing} {outs : List Label} {limit lo : Nat} {t : TryParts} {m m' : Machine}

/-- A run stays in a copy up to the tick that takes it out. -/
theorem copied_of_steps {copy : Nat × Code} {In : Machine → Prop} {Done : Machine → Machine → Prop}
    (hstep : ∀ m₁ m₂, In m₁ → tick prog limit m₁ = .running m₂ →
      In m₂ ∨ Done m₁ m₂ ∨ JumpsOut prog outs m₁ m₂ ∨ ∃ y k, Machine.Caught prog y k m₁ m₂ ∧
        (copy.1 ≤ m₁.pc ∧ m₁.pc < copy.1 + copy.2.size) ∧ t.Outside lo m₂)
    (hin : In m) (hleads : Machine.Leads prog limit m m') :
    t.Copied prog outs limit lo copy In Done m m' := by
  rcases hleads.stays_or_leaves hin with hstays | ⟨m₁, m₂, hstays, htick, hno, hrest⟩
  · exact .inside hstays
  · rcases hstep m₁ m₂ hstays.last htick with h | h | h | ⟨y, k, h, hcopy, hout⟩
    · exact absurd h hno
    · exact .done hstays htick h hrest
    · exact .jumped hstays htick h hrest
    · exact .raised hstays htick h hcopy hout hrest

theorem Stands.completed (h : t.Stands prog outs lo) {b : Block} (hb : b ∈ t.blocks lo)
    (hlast : m.pc = b.last) (hleads : Machine.Leads prog limit m m') :
    t.Copied prog outs limit lo (b.last, b.copy) b.Copying
      (fun m₂ m₃ => m₂.pc = b.last + b.copy.size ∧ m₃.pc = t.lastAt lo) m m' := by
  refine copied_of_steps (fun m₁ m₂ hin htick => ?_) ⟨hlast.ge, by omega⟩ hleads
  rcases h.copying_step hb hin htick with h | ⟨hend, _, hpc⟩ | h | h
  · exact .inl h
  · exact .inr (.inl ⟨hend, hpc⟩)
  · exact .inr (.inr (.inl h))
  · exact .inr (.inr (.inr h))

/-- Every run from a block on. -/
theorem Stands.passage (h : t.Stands prog outs lo) {b : Block} (hb : b ∈ t.blocks lo)
    (hm : b.first ≤ m.pc ∧ m.pc ≤ b.last) (hleads : Machine.Leads prog limit m m') :
    t.Passage prog outs limit lo m m' := by
  by_cases hlast : m.pc = b.last
  · exact .completed hb hlast (.inl rfl) (h.completed hb hlast hleads)
  · have hin : t.InBlocks lo m := ⟨b, hb, hm.1, by omega⟩
    rcases hleads.stays_or_leaves hin with hstays | ⟨m₁, m₂, hstays, htick, hno, hrest⟩
    · exact .inside hstays
    · obtain ⟨b', hb', hm₁⟩ := hstays.last
      rcases h.block_step hb' hm₁ htick with hin₂ | ⟨hperformed, hpc⟩ | hjump |
        ⟨x, k, hcaught, haside, hstack, hclauses⟩
      · exact absurd hin₂ hno
      · exact .completed hb' hpc (.inr ⟨m₁, hstays, hm₁, htick, hperformed⟩)
          (h.completed hb' hpc hrest)
      · exact .jumped hstays htick hjump hrest
      · exact .delayed hstays htick hcaught hclauses haside (copied_of_steps
          (fun _ _ => h.delaying_step) (.inl ⟨haside, hstack⟩) hrest)

end Runs

end TryParts

/-- The blocks of clauses and the copies behind them are code of statements. -/
theorem catchParts_pieces {prog : Listing} {cs : List CatchPart} (hvs : ∀ v ∈ vs, slots.Holds v)
    (hexits : exits.Serve frames) (hcatches : CatchClause.AllSound slots frames vs catches)
    (hcleanup : Stmt.AllSound slots frames vs cleanup)
    (hcs : catchParts catches exits (stmtsCode cleanup exits) n = .ok (cs, n')) :
    ∀ c ∈ cs, (∀ lo, c.body.At prog lo → Piece prog exits.labels lo c.body) ∧
      ∀ lo, c.copy.At prog lo → Piece prog exits.labels lo c.copy := by
  induction catches generalizing n cs with
  | nil =>
    cases hcs
    simp
  | cons clause catches ih =>
    obtain ⟨param, body⟩ := clause
    obtain ⟨a, m₁, ha, f, m₂, hf, more, hmore, rfl⟩ := catchParts_cons_ok.1 hcs
    obtain ⟨hparam, _, hbody, hrest⟩ := hcatches
    intro c hc
    rcases List.mem_cons.1 hc with rfl | hc
    · exact ⟨fun lo => .of_stmts (holds_cons hparam hvs) hexits hbody ha,
        fun lo => .of_stmts hvs hexits hcleanup hf⟩
    · exact ih hrest hmore c hc

/-- The code of a try statement with a finally clause stands as it should, wherever it is in a
program. -/
theorem Spot.Good.stands {prog : Listing} {body : List Stmt} {slot : Nat} {rest : List Stmt}
    {lo : Nat}
    (h : Spot.Good prog ⟨.tryCatch body catches (.mk slot cleanup) :: rest, exits, n, lo⟩)
    (hres : prog.Resolved) :
    ∃ t n', tryParts body catches slot cleanup exits n = .ok (t, n') ∧
      t.Stands prog exits.labels lo := by
  obtain ⟨⟨code, n', hcode, hsits⟩, slots, frames, vs, hvs, hexits, hbody, hcatches, hcleanup⟩ := h.head
  obtain ⟨t, ht, rfl⟩ := stmtCode_parts.1 hcode
  have hplaced := TryParts.placed hsits.placed
  obtain ⟨a, m₁, ha, f, m₂, hf, cs, m₃, hcs, g, hg, rfl⟩ := tryParts_ok.1 ht
  refine ⟨_, n', ht, hplaced, fun P hP => ?_, copy_avoids hvs hcleanup hg, hsits, hres⟩
  simp only [TryParts.pieces, TryParts.clausePieces, List.mem_cons, List.mem_append,
    List.mem_flatMap, List.not_mem_nil, or_false] at hP
  rcases hP with rfl | rfl | ⟨x, hx, rfl | rfl⟩ | rfl
  · exact .of_stmts hvs hexits hbody ha hplaced.body
  · exact .of_stmts hvs hexits hcleanup.stmts hf hplaced.copy
  · exact (catchParts_pieces hvs hexits hcatches hcleanup.stmts hcs x.2 (placedFrom_mem hx).1).1 _
      (hplaced.clauses x hx).body
  · exact (catchParts_pieces hvs hexits hcatches hcleanup.stmts hcs x.2 (placedFrom_mem hx).1).2 _
      (hplaced.clauses x hx).copy
  · exact .of_stmts hvs hexits hcleanup.stmts hg hplaced.delayed

end Checked

open Checked (Spot Occurs tryParts TryParts) in
/-- In the code of an accepted text, every try statement with a finally clause stands somewhere, and
wherever it stands every run does the following. From the start or any other place of its try block
or of one of its catch blocks on, the run stays in the blocks until a jump takes it out of the
statement, or it enters exactly one copy of the finally clause and stays in it until it is done with
the copy. Then it goes on behind the statement if the block was completed, or the object that was
put aside is thrown again and goes out of the statement. An object thrown in the copy goes out of the
statement too, and the finally clause is not entered again. No object thrown in a block ends the run,
and if the one that is thrown again does, it is still the same. -/
theorem finally_once {file source : String} {exe : Executable}
    (h : (compile file source).result = .ok exe) :
    ∃ program, Checked.check (compile file source).stmts = .ok program ∧
      ∀ body catches slot cleanup rest,
        Occurs program.stmts (.tryCatch body catches (.mk slot cleanup) :: rest) →
        (∃ σ : Spot, σ.Of program.stmts ∧
          σ.stmts = .tryCatch body catches (.mk slot cleanup) :: rest) ∧
        ∀ σ : Spot, σ.Of program.stmts →
          σ.stmts = .tryCatch body catches (.mk slot cleanup) :: rest →
          ∃ t n, tryParts body catches slot cleanup σ.exits σ.labels = .ok (t, n) ∧
            t.code.At exe.listing σ.place ∧ ∀ limit m,
              (∀ b ∈ t.blocks σ.place, b.first ≤ m.pc → m.pc ≤ b.last →
                ∀ m', Machine.Leads exe.listing limit m m' →
                  t.Passage exe.listing σ.exits.labels limit σ.place m m') ∧
              (t.InBlocks σ.place m → ∀ cls p m',
                tick exe.listing limit m ≠ .stopped (.uncaught cls p) m') ∧
              ∀ x, t.Delaying σ.place x m → m.pc = t.rethrowAt σ.place + 1 →
                ∀ s m', tick exe.listing limit m = .stopped s m' →
                  s = .stepLimit ∨ s = .uncaught x.cls m.pc := by
  obtain ⟨program, hcompiled⟩ := compile_accepted h
  obtain ⟨slots, _, hsound⟩ := hcompiled.sound
  obtain ⟨code, n, hcode, hholds⟩ := hcompiled.code
  refine ⟨program, hcompiled.analyzed, fun body catches slot cleanup rest hoccurs =>
    ⟨Spot.exists_of_occurs hsound hcode hholds hoccurs, fun σ hσ hstmts => ?_⟩⟩
  have hgood := hσ.good hsound hcode hholds
  obtain ⟨stmts, exits, m, lo⟩ := σ
  obtain rfl : stmts = _ := hstmts
  obtain ⟨t, n', ht, hstands⟩ := hgood.stands hholds.resolved
  exact ⟨t, n', ht, hstands.sits.placed, fun limit m =>
    ⟨fun b hb hfirst hlast m' hleads => hstands.passage hb ⟨hfirst, hlast⟩ hleads,
      fun hm cls p m' => hstands.block_caught hm cls p,
      fun x hm hpc s m' htick => hstands.rethrow_stopped hm hpc htick⟩⟩

set_option maxRecDepth 10000 in
open Checked (Spot tryParts TryParts) in
theorem finally_once_retrying : ∃ exe program body catches slot cleanup rest σ t n,
    (compile "" retrying).result = .ok exe ∧
      Checked.check (compile "" retrying).stmts = .ok program ∧ Spot.Of program.stmts σ ∧
      σ.stmts = .tryCatch body catches (.mk slot cleanup) :: rest ∧
      tryParts body catches slot cleanup σ.exits σ.labels = .ok (t, n) ∧
      ∀ limit m m', m.pc = σ.place → Machine.Leads exe.listing limit m m' →
        t.Passage exe.listing σ.exits.labels limit σ.place m m' := by
  obtain ⟨exe, h⟩ := Compilation.result_of_failure? retrying_accepted
  obtain ⟨program, hprogram, honce⟩ := finally_once h
  -- a statement of the text is a loop around a try statement
  have hshape : ((Checked.check (compile "" retrying).stmts).toOption.any fun p => p.stmts.any fun s =>
      match s with
      | .whileLoop _ _ (.tryCatch _ _ (.mk _ _)) => true
      | _ => false) = true := by decide +kernel
  rw [hprogram, Except.toOption, Option.any_some, List.any_eq_true] at hshape
  obtain ⟨s, hs, hloop⟩ := hshape
  obtain ⟨rest, hrest⟩ := Checked.Occurs.of_mem hs
  split at hloop
  · rename_i frame cond body catches slot cleanup
    obtain ⟨⟨σ, hσ, hσstmts⟩, hall⟩ := honce body catches slot cleanup [] (.tail hrest .whileBody)
    obtain ⟨t, n, ht, _, hruns⟩ := hall σ hσ hσstmts
    refine ⟨exe, _, body, catches, slot, cleanup, [], σ, t, n, h, hprogram, hσ, hσstmts, ht, ?_⟩
    intro limit m m' hm hleads
    refine (hruns limit m).1 _ List.mem_cons_self hm.ge ?_ m' hleads
    rw [hm]
    exact Nat.le_add_right _ _
  · cases hloop

end Jminus
