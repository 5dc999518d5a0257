import Jminus.Proofs.Handlers
import Mathlib

/-!
The code of a try statement with a finally clause, in its parts.

`tryParts` makes the same code as `stmtCode` and keeps the parts apart: the try block, the catch
blocks, the copies of the finally clause behind each of them, and the handler that puts an exception
aside. With the code in its place, each part has a place of its own.
-/
namespace Jminus.Checked

open Code

/-- A catch clause: its labels, its block, and the copy of the finally clause behind the block. -/
structure CatchPart where
  start : Label
  stop : Label
  param : Local
  body : Code
  copy : Code

structure TryParts where
  start : Label
  stop : Label
  last : Label
  body : Code
  copy : Code
  catches : List CatchPart
  /-- Where what no clause takes is put aside, and what stands behind that. -/
  handler : Label
  aside : Label
  slot : Nat
  delayed : Code

namespace CatchPart

def entry (start stop : Label) (c : CatchPart) : Handler :=
  { start, stop, handler := c.start, exceptionType := c.param.type.path }

def code (start stop last : Label) (c : CatchPart) : Code :=
  [.label c.start, store c.param.type.cell c.param.slot] ++ c.body ++ [.label c.stop] ++ c.copy ++
    [goto last, .handler (c.entry start stop)]

/-- The instructions of a clause: one that takes the exception, the block, the copy, a jump. -/
def size (c : CatchPart) : Nat := 1 + c.body.size + c.copy.size + 1

/-- What the clause protects for the finally clause: its block, with the first instruction. -/
def range (c : CatchPart) : Caught := { start := c.start, stop := c.stop }

theorem size_code (start stop last : Label) (c : CatchPart) :
    (c.code start stop last).size = c.size := by
  simp [code, size]
  omega

end CatchPart

def placedFrom : Nat → List CatchPart → List (Nat × CatchPart)
  | _, [] => []
  | pc, c :: cs => (pc, c) :: placedFrom (pc + c.size) cs

def catchesSize (cs : List CatchPart) : Nat := (cs.map CatchPart.size).sum

variable {cs : List CatchPart}

/-- Each clause has its place among all of them. -/
theorem placedFrom_mem {pc : Nat} {x : Nat × CatchPart} (hx : x ∈ placedFrom pc cs) :
    x.2 ∈ cs ∧ pc ≤ x.1 ∧ x.1 + x.2.size ≤ pc + catchesSize cs := by
  induction cs generalizing pc with
  | nil => cases hx
  | cons c cs ih =>
    have hsize : catchesSize (c :: cs) = c.size + catchesSize cs := rfl
    rcases List.mem_cons.1 hx with rfl | hx
    · exact ⟨by simp, le_rfl, by dsimp only; omega⟩
    · obtain ⟨hmem, hlo, hhi⟩ := ih hx
      exact ⟨List.mem_cons_of_mem _ hmem, by omega, by omega⟩

theorem mem_placedFrom {c : CatchPart} (hc : c ∈ cs) (pc : Nat) :
    ∃ q, (q, c) ∈ placedFrom pc cs := by
  induction cs generalizing pc with
  | nil => cases hc
  | cons d cs ih =>
    rcases List.mem_cons.1 hc with rfl | hc
    · exact ⟨pc, List.mem_cons_self⟩
    · obtain ⟨q, hq⟩ := ih hc (pc + d.size)
      exact ⟨q, List.mem_cons_of_mem _ hq⟩

/-- Clauses do not overlap. -/
theorem placedFrom_apart {pc : Nat} {x y : Nat × CatchPart} (hx : x ∈ placedFrom pc cs)
    (hy : y ∈ placedFrom pc cs) : x = y ∨ x.1 + x.2.size ≤ y.1 ∨ y.1 + y.2.size ≤ x.1 := by
  induction cs generalizing pc with
  | nil => cases hx
  | cons c cs ih =>
    rcases List.mem_cons.1 hx with rfl | hx <;> rcases List.mem_cons.1 hy with rfl | hy
    · exact .inl rfl
    · exact .inr (.inl (placedFrom_mem hy).2.1)
    · exact .inr (.inr (placedFrom_mem hx).2.1)
    · exact ih hx hy

namespace TryParts

/-- What the handler of the finally clause covers: the try block, the catch blocks and its own first
instruction. -/
def ranges (t : TryParts) : List Caught :=
  ⟨t.start, t.stop⟩ :: t.catches.map CatchPart.range ++ [⟨t.handler, t.aside⟩]

/-- The entries of the table that the statement itself makes. -/
def entries (t : TryParts) : List Handler :=
  t.catches.map (·.entry t.start t.stop) ++
    t.ranges.map fun r => { start := r.start, stop := r.stop, handler := t.handler, exceptionType := "" }

def front (t : TryParts) : Code :=
  [.label t.start] ++ t.body ++ [.label t.stop] ++ t.copy ++ [goto t.last]

def back (t : TryParts) : Code :=
  [.label t.handler, store .ref t.slot, .label t.aside] ++ t.delayed ++
    [load .ref t.slot, op .athrow] ++ t.ranges.map (delays t.handler)

def code (t : TryParts) : Code :=
  t.front ++ t.catches.flatMap (·.code t.start t.stop t.last) ++ t.back ++ [.label t.last]

def copyAt (t : TryParts) (lo : Nat) : Nat := lo + t.body.size

def catchesAt (t : TryParts) (lo : Nat) : Nat := t.copyAt lo + t.copy.size + 1

def handlerAt (t : TryParts) (lo : Nat) : Nat := t.catchesAt lo + catchesSize t.catches

def delayedAt (t : TryParts) (lo : Nat) : Nat := t.handlerAt lo + 1

def rethrowAt (t : TryParts) (lo : Nat) : Nat := t.delayedAt lo + t.delayed.size

def lastAt (t : TryParts) (lo : Nat) : Nat := t.rethrowAt lo + 2

def clauses (t : TryParts) (lo : Nat) : List (Nat × CatchPart) :=
  placedFrom (t.catchesAt lo) t.catches

/-- All copies of the finally clause with their places. -/
def copies (t : TryParts) (lo : Nat) : List (Nat × Code) :=
  (t.copyAt lo, t.copy) :: (t.clauses lo).map (fun x => (x.1 + 1 + x.2.body.size, x.2.copy)) ++
    [(t.delayedAt lo, t.delayed)]

end TryParts

def catchParts : List CatchClause → Exits → Gen Code → Gen (List CatchPart)
  | [], _, _ => return []
  | .mk param body :: clauses, exits, cleanup => do
    let start ← fresh
    let stop ← fresh
    let bodyCode ← stmtsCode body exits
    let copy ← cleanup
    return { start, stop, param, body := bodyCode, copy } :: (← catchParts clauses exits cleanup)

def tryParts (body : List Stmt) (catches : List CatchClause) (slot : Nat) (cleanup : List Stmt)
    (exits : Exits) : Gen TryParts := do
  let start ← fresh
  let stop ← fresh
  let last ← fresh
  let bodyCode ← stmtsCode body exits
  let copy ← stmtsCode cleanup exits
  let clauses ← catchParts catches exits (stmtsCode cleanup exits)
  let handler ← fresh
  let aside ← fresh
  let delayed ← stmtsCode cleanup exits
  return { start, stop, last, body := bodyCode, copy, catches := clauses, handler, aside, slot,
           delayed }

section Making

variable {exits : Exits} {n n' : Nat}

variable {body : List Stmt} {clauses catches : List CatchClause} {cleanup : Gen Code} {code : Code}
  {slot : Nat}

theorem catchParts_cons_ok {param : Local} {cs : List CatchPart} :
    catchParts (.mk param body :: clauses) exits cleanup n = .ok (cs, n') ↔
      ∃ a m₁, stmtsCode body exits (n + 2) = .ok (a, m₁) ∧
        ∃ f m₂, cleanup m₁ = .ok (f, m₂) ∧
          ∃ more, catchParts clauses exits cleanup m₂ = .ok (more, n') ∧
            cs = ⟨.nth (n + 1), .nth (n + 2), param, a, f⟩ :: more := by
  simp only [catchParts, bind_ok, fresh_ok, pure_ok, Prod.mk.injEq, exists_and_left,
    exists_eq_left, and_assoc, exists_eq_right_right']

/-- The code of clauses is that of their parts. -/
theorem catchesCode_parts {last start stop : Label} {caught : List Caught} :
    catchesCode clauses exits cleanup last start stop n = .ok ((code, caught), n') ↔
      ∃ cs, catchParts clauses exits cleanup n = .ok (cs, n') ∧
        code = cs.flatMap (·.code start stop last) ∧ caught = cs.map CatchPart.range := by
  induction clauses generalizing n code caught with
  | nil =>
    simp only [catchesCode, catchParts, pure_ok, Prod.mk.injEq]
    constructor
    · rintro ⟨⟨rfl, rfl⟩, rfl⟩
      exact ⟨[], ⟨rfl, rfl⟩, rfl, rfl⟩
    · rintro ⟨_, ⟨rfl, rfl⟩, rfl, rfl⟩
      exact ⟨⟨rfl, rfl⟩, rfl⟩
  | cons clause clauses ih =>
    obtain ⟨param, body⟩ := clause
    rw [catches_cons_ok]
    constructor
    · rintro ⟨a, m₁, ha, f, m₂, hf, c, more, hc, rfl, rfl⟩
      obtain ⟨cs, hcs, rfl, rfl⟩ := ih.1 hc
      exact ⟨_, catchParts_cons_ok.2 ⟨a, m₁, ha, f, m₂, hf, cs, hcs, rfl⟩, rfl, rfl⟩
    · rintro ⟨_, hcs, rfl, rfl⟩
      obtain ⟨a, m₁, ha, f, m₂, hf, cs, hmore, rfl⟩ := catchParts_cons_ok.1 hcs
      exact ⟨a, m₁, ha, f, m₂, hf, _, _, ih.2 ⟨cs, hmore, rfl, rfl⟩, rfl, rfl⟩

/-- How the parts come about. -/
theorem tryParts_ok {cleanup : List Stmt} {t : TryParts} :
    tryParts body catches slot cleanup exits n = .ok (t, n') ↔
      ∃ a m₁, stmtsCode body exits (n + 3) = .ok (a, m₁) ∧
        ∃ f m₂, stmtsCode cleanup exits m₁ = .ok (f, m₂) ∧
          ∃ cs m₃, catchParts catches exits (stmtsCode cleanup exits) m₂ = .ok (cs, m₃) ∧
            ∃ g, stmtsCode cleanup exits (m₃ + 2) = .ok (g, n') ∧
              t = ⟨.nth (n + 1), .nth (n + 2), .nth (n + 3), a, f, cs, .nth (m₃ + 1), .nth (m₃ + 2),
                slot, g⟩ := by
  simp only [tryParts, bind_ok, fresh_ok, pure_ok, Prod.mk.injEq, exists_and_left,
    exists_eq_left, and_assoc, exists_eq_right_right']

/-- The parts make up the code of the statement. -/
theorem stmtCode_parts {cleanup : List Stmt} :
    stmtCode (.tryCatch body catches (.mk slot cleanup)) exits n = .ok (code, n') ↔
      ∃ t, tryParts body catches slot cleanup exits n = .ok (t, n') ∧ code = t.code := by
  rw [try_ok]
  have hcleanup : cleanupCode (.mk slot cleanup) exits = stmtsCode cleanup exits := by
    rw [cleanupCode]
  simp only [delayed, delay_ok, hcleanup, catchesCode_parts]
  constructor
  · rintro ⟨a, m₁, ha, f, m₂, hf, c, caught, m₃, ⟨cs, hcs, rfl, rfl⟩, d, ⟨g, hg, rfl⟩, rfl⟩
    refine ⟨_, tryParts_ok.2 ⟨a, m₁, ha, f, m₂, hf, cs, m₃, hcs, g, hg, rfl⟩, ?_⟩
    rfl
  · rintro ⟨t, ht, rfl⟩
    obtain ⟨a, m₁, ha, f, m₂, hf, cs, m₃, hcs, g, hg, rfl⟩ := tryParts_ok.1 ht
    exact ⟨a, m₁, ha, f, m₂, hf, _, _, m₃, ⟨cs, hcs, rfl, rfl⟩, _, ⟨g, hg, rfl⟩, rfl⟩

end Making

section Places

variable {prog : Listing} {lo : Nat}

structure CatchPart.Placed (prog : Listing) (last : Label) (pc : Nat) (c : CatchPart) : Prop where
  start : prog.place? c.start = some pc
  store : (store c.param.type.cell c.param.slot).At prog pc
  body : c.body.At prog (pc + 1)
  stop : prog.place? c.stop = some (pc + 1 + c.body.size)
  copy : c.copy.At prog (pc + 1 + c.body.size)
  leave : (goto last).At prog (pc + 1 + c.body.size + c.copy.size)

/-- Every clause of code in its place has a place. -/
theorem catches_placed {start stop last : Label} {cs : List CatchPart} {pc : Nat}
    (h : Code.At prog pc (cs.flatMap (·.code start stop last))) :
    ∀ x ∈ placedFrom pc cs, x.2.Placed prog last x.1 := by
  induction cs generalizing pc with
  | nil => simp [placedFrom]
  | cons c cs ih =>
    rw [List.flatMap_cons, at_append, CatchPart.size_code] at h
    obtain ⟨hc, hcs⟩ := h
    simp only [CatchPart.code, at_append, at_cons, Code.size_append, Code.size_cons, Code.size_nil,
      Item.size_label, Item.size_store, Nat.add_zero, Nat.zero_add, ← Nat.add_assoc] at hc
    obtain ⟨⟨⟨⟨⟨hstart, hstore, _⟩, hbody⟩, hstop, _⟩, hcopy⟩, hleave, _⟩ := hc
    intro x hx
    rcases List.mem_cons.1 hx with rfl | hx
    · exact ⟨hstart, hstore, hbody, hstop, hcopy, hleave⟩
    · exact ih hcs x hx

/-- All parts of a statement have their places. -/
structure TryParts.Placed (prog : Listing) (lo : Nat) (t : TryParts) : Prop where
  start : prog.place? t.start = some lo
  body : t.body.At prog lo
  stop : prog.place? t.stop = some (t.copyAt lo)
  copy : t.copy.At prog (t.copyAt lo)
  leave : (goto t.last).At prog (t.copyAt lo + t.copy.size)
  clauses : ∀ x ∈ t.clauses lo, x.2.Placed prog t.last x.1
  handler : prog.place? t.handler = some (t.handlerAt lo)
  store : (store .ref t.slot).At prog (t.handlerAt lo)
  aside : prog.place? t.aside = some (t.delayedAt lo)
  delayed : t.delayed.At prog (t.delayedAt lo)
  load : (load .ref t.slot).At prog (t.rethrowAt lo)
  rethrow : (op .athrow).At prog (t.rethrowAt lo + 1)
  last : prog.place? t.last = some (t.lastAt lo)

theorem size_catches (start stop last : Label) (cs : List CatchPart) :
    Code.size (cs.flatMap (·.code start stop last)) = catchesSize cs := by
  induction cs with
  | nil => rfl
  | cons c cs ih =>
    rw [List.flatMap_cons, Code.size_append, CatchPart.size_code, ih]
    rfl

theorem size_delays (handler : Label) (rs : List Caught) :
    Code.size (rs.map (delays handler)) = 0 := by
  induction rs with
  | nil => rfl
  | cons r rs ih => simpa [delays] using ih

theorem TryParts.size_code (t : TryParts) (lo : Nat) : lo + t.code.size = t.lastAt lo := by
  simp only [code, front, back, Code.size_append, Code.size_cons, Code.size_nil, Item.size_label,
    Item.size_goto, Item.size_store, Item.size_load, Item.size_op, size_catches, size_delays, lastAt,
    rethrowAt, delayedAt, handlerAt, catchesAt, copyAt]
  omega

theorem TryParts.placed {t : TryParts} (h : t.code.At prog lo) : t.Placed prog lo := by
  rw [code, at_append, at_append, at_append] at h
  obtain ⟨⟨⟨hfront, hcatches⟩, hback⟩, hlast, _⟩ := h
  have hsize : lo + t.front.size = t.catchesAt lo := by
    simp [front, catchesAt, copyAt]
    omega
  have hend : lo + Code.size (t.front ++ t.catches.flatMap (·.code t.start t.stop t.last) ++ t.back) =
      t.lastAt lo := by
    rw [← t.size_code lo, code]
    simp
  rw [hend] at hlast
  rw [Code.size_append, ← Nat.add_assoc, hsize, size_catches] at hback
  rw [hsize] at hcatches
  simp only [front, at_append, at_cons, Code.size_append, Code.size_cons, Code.size_nil,
    Item.size_label, Nat.add_zero, Nat.zero_add, ← Nat.add_assoc] at hfront
  obtain ⟨⟨⟨⟨⟨hstart, _⟩, hbody⟩, hstop, _⟩, hcopy⟩, hleave, _⟩ := hfront
  simp only [back, at_append, at_cons, Code.size_append, Code.size_cons, Code.size_nil,
    Item.size_label, Item.size_store, Item.size_load, Nat.add_zero, Nat.zero_add,
    ← Nat.add_assoc] at hback
  obtain ⟨⟨⟨⟨hhandler, hstore, haside, _⟩, hdelayed⟩, hload, hrethrow, _⟩, _⟩ := hback
  exact ⟨hstart, hbody, hstop, hcopy, hleave, catches_placed hcatches, hhandler, hstore, haside,
    hdelayed, hload, hrethrow, hlast⟩

end Places

end Jminus.Checked
