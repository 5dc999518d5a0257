import Jminus.Proofs.Addresses
import Jminus.Proofs.Definite.Code
import Jminus.Proofs.Passage
import Mathlib

/-!
No slot is loaded before it is stored to.

What an annotation says is known at a place has been stored to by every run that comes to the place:
each tick goes on to a place where no more is known than was known before, but for the slot that the
tick itself stores to.
-/
namespace Jminus

open Machine (tick Leads)

namespace Item

variable {A : Annotation} {K : Set Nat} {i : Item}

/-- Nothing more is known where an item jumps to. -/
theorem Fits.jumps (h : i.Fits A K) : ∀ l ∈ i.jumps, A l ⊆ K := by
  unfold Fits at h
  split at h
  · simp [Item.jumps]
  · simp [Item.jumps, Instruction.simple, Instruction.labels]
  · exact h

/-- What takes no place adds nothing. -/
theorem Fits.after_subset (h : i.Fits A K) (hsize : i.size = 0) : i.after A K ⊆ K := by
  cases i with
  | label l => exact h
  | handler => exact subset_rfl
  | plain | jump | dispatch => cases hsize

/-- An instruction adds nothing, or it is a store and adds its slot. -/
theorem after_cases (A : Annotation) (K : Set Nat) {ins : Instruction}
    (h : i.instruction? = some ins) :
    i.after A K = K ∨ ∃ cell, ∃ n : Nat, ins = .plain (.store cell) (.const (.slot n)) ∧
      i.after A K = insert n K := by
  unfold after
  split
  · cases h
  · rename_i cell n
    cases h
    exact .inr ⟨cell, n, rfl, rfl⟩
  · exact .inl rfl

end Item

namespace Code

/-- The slots that have been stored to where a run comes to a place of some code. Places are counted
from the start of the code, and behind it nothing is known. -/
def knownAt (A : Annotation) : Set Nat → Code → Nat → Set Nat
  | _, [], _ => ∅
  | K, i :: rest, p => if p < i.size then K else knownAt A (i.after A K) rest (p - i.size)

variable {A : Annotation} {B K : Set Nat} {code a b : Code} {prog : Listing} {lo p : Nat}

theorem knownAt_of_size_le (h : code.size ≤ p) : knownAt A K code p = ∅ := by
  induction code generalizing K p with
  | nil => rfl
  | cons i code ih =>
    rw [size_cons] at h
    rw [knownAt, if_neg (by omega)]
    exact ih (by omega)

/-- Places behind some code belong to the code that follows. -/
theorem knownAt_append (A : Annotation) (K : Set Nat) (a b : Code) (p : Nat) :
    knownAt A K (a ++ b) p =
      if p < a.size then knownAt A K a p else knownAt A (after A K a) b (p - a.size) := by
  induction a generalizing K p with
  | nil => rfl
  | cons i a ih =>
    have hsize := size_cons i a
    rw [List.cons_append, knownAt, knownAt]
    by_cases hi : p < i.size
    · rw [if_pos hi, if_pos (by omega), if_pos hi]
    · rw [if_neg hi, if_neg hi, ih]
      by_cases ha : p - i.size < Code.size a
      · rw [if_pos ha, if_pos (by omega)]
      · rw [if_neg ha, if_neg (by omega), hsize, Nat.sub_sub]
        rfl

namespace Fits

/-- No more is known at the first place than before it. -/
theorem knownAt_zero (h : Fits A B K code) : knownAt A K code 0 ⊆ K := by
  induction code generalizing K with
  | nil => exact Set.empty_subset K
  | cons i code ih =>
    obtain ⟨_, hi, hrest⟩ := h
    rw [knownAt]
    split
    · exact subset_rfl
    · rw [Nat.zero_sub]
      exact (ih hrest).trans (hi.after_subset (by omega))

/-- What holds throughout is known at every place. -/
theorem subset_knownAt (h : Fits A B K code) (hp : p < code.size) : B ⊆ knownAt A K code p := by
  induction code generalizing K p with
  | nil => exact absurd hp (Nat.not_lt_zero p)
  | cons i code ih =>
    obtain ⟨hle, _, hrest⟩ := h
    rw [size_cons] at hp
    rw [knownAt]
    split
    · exact hle
    · exact ih hrest (by omega)

/-- The instruction at a place is that of an item which fits there. -/
theorem instruction (h : Fits A B K code) (hat : code.At prog lo) (hp : p < code.size) :
    ∃ i ∈ code, ∃ ins, i.instruction? = some ins ∧ prog.code[lo + p]? = some ins ∧
      i.Fits A (knownAt A K code p) ∧
      knownAt A K code (p + 1) ⊆ i.after A (knownAt A K code p) := by
  induction code generalizing K lo p with
  | nil => exact absurd hp (Nat.not_lt_zero p)
  | cons i code ih =>
    obtain ⟨_, hi, hrest⟩ := h
    obtain ⟨hati, hatrest⟩ := hat
    rw [size_cons] at hp
    by_cases hpi : p < i.size
    · have hsize : i.size = 1 := by cases i <;> first | rfl | cases hpi
      obtain rfl : p = 0 := by omega
      have hins : ∃ ins, i.instruction? = some ins ∧ prog.code[lo]? = some ins := by
        cases i with
        | label | handler => cases hsize
        | plain | jump | dispatch => exact ⟨_, rfl, hati⟩
      obtain ⟨ins, hins, hplace⟩ := hins
      refine ⟨i, List.mem_cons_self, ins, hins, hplace, ?_, ?_⟩
      · rwa [knownAt, if_pos hpi]
      · rw [knownAt, knownAt, if_pos hpi, if_neg (by omega), hsize]
        exact hrest.knownAt_zero
    · have hlt : p - i.size < Code.size code := by omega
      obtain ⟨j, hj, ins, hins, hplace, hfits, hnext⟩ := ih hrest hatrest hlt
      refine ⟨j, List.mem_cons_of_mem _ hj, ins, hins, ?_, ?_, ?_⟩
      · rwa [show lo + i.size + (p - i.size) = lo + p by omega] at hplace
      · rwa [knownAt, if_neg hpi]
      · rw [knownAt, knownAt, if_neg hpi, if_neg (by omega), Nat.sub_add_comm (by omega)]
        exact hnext

/-- Where a label is placed no more is known than what it is annotated with. -/
theorem label (h : Fits A B K code) (hat : code.At prog lo) {l : Label} (hl : l ∈ code.placed) :
    ∃ q, prog.place? l = some (lo + q) ∧ knownAt A K code q ⊆ A l := by
  induction code generalizing K lo with
  | nil => cases hl
  | cons i code ih =>
    obtain ⟨_, _, hrest⟩ := h
    obtain ⟨hati, hatrest⟩ := hat
    have hlater : l ∈ Code.placed code →
        ∃ q, prog.place? l = some (lo + q) ∧ knownAt A K (i :: code) q ⊆ A l := by
      intro hl
      obtain ⟨q, hq, hknown⟩ := ih hrest hatrest hl
      refine ⟨i.size + q, by rw [hq, Nat.add_assoc], ?_⟩
      rwa [knownAt, if_neg (by omega), Nat.add_sub_cancel_left]
    cases i with
    | label x =>
      rcases List.mem_cons.1 hl with rfl | hl
      · exact ⟨0, hati, hrest.knownAt_zero⟩
      · exact hlater hl
    | _ => exact hlater hl

end Fits

/-- Wherever a handler protects some code, what the handler asks for is known. -/
theorem Protects.subset_knownAt {k : Handler} (h : Protects A K code k) (hat : code.At prog lo)
    (hin : prog.within k.start k.stop (lo + p) = true) : A k.handler ⊆ knownAt A K code p := by
  obtain ⟨front, mid, back, rfl, hstart, hstop, hfits⟩ := h
  have hatmid := (at_append.1 (at_append.1 hat).1).2
  obtain ⟨first, hfirst, hlo, _⟩ := hatmid.range hstart
  obtain ⟨last, hlast, _, hhi⟩ := hatmid.range hstop
  rw [Listing.within_eq hfirst hlast, Bool.and_eq_true, decide_eq_true_iff,
    decide_eq_true_iff] at hin
  rw [knownAt_append, if_pos (by rw [size_append]; omega), knownAt_append, if_neg (by omega)]
  exact hfits.subset_knownAt (by omega)

end Code

open Code (knownAt)

structure Annotated (prog : Listing) (A : Annotation) (code : Code) : Prop where
  holds : prog.Holds code
  laid : ∃ n n', Checked.Laid n n' [] [] code
  flows : Code.Flows A (fun _ => False) ∅ code ∅

namespace Annotated

variable {prog : Listing} {A : Annotation} {code : Code} {limit : Nat} {m m' : Machine}

theorem fits (h : Annotated prog A code) : Code.Fits A ∅ ∅ code := h.flows.fits ∅ subset_rfl

/-- No more is known where a label leads than what it is annotated with. -/
theorem lands (h : Annotated prog A code) {l : Label} (hl : l ∈ code.jumps ∨ l ∈ code.ranges)
    {q : Nat} (hq : prog.place? l = some q) : knownAt A ∅ code q ⊆ A l := by
  obtain ⟨n, n', hlaid⟩ := h.laid
  have hbetween : Checked.Between n n' l := by
    rcases hl with hl | hl
    · exact (hlaid.jumps l hl).resolve_right List.not_mem_nil
    · exact (hlaid.ranges l hl).resolve_right List.not_mem_nil
  obtain ⟨p, hp, hknown⟩ := h.fits.label h.holds.placed (hlaid.placed hbetween)
  cases hq.symm.trans hp
  rwa [Nat.zero_add]

theorem instruction (h : Annotated prog A code) {ins : Instruction}
    (hins : prog.code[m.pc]? = some ins) :
    ∃ i ∈ code, i.instruction? = some ins ∧ i.Fits A (knownAt A ∅ code m.pc) ∧
      knownAt A ∅ code (m.pc + 1) ⊆ i.after A (knownAt A ∅ code m.pc) := by
  have hlt : m.pc < prog.code.size := (Array.getElem?_eq_some_iff.1 hins).1
  rw [h.holds.size] at hlt
  obtain ⟨i, hi, ins', hi', hins', hrest⟩ := h.fits.instruction h.holds.placed hlt
  rw [Nat.zero_add] at hins'
  cases hins.symm.trans hins'
  exact ⟨i, hi, hi', hrest⟩

/-- What an instruction that throws nothing may add to what is known. -/
theorem performed (h : Annotated prog A code) (hp : Machine.Performed prog m m') :
    knownAt A ∅ code m'.pc ⊆ knownAt A ∅ code m.pc ∨ ∃ cell, ∃ n : Nat,
      prog.code[m.pc]? = some (.plain (.store cell) (.const (.slot n))) ∧
        knownAt A ∅ code m'.pc ⊆ insert n (knownAt A ∅ code m.pc) := by
  obtain ⟨ins, hins, hrun⟩ := hp
  obtain ⟨i, hi, hi', hfits, hnext⟩ := h.instruction hins
  rcases (Machine.perform_moves hrun).1 with hpc | ⟨l, hl, hplace⟩ | ⟨_, hend⟩
  · rw [hpc]
    rcases i.after_cases A (knownAt A ∅ code m.pc) hi' with hsame | ⟨cell, n, rfl, hmore⟩
    · exact .inl (hsame ▸ hnext)
    · exact .inr ⟨cell, n, hins, hmore ▸ hnext⟩
  · have hjump := i.labels_subset_jumps hi' l hl
    exact .inl ((h.lands (.inl (List.mem_flatMap.2 ⟨i, hi, hjump⟩)) hplace).trans
      (hfits.jumps l hjump))
  · rw [hend, Code.knownAt_of_size_le h.holds.size.ge]
    exact .inl (Set.empty_subset _)

/-- Where an object is caught no more is known than where it was thrown. -/
theorem caught (h : Annotated prog A code) {x : Thrown} {k : Handler}
    (hc : Machine.Caught prog x k m m') : knownAt A ∅ code m'.pc ⊆ knownAt A ∅ code m.pc := by
  obtain ⟨hplace, _, hfound⟩ := hc.lands
  rw [Listing.handlerFor?_find h.holds.resolved.bounds, Except.ok.injEq] at hfound
  have hk : k ∈ code.handlers := h.holds.handlers ▸ List.mem_of_find?_eq_some hfound
  have hin := List.find?_some hfound
  rw [Bool.and_eq_true] at hin
  have hprotects := (h.flows.handlers ∅ subset_rfl k hk).resolve_left id
  have hranges := Code.mem_ranges hk k.handler (by simp)
  refine (h.lands (.inr hranges) hplace).trans (hprotects.subset_knownAt h.holds.placed ?_)
  rw [Nat.zero_add]
  exact hin.1

/-- No more is known after a tick than before it, but for the slot that it stores to. -/
theorem step (h : Annotated prog A code) (htick : tick prog limit m = .running m') :
    knownAt A ∅ code m'.pc ⊆ knownAt A ∅ code m.pc ∨ ∃ cell, ∃ n : Nat,
      prog.code[m.pc]? = some (.plain (.store cell) (.const (.slot n))) ∧
        knownAt A ∅ code m'.pc ⊆ insert n (knownAt A ∅ code m.pc) := by
  rcases Machine.tick_running htick with hperformed | ⟨x, k, hcaught⟩
  · exact h.performed hperformed
  · exact .inl (h.caught hcaught)

end Annotated

/-- The limit on the steps changes nothing of a machine that it stops. -/
theorem Machine.tick_stepLimit {prog : Listing} {limit : Nat} {m m' : Machine}
    (h : tick prog limit m = .stopped .stepLimit m') : m' = m := by
  unfold Machine.tick Machine.unwind at h
  split at h
  · cases h
  · split at h
    · cases h
      rfl
    · split at h
      · cases h
      · split at h
        · cases h
        · cases h
        · split at h <;> cases h
      · cases h

/-- A run that is cut short has come to the machine that it ends with. -/
theorem Machine.leads_of_limit {prog : Listing} {limit fuel : Nat} {m m' : Machine}
    (h : Machine.run prog limit fuel m = some (.stepLimit, m')) : Leads prog limit m m' := by
  induction fuel generalizing m with
  | zero => cases h
  | succ fuel ih =>
    rw [Machine.run] at h
    split at h
    · rename_i m₁ htick
      exact .head htick (ih h)
    · rename_i s m₁ htick
      cases h
      rw [Machine.tick_stepLimit htick]

/-- A slot holds what a store on the way from one machine to another has put there. -/
def Machine.Filled (prog : Listing) (limit : Nat) (m m' : Machine) (n : Nat) : Prop :=
  ∃ cell m₁ m₂ v, Leads prog limit m m₁ ∧
    prog.code[m₁.pc]? = some (.plain (.store cell) (.const (.slot n))) ∧
    m₁.stack.head? = some v ∧ tick prog limit m₁ = .running m₂ ∧ Leads prog limit m₂ m' ∧
    m'.locals[n]? = some v

section Runs

variable {prog : Listing} {limit : Nat} {m m₁ m' : Machine} {n : Nat}

/-- A store fills its slot. -/
theorem Machine.Leads.fills (h : Leads prog limit m m₁) {cell : Cell}
    (hins : prog.code[m₁.pc]? = some (.plain (.store cell) (.const (.slot n))))
    (htick : tick prog limit m₁ = .running m') : Machine.Filled prog limit m m' n := by
  obtain ⟨_, _, v, rest, hstack, hslot⟩ := Machine.tick_store hins htick
  exact ⟨cell, m₁, m', v, h, hins, by rw [hstack]; rfl, htick, .refl, hslot⟩

/-- What is filled stays filled. -/
theorem Machine.Filled.step (h : Leads prog limit m m₁) (hfilled : Machine.Filled prog limit m m₁ n)
    (htick : tick prog limit m₁ = .running m') : Machine.Filled prog limit m m' n := by
  obtain ⟨cell, m₂, m₃, v, hbefore, hins, hstack, hstore, hbehind, hslot⟩ := hfilled
  rcases Machine.tick_locals htick with hsame | ⟨cell', n', v', hins', hset⟩
  · exact ⟨cell, m₂, m₃, v, hbefore, hins, hstack, hstore, hbehind.tail htick, hsame ▸ hslot⟩
  · by_cases hn : n' = n
    · subst hn
      exact Machine.Leads.fills h hins' htick
    · refine ⟨cell, m₂, m₃, v, hbefore, hins, hstack, hstore, hbehind.tail htick, ?_⟩
      rwa [hset, Array.getElem?_setIfInBounds_ne hn]

/-- Whatever is known at the place of a run has been stored to by the run. -/
theorem Annotated.filled {A : Annotation} {code : Code} (h : Annotated prog A code)
    (hstart : m.pc = 0) (hleads : Leads prog limit m m') :
    ∀ n ∈ knownAt A ∅ code m'.pc, Machine.Filled prog limit m m' n := by
  induction hleads with
  | refl =>
    rw [hstart]
    intro n hn
    exact (h.fits.knownAt_zero hn).elim
  | @tail m₁ m' hleads htick ih =>
    -- what is known now was known before, or this tick has stored it
    intro n hn
    rcases h.step htick with hsame | ⟨cell, k, hins, hmore⟩
    · exact (ih n (hsame hn)).step hleads htick
    · rcases hmore hn with rfl | hn
      · exact Machine.Leads.fills hleads hins htick
      · exact (ih n hn).step hleads htick

end Runs

/-- The listing of an accepted text is annotated. -/
theorem Compiled.annotated {c : Compilation} {program : Checked.Program} {exe : Executable}
    (h : Compiled c program exe) :
    ∃ A code, Annotated exe.listing A code ∧ code.Uses fun _ _ => True := by
  obtain ⟨slots, _, hsound⟩ := h.sound
  obtain ⟨code, n, hcode, hholds⟩ := h.code
  have hprogram := Checked.program_ok.2 ⟨code, hcode, rfl⟩
  obtain ⟨A, hflows⟩ := Checked.programCode_annotated hsound hprogram
  have huses : code.Uses fun _ _ => True :=
    Checked.stmtsCode_use (fun _ _ _ => trivial) [] (List.forall_mem_nil _) hsound hcode
  exact ⟨A, _, ⟨hholds, ⟨0, n, (Checked.programCode_lays hsound).laid hprogram⟩, hflows⟩,
    uses_append.2 ⟨huses, by simp⟩⟩

/-- Whenever a run of an accepted text comes to a load, it has already stored to the slot that is
loaded, and what the slot holds is what an instruction of the run has put there. -/
theorem stored_before_load {file source : String} {exe : Executable}
    (h : (compile file source).result = .ok exe) {limit : Nat} {m : Machine}
    (hrun : Leads exe.listing limit (.start exe.slots) m) {cell : Cell} {arg : Operand}
    (hload : exe.listing.code[m.pc]? = some (.plain (.load cell) arg)) :
    ∃ n : Nat, arg = .const (.slot n) ∧
      Machine.Filled exe.listing limit (.start exe.slots) m n := by
  obtain ⟨program, hcompiled⟩ := compile_accepted h
  obtain ⟨A, code, hannotated, huses⟩ := hcompiled.annotated
  obtain ⟨n, rfl, _⟩ := huses.listing hannotated.holds hload rfl
  obtain ⟨i, _, hi, hfits, _⟩ := hannotated.instruction hload
  rw [i.eq_plain hi] at hfits
  exact ⟨n, rfl, hannotated.filled rfl hrun n hfits⟩

/-- A division by zero that no clause catches. -/
def delaying : String := "int i = 0; try { i = i / i; } finally { println(i); }"

set_option maxRecDepth 10000 in
/-- The load is that of the exception, behind the finally clause. -/
theorem stored_before_load_delaying : ∃ exe m arg,
    (compile "" delaying).result = .ok exe ∧ Leads exe.listing 8 (.start exe.slots) m ∧
      exe.listing.code[m.pc]? = some (.plain (.load .ref) arg) ∧
      ∃ n : Nat, arg = .const (.slot n) ∧
        Machine.Filled exe.listing 8 (.start exe.slots) m n := by
  have hshape : ((compile "" delaying).result.toOption.any fun exe =>
      (Machine.run exe.listing 8 9 (.start exe.slots)).any fun r => decide (r.1 = .stepLimit ∧
        exe.listing.code[r.2.pc]?.map Instruction.opcode = some (.load .ref))) = true := by
    decide +kernel
  simp only [Option.any_eq_true, decide_eq_true_iff] at hshape
  obtain ⟨exe, hexe, ⟨s, m⟩, hrun, rfl, hop⟩ := hshape
  have h : (compile "" delaying).result = .ok exe := by
    cases hresult : (compile "" delaying).result <;> rw [hresult] at hexe <;> cases hexe
    rfl
  obtain ⟨ins, hins, hop⟩ := Option.map_eq_some_iff.1 hop
  cases ins with
  | plain op arg =>
    obtain rfl : op = .load .ref := hop
    have hleads := Machine.leads_of_limit hrun
    exact ⟨exe, m, arg, h, hleads, hins, stored_before_load h hleads hins⟩
  | branch | table | lookup => cases hop

end Jminus
