import Jminus.Proofs.Compilation
import Jminus.Proofs.Scoping
import Jminus.Proofs.Stores
import Mathlib

/-!
The slots of an accepted program.

Its names are resolved, what it declares has the slots from zero on, and every instruction that loads
or stores a local has the slot of something declared, with the opcode for what that holds.
-/
namespace Jminus

namespace Checked

/-- Something declared is in the slot that is meant for it. -/
def Declared.In (slots : Slots) (d : Declared) : Prop :=
  ∃ t, slots[d.slot]? = some t ∧ held t = d.cell

variable {slots : Slots}

theorem Slots.Holds.declared {v : Local} (h : slots.Holds v) : (Declared.variable v).In slots :=
  ⟨some v.type, h.1, rfl⟩

/-- More slots behind the others change nothing. -/
theorem Declared.In.mono {slots' : Slots} {d : Declared} (h : d.In slots) (hle : slots <+: slots') :
    d.In slots' := by
  obtain ⟨t, ht, hcell⟩ := h
  obtain ⟨hlt, _⟩ := List.getElem?_eq_some_iff.1 ht
  refine ⟨t, ?_, hcell⟩
  obtain ⟨more, rfl⟩ := hle
  rw [List.getElem?_append_left hlt]
  exact ht

mutual

/-- What a sound statement declares is in its slot. -/
theorem Stmt.Sound.declared {slots : Slots} : ∀ {s : Stmt} {frames : List Frame} {vs : List Local},
    s.Sound slots frames vs → ∀ d ∈ s.declared, d.In slots
  | .var v none, _, _, h => by
    simpa [Stmt.declared] using Slots.Holds.declared h
  | .var v (some _), _, _, ⟨h, _⟩ => by
    simpa [Stmt.declared] using h.declared
  | .block _, _, _, h => Stmt.AllSound.declared h
  | .ifElse _ _ none, _, _, ⟨_, ht⟩ => ht.declared
  | .ifElse _ _ (some _), _, _, ⟨_, ht, he⟩ => List.forall_mem_append.2 ⟨ht.declared, he.declared⟩
  | .whileLoop _ _ _, _, _, ⟨_, _, hb⟩ => hb.declared
  | .doLoop _ _ _, _, _, ⟨_, hb, _⟩ => hb.declared
  | .forLoop _ _ _ _ _, _, _, ⟨_, _, hi, _, _, hb⟩ =>
    List.forall_mem_append.2 ⟨Stmt.AllSound.declared hi, hb.declared⟩
  | .switch _ _ _ _, _, _, ⟨_, _, _, _, _, hg⟩ => SwitchGroup.AllSound.declared hg
  | .tryCatch _ _ _, _, _, ⟨hb, hc, hf⟩ =>
    List.forall_mem_append.2 ⟨List.forall_mem_append.2 ⟨Stmt.AllSound.declared hb,
      CatchClause.AllSound.declared hc⟩, hf.declared⟩
  | .expr _, _, _, _ | .brk _ _, _, _, _ | .cont _ _, _, _, _ | .ret, _, _, _ | .throw _, _, _, _
  | .empty, _, _, _ => by simp [Stmt.declared]

theorem Stmt.AllSound.declared {slots : Slots} : ∀ {ss : List Stmt} {frames : List Frame}
    {vs : List Local}, Stmt.AllSound slots frames vs ss → ∀ d ∈ Stmt.allDeclared ss, d.In slots
  | [], _, _, _ => by simp [Stmt.allDeclared]
  | _ :: _, _, _, ⟨h, hs⟩ => List.forall_mem_append.2 ⟨h.declared, Stmt.AllSound.declared hs⟩

theorem SwitchGroup.AllSound.declared {slots : Slots} : ∀ {gs : List SwitchGroup}
    {frames : List Frame} {vs : List Local}, SwitchGroup.AllSound slots frames vs gs →
    ∀ d ∈ SwitchGroup.allDeclared gs, d.In slots
  | [], _, _, _ => by simp [SwitchGroup.allDeclared]
  | .mk _ _ _ :: _, _, _, ⟨h, hs⟩ =>
    List.forall_mem_append.2 ⟨Stmt.AllSound.declared h, SwitchGroup.AllSound.declared hs⟩

theorem CatchClause.AllSound.declared {slots : Slots} : ∀ {cs : List CatchClause}
    {frames : List Frame} {vs : List Local}, CatchClause.AllSound slots frames vs cs →
    ∀ d ∈ CatchClause.allDeclared cs, d.In slots
  | [], _, _, _ => by simp [CatchClause.allDeclared]
  | .mk _ _ :: _, _, _, ⟨hp, _, h, hs⟩ => List.forall_mem_cons.2 ⟨hp.declared,
    List.forall_mem_append.2 ⟨Stmt.AllSound.declared h, CatchClause.AllSound.declared hs⟩⟩

theorem Cleanup.Sound.declared {slots : Slots} : ∀ {c : Cleanup} {frames : List Frame}
    {vs : List Local}, c.Sound slots frames vs → ∀ d ∈ c.declared, d.In slots
  | .absent, _, _, _ => by simp [Cleanup.declared]
  | .mk slot body, _, _, ⟨hslot, hb⟩ => by
    refine List.forall_mem_append.2 ⟨fun d hd => ?_, ?_⟩
    · exact (Stmt.AllSound.declared hb d hd).mono (List.take_prefix _ _)
    · exact List.forall_mem_singleton.2 ⟨none, hslot, rfl⟩

end

end Checked

open Checked (AllScoped Declared)

/-- An instruction that loads or stores comes from an item that does. -/
theorem Code.Uses.listing {P : Cell → Nat → Prop} {code : Code} {prog : Listing} (h : code.Uses P)
    (hholds : prog.Holds code) {pc : Nat} {op : Opcode} {arg : Operand} {cell : Cell}
    (hins : prog.code[pc]? = some (.plain op arg)) (hcell : op.accesses? = some cell) :
    ∃ n : Nat, arg = .const (.slot n) ∧ P cell n := by
  have hlt : pc < prog.code.size := (Array.getElem?_eq_some_iff.1 hins).1
  rw [hholds.size] at hlt
  obtain ⟨i, hi, ins, hi', hins'⟩ := hholds.placed.item (Nat.zero_le pc) (by omega)
  cases hins.symm.trans hins'
  have huses := h i hi
  rw [i.eq_plain hi'] at huses
  exact huses cell hcell

end Jminus
