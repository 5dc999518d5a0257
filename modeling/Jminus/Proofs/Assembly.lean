import Jminus.Proofs.Dispatch
import Jminus.Proofs.Layout
import Mathlib

/-!
From items to a listing.

Items whose labels are placed once become a listing in which every item has its place: its
instruction stands there, or its label points there.
-/
namespace Jminus

namespace Item

def instruction? : Item → Option Instruction
  | .label _ | .handler _ => none
  | .plain op arg => some (.simple op arg)
  | .jump b target => some (.branch b target)
  | .dispatch _ pairs dflt => some ((plan pairs).instruction pairs dflt)

/-- An instruction names only labels that the item jumps to. -/
theorem labels_subset_jumps {i : Item} {ins : Instruction} (h : i.instruction? = some ins) :
    ∀ l ∈ ins.labels, l ∈ i.jumps := by
  intro l hl
  cases i with
  | label | handler => cases h
  | plain | jump =>
    cases h
    exact hl
  | dispatch line pairs dflt =>
    cases h
    exact Plan.labels_instruction _ hl

/-- A plain instruction comes from a plain item. -/
theorem eq_plain {i : Item} {op : Opcode} {arg : Operand}
    (h : i.instruction? = some (.plain op arg)) : i = .plain op arg := by
  cases i with
  | plain o a =>
    cases o <;> cases h <;> rfl
  | label | handler | jump => cases h
  | dispatch line pairs dflt =>
    simp only [Item.instruction?, Plan.instruction] at h
    split at h <;> cases h

/-- An item has its place in a listing. -/
def At (code : Listing) (pc : Nat) : Item → Prop
  | .label l => code.place? l = some pc
  | .handler _ => True
  | .plain op arg => code.code[pc]? = some (.simple op arg)
  | .jump b target => code.code[pc]? = some (.branch b target)
  | .dispatch _ pairs dflt => code.code[pc]? = some ((plan pairs).instruction pairs dflt)

end Item

namespace Code

/-- Items have their places in a listing, from `pc` on. -/
def At (code : Listing) : Nat → Code → Prop
  | _, [] => True
  | pc, i :: rest => i.At code pc ∧ At code (pc + i.size) rest

variable {code : Listing} {pc : Nat}

@[simp] theorem at_nil : At code pc [] := trivial

@[simp] theorem at_cons {i : Item} {rest : Code} :
    At code pc (i :: rest) ↔ i.At code pc ∧ At code (pc + i.size) rest := .rfl

/-- Code behind other code is where that code ends. -/
@[simp] theorem at_append {a b : Code} :
    At code pc (a ++ b) ↔ At code pc a ∧ At code (pc + a.size) b := by
  induction a generalizing pc with
  | nil => simp
  | cons i a ih => simp [ih, and_assoc, Nat.add_assoc]

end Code

variable {prog : Listing} {lo p : Nat} {i : Item}

/-- Every place of some code is that of one of its items. -/
theorem Code.At.split {code : Code} (h : code.At prog lo) (hlo : lo ≤ p) (hhi : p < lo + code.size) :
    ∃ front i back ins, code = front ++ i :: back ∧ p = lo + Code.size front ∧
      i.instruction? = some ins ∧ prog.code[p]? = some ins := by
  induction code generalizing lo with
  | nil => simp at hhi; omega
  | cons i code ih =>
    obtain ⟨hi, hrest⟩ := h
    rw [Code.size_cons] at hhi
    by_cases hp : lo + i.size ≤ p
    · obtain ⟨front, j, back, ins, rfl, hplace, hins⟩ := ih hrest hp (by omega)
      refine ⟨i :: front, j, back, ins, rfl, ?_, hins⟩
      rw [Code.size_cons]
      omega
    · cases i with
      | label | handler => exact absurd hlo hp
      | plain | jump | dispatch =>
        obtain rfl : p = lo := by
          simp only [Item.size_plain, Item.size_jump, Item.size_dispatch] at hp
          omega
        exact ⟨[], _, code, _, rfl, rfl, rfl, hi⟩

theorem Code.At.item {code : Code} (h : code.At prog lo) (hlo : lo ≤ p) (hhi : p < lo + code.size) :
    ∃ i ∈ code, ∃ ins, i.instruction? = some ins ∧ prog.code[p]? = some ins := by
  obtain ⟨front, i, back, ins, rfl, _, hins⟩ := h.split hlo hhi
  exact ⟨i, by simp, ins, hins⟩

structure Listing.Grows (l l' : Listing) : Prop where
  code : l.code.toList <+: l'.code.toList
  places : ∀ x pc, l.place? x = some pc → l'.place? x = some pc

namespace Listing.Grows

theorem refl (l : Listing) : l.Grows l := ⟨List.prefix_refl _, fun _ _ h => h⟩

variable {l l' : Listing} {pc : Nat}

theorem trans {l'' : Listing} (h : l.Grows l') (h' : l'.Grows l'') : l.Grows l'' :=
  ⟨h.code.trans h'.code, fun x pc hx => h'.places x pc (h.places x pc hx)⟩

theorem push (l : Listing) (ins : Instruction) : l.Grows (l.push ins) :=
  ⟨by simp [Listing.push], fun _ _ h => h⟩

theorem getElem? (h : l.Grows l') {ins : Instruction} (hpc : l.code[pc]? = some ins) :
    l'.code[pc]? = some ins := by
  rw [← Array.getElem?_toList] at hpc ⊢
  obtain ⟨hlt, rfl⟩ := List.getElem?_eq_some_iff.1 hpc
  exact List.prefix_iff_getElem?.1 h.code pc hlt

/-- What has its place keeps it. -/
theorem at_item (h : l.Grows l') {i : Item} (hi : i.At l pc) : i.At l' pc := by
  cases i with
  | label => exact h.places _ _ hi
  | handler => trivial
  | plain | jump | dispatch => exact h.getElem? hi

end Listing.Grows

/-- A label has no place if none was given to it. -/
theorem Listing.place?_eq_none {l : Listing} {x : Label} :
    l.place? x = none ↔ x ∉ l.places.map (·.1) := by
  simp only [Listing.place?, List.lookup_eq_none_iff, bne_iff_ne, ne_eq, List.mem_map, not_exists,
    not_and]
  exact ⟨fun h p hp hx => h p hp hx.symm, fun h p hp hx => h p hp hx.symm⟩

theorem Item.size_eq (i : Item) : i.size = i.instruction?.toList.length := by
  cases i <;> rfl

/-- Code takes as many places as it has instructions. -/
theorem Code.size_eq (code : Code) : code.size = (code.filterMap Item.instruction?).length := by
  induction code with
  | nil => rfl
  | cons i code ih =>
    rw [Code.size_cons, ih, Item.size_eq]
    cases h : i.instruction? <;> simp [h, Nat.add_comm]

/-- A listing with the given items behind it. -/
structure Listing.Gains (l : Listing) (items : Code) (l' : Listing) : Prop where
  grows : l.Grows l'
  code : l'.code.toList = l.code.toList ++ items.filterMap Item.instruction?
  handlers : l'.handlers = l.handlers ++ items.handlers
  places : l'.places.map (·.1) = items.placed.reverse ++ l.places.map (·.1)
  placed : items.At l' l.code.size

/-- A label can be put into a listing that does not know it yet. -/
theorem Listing.gains_label {l : Listing} {x : Label} (hx : x ≠ .absent) (hnew : l.place? x = none) :
    ∃ l', Item.emit l (.label x) = .ok l' ∧ l.Gains [.label x] l' := by
  refine ⟨{ l with places := (x, l.code.size) :: l.places }, ?_, ?_⟩
  · simp [Item.emit, Listing.place, hx, hnew]
  refine ⟨⟨List.prefix_refl _, fun y pc hy => ?_⟩, by simp [Item.instruction?], by simp, by simp, ?_⟩
  · have hne : y ≠ x := by
      rintro rfl
      cases hnew.symm.trans hy
    simpa [Listing.place?, List.lookup_cons, beq_false_of_ne hne] using hy
  · simp [Item.At, Listing.place?]

theorem Listing.gains_handler (l : Listing) (h : Handler) :
    l.Gains [.handler h] (l.addHandler h) :=
  ⟨⟨List.prefix_refl _, fun _ _ hx => hx⟩, by simp [Item.instruction?, Listing.addHandler],
    by simp [Listing.addHandler], rfl, by simp [Item.At]⟩

/-- An item that becomes an instruction is gained by pushing it. -/
theorem Listing.gains_push (l : Listing) {ins : Instruction} (hi : i.instruction? = some ins) :
    l.Gains [i] (l.push ins) := by
  have hlast : (l.push ins).code[l.code.size]? = some ins := by simp [Listing.push]
  cases i with
  | label | handler => cases hi
  | plain | jump | dispatch =>
    cases hi
    exact ⟨.push l _, by simp [Item.instruction?, Listing.push], by simp [Listing.push],
      by simp [Listing.push], hlast, trivial⟩

/-- Every item can be appended; a label must be new. -/
theorem Listing.gains_item {l : Listing}
    (hi : ∀ x, i.placed? = some x → x ≠ .absent ∧ l.place? x = none) :
    ∃ l', Item.emit l i = .ok l' ∧ l.Gains [i] l' := by
  cases i with
  | label x => exact Listing.gains_label (hi x rfl).1 (hi x rfl).2
  | handler h => exact ⟨_, rfl, l.gains_handler h⟩
  | plain | jump => exact ⟨_, rfl, l.gains_push rfl⟩
  | dispatch line pairs dflt => exact ⟨_, Item.emit_dispatch l line pairs dflt, l.gains_push rfl⟩

/-- Items are gained one after the other. -/
theorem Listing.Gains.cons {l l₁ l' : Listing} {rest : Code} (h : l.Gains [i] l₁)
    (h' : l₁.Gains rest l') : l.Gains (i :: rest) l' := by
  have hsize : l₁.code.size = l.code.size + i.size := by
    rw [← Array.length_toList, h.code, List.length_append, Array.length_toList, Item.size_eq]
    cases hi : i.instruction? <;> simp [hi]
  refine ⟨h.grows.trans h'.grows, ?_, ?_, ?_, ?_⟩
  · rw [h'.code, h.code, List.append_assoc, ← List.filterMap_append]
    rfl
  · rw [h'.handlers, h.handlers, List.append_assoc, ← Code.handlers_append]
    rfl
  · rw [h'.places, h.places, ← List.append_assoc, ← List.reverse_append, ← Code.placed_append]
    rfl
  · refine ⟨h'.grows.at_item h.placed.1, ?_⟩
    rw [← hsize]
    exact h'.placed

/-- Code can be appended if its labels are new and each of them is placed once. -/
theorem Listing.gains_code {code : Code} {l : Listing} (hnodup : code.placed.Nodup)
    (hnew : ∀ x ∈ code.placed, x ≠ .absent ∧ l.place? x = none) :
    ∃ l', code.foldlM Item.emit l = .ok l' ∧ l.Gains code l' := by
  induction code generalizing l with
  | nil => exact ⟨l, rfl, .refl l, by simp, by simp, by simp, trivial⟩
  | cons i rest ih =>
    have hsplit : Code.placed (i :: rest) = i.placed?.toList ++ Code.placed rest := by
      cases i <;> rfl
    rw [hsplit] at hnodup hnew
    obtain ⟨l₁, hemit, hgains⟩ := Listing.gains_item (l := l) (i := i) fun x hx =>
      hnew x (by simp [hx])
    have hrest : ∀ x ∈ Code.placed rest, x ≠ .absent ∧ l₁.place? x = none := by
      intro x hx
      obtain ⟨habsent, hnone⟩ := hnew x (List.mem_append_right _ hx)
      refine ⟨habsent, Listing.place?_eq_none.2 fun hmem => ?_⟩
      rw [hgains.places, List.mem_append] at hmem
      rcases hmem with hmem | hmem
      · have hi : x ∈ i.placed?.toList := by
          cases i with
          | label => simpa [Item.placed?, eq_comm] using hmem
          | _ => cases hmem
        exact (List.disjoint_of_nodup_append hnodup) hi hx
      · exact Listing.place?_eq_none.1 hnone hmem
    obtain ⟨l', hfold, hgains'⟩ := ih (List.Nodup.of_append_right hnodup) hrest
    refine ⟨l', ?_, hgains.cons hgains'⟩
    rw [List.foldlM_cons, hemit]
    exact hfold

/-- Every label in use stands in exactly one place. -/
structure Listing.Resolved (l : Listing) : Prop where
  code : ∀ ins ∈ l.code, ∀ x ∈ ins.labels, (l.places.map (·.1)).count x = 1
  table : ∀ h ∈ l.handlers, ∀ x ∈ [h.start, h.stop, h.handler], (l.places.map (·.1)).count x = 1

/-- A label that is placed once has a place. -/
theorem Listing.exists_place? {l : Listing} {x : Label} (h : (l.places.map (·.1)).count x = 1) :
    ∃ pc, l.place? x = some pc := by
  have hmem : x ∈ l.places.map (·.1) := List.count_pos_iff.1 (by omega)
  cases hx : l.place? x with
  | none => exact absurd hmem (Listing.place?_eq_none.1 hx)
  | some pc => exact ⟨pc, rfl⟩

/-- Resolving succeeds if every label in use has a place. -/
theorem Listing.resolve_ok {l : Listing} : l.resolve = .ok () ↔
    (∀ ins ∈ l.code, ∀ x ∈ ins.labels, ∃ pc, l.place? x = some pc) ∧
      ∀ h ∈ l.handlers, ∀ x ∈ [h.start, h.stop, h.handler], ∃ pc, l.place? x = some pc := by
  have hmissing : l.resolve = .ok () ↔ l.missing? = none := by
    unfold Listing.resolve
    cases l.missing? with
    | none => simp
    | some f => simp
  -- neither search comes to a label without a place
  have hplaced : ∀ xs : List Label, xs.find? (fun x => (l.place? x).isNone) = none ↔
      ∀ x ∈ xs, ∃ pc, l.place? x = some pc := by
    intro xs
    simp [List.find?_eq_none, Option.ne_none_iff_exists']
  rw [hmissing, Listing.missing?, Option.or_eq_none_iff, List.findSome?_eq_none_iff,
    List.findSome?_eq_none_iff]
  simp only [Option.map_eq_none_iff, hplaced]
  refine and_congr_left' ⟨?_, ?_⟩
  · intro h ins hins
    obtain ⟨pc, hpc⟩ := List.mem_iff_getElem?.1 (Array.mem_toList_iff.2 hins)
    exact h (ins, pc) (List.mem_zipIdx_iff_getElem?.2 hpc)
  · intro h p hp
    exact h p.1 (Array.mem_toList_iff.1 (List.fst_mem_of_mem_zipIdx hp))

theorem Listing.Resolved.resolve {l : Listing} (h : l.Resolved) : l.resolve = .ok () :=
  Listing.resolve_ok.2 ⟨fun ins hins x hx => Listing.exists_place? (h.code ins hins x hx),
    fun k hk x hx => Listing.exists_place? (h.table k hk x hx)⟩

/-- A listing made of the given code, and of nothing else. -/
structure Listing.Holds (l : Listing) (items : Code) : Prop where
  placed : items.At l 0
  size : l.code.size = items.size
  handlers : l.handlers = items.handlers
  resolved : l.Resolved

namespace Checked

/-- Code that uses no labels but its own can be made into a listing. -/
theorem Laid.assemble {n' : Nat} {code : Code} (h : Laid 0 n' [] [] code) :
    ∃ l, code.assemble = .ok l ∧ l.Holds code := by
  have hnodup : code.placed.Nodup := by
    refine List.nodup_iff_count_le_one.2 fun x => ?_
    rw [h.once]
    split <;> omega
  have hnew : ∀ x ∈ code.placed, x ≠ .absent ∧ Listing.empty.place? x = none := by
    intro x hx
    refine ⟨?_, rfl⟩
    rintro rfl
    have hcount := h.once .absent
    rw [if_neg (by simp [Between, Label.absent])] at hcount
    exact List.count_eq_zero.1 hcount hx
  obtain ⟨l, hfold, hgains⟩ := Listing.gains_code hnodup hnew
  have hcode : l.code.toList = code.filterMap Item.instruction? := by
    rw [hgains.code]
    rfl
  have honce : ∀ x, Between 0 n' x ∨ x ∈ [] → (l.places.map (·.1)).count x = 1 := by
    intro x hx
    have hplaces : l.places.map (·.1) = code.placed.reverse := by
      rw [hgains.places]
      exact List.append_nil _
    rw [hplaces, List.count_reverse, h.once, if_pos (hx.resolve_right List.not_mem_nil)]
  refine ⟨l, hfold, hgains.placed, ?_, by rw [hgains.handlers]; rfl, ?_, ?_⟩
  · rw [← Array.length_toList, hcode, Code.size_eq]
  · intro ins hins x hx
    rw [← Array.mem_toList_iff, hcode, List.mem_filterMap] at hins
    obtain ⟨i, hi, hins⟩ := hins
    exact honce x (h.jumps x (List.mem_flatMap.2 ⟨i, hi, i.labels_subset_jumps hins x hx⟩))
  · intro k hk x hx
    rw [hgains.handlers] at hk
    exact honce x (h.ranges x (Code.mem_ranges hk x hx))

end Checked

end Jminus
