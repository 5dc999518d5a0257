import Jminus.Proofs.Frame
import Jminus.Proofs.Handlers
import Mathlib

/-!
A listing that resolves keeps its machine inside.

A listing is built by calls, in any order and with any arguments; a call that fails does nothing. If
every label in use has a place at the end, then a run on the listing stays between its first
instruction and its end. No jump and no search of the table misses a label, and a jump table has a
target for each key that asks for one.
-/
namespace Jminus

namespace Listing

inductive Operation where
  | create
  | place (label : Label)
  | branch (op : Opcode) (target : Label)
  | plain (op : Opcode) (arg : Operand)
  | dense (dflt : Label) (lo hi : Int32) (targets : List Label)
  | sparse (dflt : Label) (count : Int) (pairs : List (Int32 × Label))
  | handler (h : Handler)

def Operation.apply (l : Listing) : Operation → Except Fault Listing
  | .create => .ok l.createLabel.2
  | .place label => l.place label
  | .branch op target => l.addBranch op target
  | .plain op arg => .ok (l.addPlain op arg)
  | .dense dflt lo hi targets => l.addDense dflt lo hi targets
  | .sparse dflt count pairs => l.addSparse dflt count pairs
  | .handler h => .ok (l.addHandler h)

/-- A call that fails leaves the listing as it is. -/
def attempt (l : Listing) (op : Operation) : Listing :=
  match op.apply l with
  | .ok l' => l'
  | .error _ => l

def built (ops : List Operation) : Listing := ops.foldl attempt .empty

def Full : Instruction → Prop
  | .table dflt lo hi targets => dflt = .absent ∨ hi.toInt - lo.toInt + 1 = targets.length
  | _ => True

/-- What calls keep of a listing. -/
structure Sane (l : Listing) : Prop where
  absent : l.place? .absent = none
  places : ∀ x pc, l.place? x = some pc → pc ≤ l.code.size
  tables : ∀ ins ∈ l.code, Full ins

namespace Sane

variable {l l' : Listing}

theorem empty : Sane .empty where
  absent := rfl
  places _ _ h := by cases h
  tables _ h := absurd h (Array.not_mem_empty _)

/-- An instruction may be added whose table is full. -/
theorem push (h : l.Sane) {ins : Instruction} (hins : Full ins) : (l.push ins).Sane where
  absent := h.absent
  places x pc hx := by
    have hle := h.places x pc hx
    simp only [Listing.push, Array.size_push]
    omega
  tables ins' hmem := by
    rcases Array.mem_push.1 hmem with hold | rfl
    · exact h.tables ins' hold
    · exact hins

/-- A label may be placed, if it is not yet. -/
theorem place (h : l.Sane) {label : Label} (hplace : l.place label = .ok l') : l'.Sane := by
  unfold Listing.place at hplace
  split at hplace
  · cases hplace
  · rename_i hlabel
    split at hplace
    · cases hplace
    · cases hplace
      refine ⟨?_, ?_, h.tables⟩
      · have hne : (Label.absent == label) = false := beq_false_of_ne (Ne.symm hlabel)
        simp only [Listing.place?, List.lookup_cons, hne]
        exact h.absent
      · intro x pc hx
        by_cases hxl : x = label
        · subst hxl
          simp only [Listing.place?, List.lookup_cons, beq_self_eq_true, Option.some.injEq] at hx
          exact hx.ge
        · simp only [Listing.place?, List.lookup_cons, beq_false_of_ne hxl] at hx
          exact h.places x pc hx

theorem addBranch (h : l.Sane) {op : Opcode} {target : Label}
    (hadd : l.addBranch op target = .ok l') : l'.Sane := by
  unfold Listing.addBranch at hadd
  split at hadd
  · cases hadd
    exact h.push trivial
  · cases hadd

/-- Without labels a branch or a switch gets the absent one. -/
theorem addPlain (h : l.Sane) (op : Opcode) (arg : Operand) : (l.addPlain op arg).Sane := by
  apply h.push
  unfold Instruction.simple
  split
  · trivial
  · exact .inl rfl
  · trivial
  · trivial

/-- A table is as long as its range, or has no labels. -/
theorem addDense (h : l.Sane) {dflt : Label} {lo hi : Int32} {targets : List Label}
    (hadd : l.addDense dflt lo hi targets = .ok l') : l'.Sane := by
  unfold Listing.addDense at hadd
  split at hadd
  · rename_i hsize
    cases hadd
    exact h.push (.inr hsize)
  · cases hadd

theorem addSparse (h : l.Sane) {dflt : Label} {count : Int} {pairs : List (Int32 × Label)}
    (hadd : l.addSparse dflt count pairs = .ok l') : l'.Sane := by
  unfold Listing.addSparse at hadd
  split at hadd
  · cases hadd
  · split at hadd
    · cases hadd
      exact h.push trivial
    · cases hadd

/-- Every call that succeeds keeps a listing sane. -/
theorem apply (h : l.Sane) {op : Operation} (hop : op.apply l = .ok l') : l'.Sane := by
  cases op with
  | create =>
    cases hop
    exact ⟨h.absent, h.places, h.tables⟩
  | place label => exact h.place hop
  | branch op target => exact h.addBranch hop
  | plain op arg =>
    cases hop
    exact h.addPlain op arg
  | dense dflt lo hi targets => exact h.addDense hop
  | sparse dflt count pairs => exact h.addSparse hop
  | handler k =>
    cases hop
    exact ⟨h.absent, h.places, h.tables⟩

theorem attempt (h : l.Sane) (op : Operation) : (l.attempt op).Sane := by
  unfold Listing.attempt
  split
  · rename_i l' hop
    exact h.apply hop
  · exact h

end Sane

theorem sane_foldl {l : Listing} (h : l.Sane) (ops : List Operation) :
    (ops.foldl attempt l).Sane := by
  induction ops generalizing l with
  | nil => exact h
  | cons op ops ih => exact ih (h.attempt op)

theorem built_sane (ops : List Operation) : (built ops).Sane := sane_foldl .empty ops

/-- All labels in use have a place in the listing, and jump tables are as long as they need to be. -/
structure Sealed (l : Listing) : Prop where
  code : ∀ ins ∈ l.code, ∀ x ∈ ins.labels, ∃ pc, l.place? x = some pc
  table : ∀ h ∈ l.handlers, ∀ x ∈ [h.start, h.stop, h.handler], ∃ pc, l.place? x = some pc
  places : ∀ x pc, l.place? x = some pc → pc ≤ l.code.size
  keys : ∀ dflt lo hi targets, Instruction.table dflt lo hi targets ∈ l.code →
    hi.toInt - lo.toInt + 1 = targets.length

/-- If it resolves, no label in use is without a place. -/
theorem Sane.sealed {l : Listing} (h : l.Sane) (hres : l.resolve = .ok ()) : l.Sealed := by
  obtain ⟨hcode, htable⟩ := resolve_ok.1 hres
  refine ⟨hcode, htable, h.places, ?_⟩
  intro dflt lo hi targets hmem
  rcases h.tables _ hmem with habsent | hsize
  · -- the absent label has no place, so this table is in no listing that resolves
    obtain ⟨pc, hpc⟩ := hcode _ hmem dflt List.mem_cons_self
    rw [habsent, h.absent] at hpc
    cases hpc
  · exact hsize

/-- A key between the bounds of a jump table has a target. -/
theorem Sealed.target {l : Listing} (h : l.Sealed) {dflt : Label} {lo hi key : Int32}
    {targets : List Label} (hmem : Instruction.table dflt lo hi targets ∈ l.code) (hlo : lo ≤ key)
    (hhi : key ≤ hi) : lo.toInt ≤ key.toInt ∧
      ∃ target, targets[(key.toInt - lo.toInt).toNat]? = some target := by
  have hsize := h.keys dflt lo hi targets hmem
  have hlo' := Int32.le_iff_toInt_le.1 hlo
  have hhi' := Int32.le_iff_toInt_le.1 hhi
  have hlt : (key.toInt - lo.toInt).toNat < targets.length := by omega
  exact ⟨hlo', targets[(key.toInt - lo.toInt).toNat], List.getElem?_eq_getElem hlt⟩

end Listing

namespace Machine

variable {code : Listing}

/-- A machine that is inside the code, or at its end, stays there. -/
def StaysIn (code : Listing) (m m' : Machine) : Prop :=
  m.pc ≤ code.code.size → m'.pc ≤ code.code.size

theorem staysIn_lax (code : Listing) : Lax (StaysIn code) (isUnplaced · = false) where
  refl _ := id
  trans h h' := h' ∘ h
  stack _ _ := id
  print _ _ := id
  create _ := id
  fault _ := id

theorem jump_staysIn (h : code.Sealed) {l : Label} (hl : ∃ pc, code.place? l = some pc) :
    Keeps (StaysIn code) (isUnplaced · = false) (jump code l) := by
  apply Keeps.jump (staysIn_lax code)
  · intro m pc hpc _
    exact h.places l pc hpc
  · intro hnone
    obtain ⟨pc, hpc⟩ := hl
    cases hnone.symm.trans hpc

/-- No instruction leads out of the code. -/
theorem perform_staysIn (h : code.Sealed) {ins : Instruction} (hins : ins ∈ code.code) :
    Keeps (StaysIn code) (isUnplaced · = false) (perform code ins) := by
  apply perform_keeps (staysIn_lax code)
  · intro cell arg _ m locals hm
    exact hm
  · intro arg _ m _
    exact Nat.le_refl code.code.size
  · intro l hl
    exact jump_staysIn h (h.code ins hins l hl)

/-- A tick stays inside and does not miss a label. -/
theorem tick_staysIn (h : code.Sealed) (limit : Nat) {m : Machine} (hm : m.pc ≤ code.code.size) :
    (tick code limit m).machine.pc ≤ code.code.size ∧
      ∀ f m', tick code limit m = .stopped (.fault f) m' → isUnplaced f = false := by
  cases hins : code.code[m.pc]? with
  | none =>
    rw [tick_end hins]
    refine ⟨hm, ?_⟩
    intro f m' hstop
    cases hstop
  | some ins =>
    by_cases hlimit : 0 < limit ∧ limit ≤ m.steps
    · rw [tick_limited hins hlimit]
      refine ⟨hm, ?_⟩
      intro f m' hstop
      cases hstop
    · have hlt : m.pc < code.code.size := (Array.getElem?_eq_some_iff.1 hins).1
      have hkept := tick_keeps (staysIn_lax code) (fun _ _ => id) hins hlimit
        (perform_staysIn h (Array.mem_of_getElem? hins)) ?_
        fun k hk => jump_staysIn h (h.table k hk k.handler (by simp))
      · exact ⟨hkept.1 hlt, hkept.2⟩
      · intro cls f hfail
        obtain ⟨found, hfound, _⟩ := Listing.handlerFor?_eq fun k hk =>
          ⟨h.table k hk k.start (by simp), h.table k hk k.stop (by simp)⟩
        cases hfail.symm.trans hfound

theorem Leads.staysIn (h : code.Sealed) {limit : Nat} {m m' : Machine} (hleads : Leads code limit m m')
    (hm : m.pc ≤ code.code.size) : m'.pc ≤ code.code.size := by
  induction hleads with
  | refl => exact hm
  | tail _ htick ih =>
    have hlast := (tick_staysIn h limit ih).1
    rw [htick] at hlast
    exact hlast

end Machine

open Machine

/-- Every machine of a run on a listing that resolves is inside the code or at its end. A jump table
that it comes to has a target for every key between its bounds. When the run stops, it is not for a
label. -/
theorem resolved_stays_inside (ops : List Listing.Operation)
    (hres : (Listing.built ops).resolve = .ok ()) (locals limit : Nat) :
    (∀ m, Leads (.built ops) limit (.start locals) m → m.pc ≤ (Listing.built ops).code.size ∧
      (∀ dflt lo hi targets key,
        (Listing.built ops).code[m.pc]? = some (.table dflt lo hi targets) → lo ≤ key → key ≤ hi →
          lo.toInt ≤ key.toInt ∧ ∃ target, targets[(key.toInt - lo.toInt).toNat]? = some target) ∧
      ∀ s w, tick (.built ops) limit m = .stopped s w →
        w.pc ≤ (Listing.built ops).code.size ∧ ∀ l, s ≠ .fault (.unplaced l)) ∧
    ∀ fuel s w, run (.built ops) limit fuel (.start locals) = some (s, w) →
      w.pc ≤ (Listing.built ops).code.size ∧ ∀ l, s ≠ .fault (.unplaced l) := by
  have hsealed := (Listing.built_sane ops).sealed hres
  have hpc : ∀ m, Leads (.built ops) limit (.start locals) m → m.pc ≤ (Listing.built ops).code.size :=
    fun m hleads => hleads.staysIn hsealed (Nat.zero_le _)
  have hstop : ∀ m s w, Leads (.built ops) limit (.start locals) m →
      tick (.built ops) limit m = .stopped s w →
        w.pc ≤ (Listing.built ops).code.size ∧ ∀ l, s ≠ .fault (.unplaced l) := by
    intro m s w hleads htick
    obtain ⟨hin, hfault⟩ := tick_staysIn hsealed limit (hpc m hleads)
    rw [htick] at hin
    refine ⟨hin, ?_⟩
    rintro l rfl
    cases hfault _ w htick
  constructor
  · intro m hleads
    refine ⟨hpc m hleads, ?_, fun s w => hstop m s w hleads⟩
    intro dflt lo hi targets key hins hlo hhi
    exact hsealed.target (Array.mem_of_getElem? hins) hlo hhi
  · intro fuel s w hrun
    obtain ⟨m, hleads, htick⟩ := run_leads hrun
    exact hstop m s w hleads htick

/-- A switch whose case throws, with a handler at the end of the code. Five of the calls fail. -/
def throwing : List Listing.Operation :=
  [.create, .place .absent, .plain .ldc (.const (.int 1)), .dense ⟨3⟩ 0 1 [⟨3⟩, ⟨1⟩],
    .dense ⟨3⟩ 0 5 [⟨7⟩], .branch .nop ⟨8⟩, .place ⟨1⟩, .place ⟨1⟩, .plain .aconstNull .absent,
    .plain .athrow .absent, .sparse ⟨9⟩ 1 [], .place ⟨3⟩, .handler ⟨⟨1⟩, ⟨3⟩, ⟨3⟩, ""⟩]

theorem resolved_stays_inside_throwing :
    (Listing.built throwing).resolve = .ok () ∧ (Listing.built throwing).code.size = 4 ∧
      (∀ m, Leads (.built throwing) 7 (.start 0) m → m.pc ≤ 4) ∧
      ∃ w, run (.built throwing) 7 8 (.start 0) = some (.finished, w) ∧ w.pc = 4 := by
  have hres : (Listing.built throwing).resolve = .ok () := rfl
  have hrun : ((run (.built throwing) 7 8 (.start 0)).map fun r => (r.1, r.2.pc)) =
      some (.finished, 4) := by decide +kernel
  obtain ⟨⟨s, w⟩, hend, hvalues⟩ := Option.map_eq_some_iff.1 hrun
  obtain ⟨rfl, hpc⟩ := Prod.mk.inj hvalues
  have hinside := (resolved_stays_inside throwing hres 0 7).1
  exact ⟨hres, rfl, fun m hleads => (hinside m hleads).1, w, hend, hpc⟩

end Jminus
