import Jminus.Proofs.Dispatch
import Mathlib

/-!
Where a switch goes on.

A jump table and a lookup over the same cases are one switch: they are made from the cases without a
check that fails, they take the same way for every key, and the table has an entry for every key that
asks for one, however far apart its bounds are.
-/
namespace Jminus

open Machine (perform jump)

/-- The label that cases mean for a key: the one they pair it with, or the default label. -/
def Meant (pairs : List (Int32 × Label)) (dflt : Label) (key : Int32) (target : Label) : Prop :=
  (key, target) ∈ pairs ∨ (∀ l, (key, l) ∉ pairs) ∧ target = dflt

/-- An instruction that takes a key from the stack and goes on at the label that is meant. -/
def Instruction.Routes (pairs : List (Int32 × Label)) (dflt : Label) (ins : Instruction) : Prop :=
  ∀ (code : Listing) (m : Machine) (key : Int32) (rest : List Value) (target : Label) (pc : Nat),
    m.stack = .int key :: rest → Meant pairs dflt key target → code.place? target = some pc →
      (perform code ins).run m = .ok none { m with stack := rest, pc }

variable {pairs : List (Int32 × Label)} {dflt : Label} {key : Int32} {target : Label}

/-- With each key once, what is meant is what is chosen. -/
theorem Meant.eq_chosen (h : Meant pairs dflt key target) (hnodup : (pairs.map (·.1)).Nodup) :
    target = chosen pairs dflt key := by
  cases h with
  | inl hmem =>
    rw [chosen, (lookup_eq_some_of_nodup hnodup).2 hmem]
    rfl
  | inr hno =>
    obtain ⟨hno, rfl⟩ := hno
    apply (chosen_of_ne _ target).symm
    intro p hp hkey
    apply hno p.2
    rwa [hkey]

/-- Either strategy goes to the label that is meant. -/
theorem Plan.planned_routes (s : Strategy) (hnodup : (pairs.map (·.1)).Nodup) (dflt : Label) :
    ((planned s pairs).instruction pairs dflt).Routes pairs dflt := by
  intro code m key rest target pc hstack hmeant hplace
  rw [Machine.perform_planned code s dflt hnodup hstack, ← hmeant.eq_chosen hnodup,
    Machine.jump_run _ hplace]
  rfl

/-- Whatever the order of the cases, and with either strategy, a listing takes the instruction of a
switch, and the instruction goes on where the cases say. Both instructions do the same on every key.
The table has room for all its cases, and an entry for every key between its bounds. -/
theorem dispatch_routes (hnodup : (pairs.map (·.1)).Nodup) (dflt : Label) :
    ∃ dispatch : Strategy → Instruction,
      (∀ s l, (Plan.planned s pairs).emit pairs dflt l = .ok (l.push (dispatch s))) ∧
      (∀ l, (Plan.choose (pairs.map (·.1))).emit pairs dflt l =
        .ok (l.push (dispatch (Plan.choose (pairs.map (·.1))).strategy))) ∧
      (∀ s, (dispatch s).Routes pairs dflt) ∧
      (∀ (code : Listing) (m : Machine) key rest, m.stack = .int key :: rest →
        (perform code (dispatch .dense)).run m = (perform code (dispatch .sparse)).run m) ∧
      ∃ lo hi targets, dispatch .dense = .table dflt lo hi targets ∧
        (∀ p ∈ pairs, lo ≤ p.1 ∧ p.1 ≤ hi) ∧
        ∀ key : Int32, lo ≤ key → key ≤ hi →
          0 ≤ key.toInt - lo.toInt ∧ key.toInt - lo.toInt < targets.length := by
  refine ⟨fun s => (Plan.planned s pairs).instruction pairs dflt, ?_, ?_, ?_, ?_,
    (Plan.choose (pairs.map (·.1))).lo, (Plan.choose (pairs.map (·.1))).hi,
    Plan.targets (Plan.choose (pairs.map (·.1))).lo (Plan.choose (pairs.map (·.1))).hi dflt
      (Plan.sorted pairs), rfl, ?_, ?_⟩
  · intro s l
    exact Plan.emit_planned s pairs dflt l
  · intro l
    exact Plan.emit_planned _ pairs dflt l
  · intro s
    exact Plan.planned_routes s hnodup dflt
  · intro code m key rest hstack
    rw [Machine.perform_planned code .dense dflt hnodup hstack,
      Machine.perform_planned code .sparse dflt hnodup hstack]
  · intro p hp
    exact Plan.choose_bounds (List.mem_map.2 ⟨p, hp, rfl⟩)
  · intro key hlo hhi
    rw [Plan.length_targets]
    simp only [Int32.le_iff_toInt_le] at hlo hhi
    omega

/-- Three cases out of order, two of them at the ends of the range. -/
def farApart : List (Int32 × Label) := [(2147483647, ⟨1⟩), (-2147483648, ⟨2⟩), (0, ⟨3⟩)]

theorem dispatch_routes_farApart : (farApart.map (·.1)).Nodup ∧
    ∃ dispatch : Strategy → Instruction,
      (∀ s l, (Plan.planned s farApart).emit farApart ⟨4⟩ l = .ok (l.push (dispatch s))) ∧
      (∀ l, (Plan.choose (farApart.map (·.1))).emit farApart ⟨4⟩ l =
        .ok (l.push (dispatch (Plan.choose (farApart.map (·.1))).strategy))) ∧
      (∀ s, (dispatch s).Routes farApart ⟨4⟩) ∧
      (∀ (code : Listing) (m : Machine) key rest, m.stack = .int key :: rest →
        (perform code (dispatch .dense)).run m = (perform code (dispatch .sparse)).run m) ∧
      ∃ lo hi targets, dispatch .dense = .table ⟨4⟩ lo hi targets ∧
        (∀ p ∈ farApart, lo ≤ p.1 ∧ p.1 ≤ hi) ∧
        ∀ key : Int32, lo ≤ key → key ≤ hi →
          0 ≤ key.toInt - lo.toInt ∧ key.toInt - lo.toInt < targets.length :=
  ⟨by decide, dispatch_routes (by decide) ⟨4⟩⟩

end Jminus
