import Jminus.Proofs.Meaning.Typed
import Jminus.Proofs.Order
import Jminus.Proofs.Steps
import Mathlib

/-!
How the values and the world of evaluation appear in the machine.

A boolean is 1 or 0 there and a character its code. Slots for variables hold what the variables
hold; the slots of delayed exceptions belong to the machine alone.
-/
namespace Jminus.Checked.Meaning

open Machine (Memory)

/-- A value as the machine has it. -/
def Datum.value : Datum → Value
  | .void | .null => .null
  | .int n => .int n
  | .long n => .long n
  | .double x => .double x
  | .boolean b => .ofBool b
  | .char c => .int (Int32.ofNat c.toNat)
  | .string s => .string s
  | .object id cls => .object (.made id) cls

def Datum.pushed : Datum → List Value
  | .void => []
  | d => [d.value]

/-- A value of any type but void is pushed. -/
theorem Datum.Fits.pushed {d : Datum} {t : Ty} (h : d.Fits t) (ht : t ≠ .void) :
    d.pushed = [d.value] := by
  cases d with
  | void =>
    cases t with
    | void => exact absurd rfl ht
    | _ => cases h
  | _ => rfl

def Raised.thrown (x : Raised) : Thrown := ⟨.made x.id, x.cls⟩

theorem toInt_code (c : Char) : (Int32.ofNat c.toNat).toInt = c.toNat := by
  have hlt : c.toNat < 2 ^ 31 := by
    have hvalid : c.toNat < 0x110000 := by
      rcases c.valid with h | h
      · exact Nat.lt_trans h (by decide)
      · exact h.2
    omega
  exact Int32.toInt_ofNat_of_lt hlt

theorem charOf_code (c : Char) : Value.charOf (Int32.ofNat c.toNat) = c := by
  have hvalid : c.toNat.isValidChar := c.valid
  rw [Value.charOf, toInt_code, if_pos ⟨by omega, by simpa using hvalid⟩]
  simp

/-- The machine writes values as the language does. -/
theorem Datum.Fits.format {d : Datum} {t : Ty} (h : d.Fits t) {s : String} (hs : d.text? = some s) :
    d.value.format t.described = .ok s := by
  cases d with
  | void => cases hs
  | null =>
    cases hs
    cases t with
    | null | ref => rfl
    | _ => cases h
  | int | long | double | string | object =>
    cases hs
    cases t with
    | int | long | double | ref => first | rfl | cases h
    | _ => cases h
  | boolean b =>
    cases hs
    cases t with
    | boolean => cases b <;> rfl
    | _ => cases h
  | char c =>
    cases hs
    cases t with
    | char => exact congrArg (fun c => Except.ok (Char.toString c)) (charOf_code c)
    | _ => cases h

/-- The memory of the machine holds a world: its variables in their slots, and in the slots of
`held` what is kept there for later. -/
structure Agrees (slots : Slots) (held : List (Nat × Value)) (w : World) (mem : Memory) : Prop where
  printed : mem.output.reverse = w.printed
  made : mem.made = w.made
  size : mem.locals.size = slots.length
  vars : ∀ i t, slots[i]? = some (some t) → mem.locals[i]? = some (w.vars i).value
  held : ∀ p ∈ held, mem.locals[p.1]? = some p.2

namespace Agrees

variable {slots : Slots} {held : List (Nat × Value)} {w : World} {mem : Memory}

theorem start (slots : Slots) : Agrees slots [] .start (Machine.start slots.length).memory := by
  refine ⟨rfl, rfl, Array.size_replicate, fun i t hi => ?_, by simp⟩
  have hlt := (List.getElem?_eq_some_iff.1 hi).1
  exact Array.getElem?_replicate.trans (if_pos hlt)

/-- What the machine loads is what the variable holds. -/
theorem load {v : Local} (h : Agrees slots held w mem) (hv : slots.Holds v) :
    mem.locals[v.slot]? = some (w.vars v.slot).value := h.vars _ _ hv.1

theorem lt_size {i : Nat} {t : Option Ty} (h : Agrees slots held w mem) (hi : slots[i]? = some t) :
    i < mem.locals.size := by
  rw [h.size]
  exact (List.getElem?_eq_some_iff.1 hi).1

/-- A store keeps the agreement if nothing is kept for later in the slot. -/
theorem set {v : Local} (h : Agrees slots held w mem) (hv : slots.Holds v)
    (hfree : ∀ p ∈ held, p.1 ≠ v.slot) (d : Datum) :
    Agrees slots held (w.set v.slot d) (mem.set v.slot d.value) := by
  refine ⟨h.printed, h.made, ?_, fun i t hi => ?_, fun p hp => ?_⟩
  · simpa [Memory.set] using h.size
  · by_cases hiv : i = v.slot
    · subst hiv
      simp [Memory.set, World.set, h.lt_size hv.1]
    · simpa [Memory.set, World.set, hiv, Array.getElem?_setIfInBounds_ne (Ne.symm hiv)]
        using h.vars i t hi
  · rw [← h.held p hp]
    exact Array.getElem?_setIfInBounds_ne (hfree p hp).symm

/-- Keeping a value in a slot that no variable has. -/
theorem hold {slot : Nat} (h : Agrees slots held w mem) (hslot : slots[slot]? = some none)
    (hfree : ∀ p ∈ held, p.1 ≠ slot) (v : Value) :
    Agrees slots ((slot, v) :: held) w (mem.set slot v) := by
  refine ⟨h.printed, h.made, ?_, fun i t hi => ?_, fun p hp => ?_⟩
  · simpa [Memory.set] using h.size
  · have hne : slot ≠ i := by
      rintro rfl
      cases hslot.symm.trans hi
    simpa [Memory.set, Array.getElem?_setIfInBounds_ne hne] using h.vars i t hi
  · rcases List.mem_cons.1 hp with rfl | hp
    · simp [Memory.set, h.lt_size hslot]
    · rw [← h.held p hp]
      exact Array.getElem?_setIfInBounds_ne (hfree p hp).symm

theorem release {p : Nat × Value} (h : Agrees slots (p :: held) w mem) : Agrees slots held w mem :=
  ⟨h.printed, h.made, h.size, h.vars, fun q hq => h.held q (List.mem_cons_of_mem _ hq)⟩

theorem print (h : Agrees slots held w mem) (text : String) :
    Agrees slots held { w with printed := w.printed ++ [text] } (mem.print text) :=
  ⟨by simp [Memory.print, h.printed], h.made, h.size, h.vars, h.held⟩

theorem create (h : Agrees slots held w mem) :
    Agrees slots held { w with made := w.made + 1 } { mem with made := mem.made + 1 } :=
  ⟨h.printed, congrArg (· + 1) h.made, h.size, h.vars, h.held⟩

end Agrees

end Jminus.Checked.Meaning
