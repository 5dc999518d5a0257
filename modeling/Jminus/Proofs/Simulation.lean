import Jminus.Proofs.Agreement
import Mathlib

/-!
Running code against evaluating: what it means that the machine follows an evaluation, and the
instructions that follow the operations of the language.
-/
namespace Jminus.Checked.Meaning

open Code
open Machine (Memory Config Goes Throws)

variable {α β : Type} {prog : Listing} {slots : Slots} {held : List (Nat × Value)}
  {lo hi pc k : Nat} {c c' : Config} {w : World} {mem : Memory} {stack : List Value}
  {least least' : α → Nat} {next next' : α → Memory → Config}

/-- From the configuration `c` the machine does what an evaluation did: it goes on at `next`, or
throws between `lo` and `hi`. The memory agrees with the world in both cases. -/
def Follows (prog : Listing) (slots : Slots) (held : List (Nat × Value)) (lo hi : Nat) (c : Config)
    (x : Option (Except Raised α × World)) (least : α → Nat) (next : α → Memory → Config) : Prop :=
  match x with
  | some (.ok a, w) => ∃ mem, Agrees slots held w mem ∧ Goes prog (least a) c (next a mem)
  | some (.error e, w) => ∃ mem, Agrees slots held w mem ∧ Throws prog lo hi c e.thrown mem
  | none => True

namespace Follows

/-- A value that is there follows by doing nothing more. -/
theorem pure {a : α} (hagrees : Agrees slots held w mem) (h : Goes prog (least a) c (next a mem)) :
    Follows prog slots held lo hi c ((Pure.pure a : Eval α) w) least next :=
  ⟨mem, hagrees, h⟩

variable {x : Option (Except Raised α × World)} {P : α → Prop} {f : α → Eval β}

/-- Instructions before; they count as well. -/
theorem after (h : Goes prog k c c')
    (hx : Follows prog slots held lo hi c' x (fun a => least a - k) next) :
    Follows prog slots held lo hi c x least next := by
  match x, hx with
  | some (.ok a, w), ⟨mem, hagrees, hgoes⟩ =>
    exact ⟨mem, hagrees, (h.trans hgoes).weaken le_add_tsub⟩
  | some (.error e, w), ⟨mem, hagrees, hthrows⟩ => exact ⟨mem, hagrees, h.throws hthrows⟩
  | none, _ => trivial

theorem widen {lo' hi' : Nat} (h : Follows prog slots held lo hi c x least next) (hlo : lo' ≤ lo)
    (hhi : hi ≤ hi') : Follows prog slots held lo' hi' c x least next := by
  match x, h with
  | some (.ok a, w), h => exact h
  | some (.error e, w), ⟨mem, hagrees, hthrows⟩ => exact ⟨mem, hagrees, hthrows.widen hlo hhi⟩
  | none, _ => trivial

/-- Fewer instructions may be promised. -/
theorem weaken (h : Follows prog slots held lo hi c x least next) (hle : ∀ a, least' a ≤ least a) :
    Follows prog slots held lo hi c x least' next := by
  match x, h with
  | some (.ok a, w), ⟨mem, hagrees, hgoes⟩ => exact ⟨mem, hagrees, hgoes.weaken (hle a)⟩
  | some (.error e, w), h => exact h
  | none, _ => trivial

/-- Instructions behind. -/
theorem before {x : Eval α} (hends : Ends slots x w P)
    (h : Follows prog slots held lo hi c (x w) least next)
    (hnext : ∀ a mem, P a → Goes prog (least' a) (next a mem) (next' a mem)) :
    Follows prog slots held lo hi c (x w) least' next' := by
  obtain ⟨r, w', heq, _, hr⟩ := hends
  rw [heq] at h ⊢
  cases r with
  | ok a =>
    obtain ⟨mem, hagrees, hgoes⟩ := h
    exact ⟨mem, hagrees, (hgoes.trans (hnext a mem hr)).weaken (Nat.le_add_left _ _)⟩
  | error e => exact h

/-- One evaluation after the other, with the instructions of both. -/
theorem bind_counting {x : Eval α} {least' : β → Nat} {next' : β → Memory → Config}
    (hends : Ends slots x w P) (hx : Follows prog slots held lo hi c (x w) least next)
    (hf : ∀ a w' mem', P a → w.Keeps slots w' → Agrees slots held w' mem' →
      Follows prog slots held lo hi (next a mem') (f a w') (fun b => least' b - least a) next') :
    Follows prog slots held lo hi c ((x >>= f) w) least' next' := by
  obtain ⟨r, w', heq, hkeeps, hr⟩ := hends
  have hbind : (x >>= f) w = (x w >>= fun p => match p with
    | (.ok a, w) => f a w
    | (.error e, w) => some (.error e, w)) := by
    change (x w >>= _) = _
    rw [heq]
    cases r <;> rfl
  rw [hbind, heq]
  rw [heq] at hx
  cases r with
  | ok a =>
    obtain ⟨mem', hagrees, hgoes⟩ := hx
    exact (hf a w' mem' hr hkeeps hagrees).after hgoes
  | error e => exact hx

/-- One evaluation after the other. -/
theorem bind {x : Eval α} {least' : β → Nat} {next' : β → Memory → Config}
    (hends : Ends slots x w P) (hx : Follows prog slots held lo hi c (x w) least next)
    (hf : ∀ a w' mem', P a → w.Keeps slots w' → Agrees slots held w' mem' →
      Follows prog slots held lo hi (next a mem') (f a w') least' next') :
    Follows prog slots held lo hi c ((x >>= f) w) least' next' :=
  bind_counting hends hx fun a w' mem' ha hkeeps hagrees =>
    (hf a w' mem' ha hkeeps hagrees).weaken fun _ => Nat.sub_le _ _

end Follows

/-- A new exception leaves the machine and evaluation at the same count of objects. -/
theorem Follows.raise {cls : Class} (hagrees : Agrees slots held w mem)
    (h : Throws prog lo hi c ⟨.made mem.made, cls⟩ { mem with made := mem.made + 1 }) :
    Follows prog slots held lo hi c ((Eval.raise cls : Eval α) w) least next := by
  refine ⟨_, hagrees.create, ?_⟩
  rw [hagrees.made] at h ⊢
  exact h

/-- Arithmetic of the machine is that of the language, with its exception. -/
theorem arith_follows {op : ArithOp} {t : Ty} (ht : t.isNumeric = true) {a b : Datum}
    (ha : a.Fits t) (hb : b.Fits t) (hat : (Code.op (.arith t.num op)).At prog pc)
    (hagrees : Agrees slots held w mem) :
    Follows prog slots held pc (pc + 1) ⟨pc, b.value :: a.value :: stack, mem⟩ (arith op a b w)
      (fun _ => 1) fun d mem' => ⟨pc + 1, d.value :: stack, mem'⟩ := by
  cases t with
  | int =>
    obtain ⟨m, rfl⟩ := ha.int
    obtain ⟨n, rfl⟩ := hb.int
    cases op with
    | add | sub | mul => exact .pure hagrees (Machine.ticks_arith_int hat rfl).goes
    | div | rem =>
      by_cases hn : n = 0
      · subst hn
        simp only [arith, if_true]
        exact .raise hagrees (Machine.ticks_zero_int hat (by simp)).throws
      · simp only [arith, hn, if_false]
        exact .pure hagrees (Machine.ticks_arith_int hat (if_neg hn)).goes
  | long =>
    obtain ⟨m, rfl⟩ := ha.long
    obtain ⟨n, rfl⟩ := hb.long
    cases op with
    | add | sub | mul => exact .pure hagrees (Machine.ticks_arith_long hat rfl).goes
    | div | rem =>
      by_cases hn : n = 0
      · subst hn
        simp only [arith, if_true]
        exact .raise hagrees (Machine.ticks_zero_long hat (by simp)).throws
      · simp only [arith, hn, if_false]
        exact .pure hagrees (Machine.ticks_arith_long hat (if_neg hn)).goes
  | double =>
    obtain ⟨x, rfl⟩ := ha.double
    obtain ⟨y, rfl⟩ := hb.double
    cases op <;> exact .pure hagrees (Machine.goes_arith_double hat)
  | _ => cases ht

/-- The item of an operator does what the operator means. -/
theorem operator_follows {o : Operator} {left right t : Ty} {i : Item}
    (h : Computes o left right t) (hi : operatorItem? o left right = some i)
    (hat : i.At prog pc) {a b : Datum} (ha : a.Fits left) (hb : b.Fits right)
    (hagrees : Agrees slots held w mem) :
    Follows prog slots held pc (pc + 1) ⟨pc, b.value :: a.value :: stack, mem⟩
      (combine o left right a b w) (fun _ => 1) fun d mem' => ⟨pc + 1, d.value :: stack, mem'⟩ := by
  cases h with
  | join hjoin hleft hright =>
    obtain ⟨s, hs⟩ := ha.text hleft
    obtain ⟨s', hs'⟩ := hb.text hright
    cases (if_pos hjoin).symm.trans hi
    simp only [combine, hjoin, if_true, hs, hs', Eval.ofOption, pure_bind]
    exact .pure hagrees (Machine.goes_concat hat (ha.format hs) (hb.format hs'))
  | arith op ht =>
    have hjoin := joins_arith op ht
    cases (if_neg (ne_true_of_eq_false hjoin)).symm.trans hi
    simp only [combine, hjoin, Bool.false_eq_true, if_false]
    exact arith_follows ht ha hb hat hagrees
  | bit op ht =>
    cases left with
    | int =>
      obtain ⟨m, rfl⟩ := ha.int
      obtain ⟨n, rfl⟩ := hb.int
      cases hi
      cases op <;> exact .pure hagrees (Machine.goes_bit_int hat)
    | long =>
      obtain ⟨m, rfl⟩ := ha.long
      obtain ⟨n, rfl⟩ := hb.long
      cases hi
      cases op <;> exact .pure hagrees (Machine.goes_bit_long hat)
    | _ => cases ht
  | truthBit op =>
    obtain ⟨p, rfl⟩ := ha.boolean
    obtain ⟨q, rfl⟩ := hb.boolean
    cases hi
    cases op <;> cases p <;> cases q <;> exact .pure hagrees (Machine.goes_bit_int hat)
  | shift op ht =>
    obtain ⟨n, rfl⟩ := hb.int
    cases left with
    | int =>
      obtain ⟨m, rfl⟩ := ha.int
      cases hi
      cases op <;> exact .pure hagrees (Machine.ticks_shift_int hat).goes
    | long =>
      obtain ⟨m, rfl⟩ := ha.long
      cases hi
      cases op <;> exact .pure hagrees (Machine.ticks_shift_long hat).goes
    | _ => cases ht

/-- Characters compare as their codes. -/
theorem holds_chars (rel : Relation) (a b : Char) :
    rel.holds (Int32.ofNat a.toNat) (Int32.ofNat b.toNat) = between rel a b := by
  have heq : Int32.ofNat a.toNat = Int32.ofNat b.toNat ↔ a = b := by
    rw [← Int32.toInt_inj, toInt_code, toInt_code, Int.natCast_inj]
    exact Char.toNat_inj
  have hlt : ∀ c d : Char, Int32.ofNat c.toNat < Int32.ofNat d.toNat ↔ c < d := by
    intro c d
    rw [Int32.lt_iff_toInt_lt, toInt_code, toInt_code, Int.ofNat_lt]
    exact Iff.rfl
  have hle : ∀ c d : Char, Int32.ofNat c.toNat ≤ Int32.ofNat d.toNat ↔ c ≤ d := by
    intro c d
    rw [Int32.le_iff_toInt_le, toInt_code, toInt_code, Int.ofNat_le]
    exact Iff.rfl
  cases rel <;> simp [Relation.holds, between, heq, hlt, hle, bne, Bool.beq_eq_decide_eq]

/-- A branch that is taken if a relation holds, or if it does not. -/
theorem holds_directed (rel : Relation) (onTrue : Bool) (m n : Int32) :
    (if onTrue then rel else rel.negate).holds m n = true ↔ rel.holds m n = onTrue := by
  cases onTrue
  · simp [Relation.holds_negate]
  · simp

/-- The branch of a comparison, turned around if it is to be taken where the comparison fails. -/
def directed (onTrue : Bool) (b : Branch) : Branch := if onTrue then b else b.negated?.getD b

section Comparisons

variable {rel : Relation} {onTrue : Bool} {target : Label} {place : Nat}

variable {n : Int32} {r : Bool}

/-- A branch is taken where the comparison comes out as asked for. -/
theorem goes_directed_int {m : Int32}
    (hat : (Item.jump (directed onTrue (.ifInt rel)) target).At prog pc)
    (hplace : prog.place? target = some place) (hr : rel.holds m n = r) :
    Goes prog 1 ⟨pc, .int n :: .int m :: stack, mem⟩
      ⟨if r = onTrue then place else pc + 1, stack, mem⟩ := by
  subst hr
  have hbranch : directed onTrue (.ifInt rel) = .ifInt (if onTrue then rel else rel.negate) := by
    cases onTrue <;> rfl
  rw [hbranch] at hat
  have hgoes : Goes prog 1 ⟨pc, .int n :: .int m :: stack, mem⟩ _ :=
    Machine.goes_ifInt hat hplace
  simpa only [holds_directed] using hgoes

theorem goes_directed_zero (hat : (Item.jump (directed onTrue (.ifZero rel)) target).At prog pc)
    (hplace : prog.place? target = some place) (hr : rel.holds n 0 = r) :
    Goes prog 1 ⟨pc, .int n :: stack, mem⟩
      ⟨if r = onTrue then place else pc + 1, stack, mem⟩ := by
  subst hr
  have hbranch : directed onTrue (.ifZero rel) = .ifZero (if onTrue then rel else rel.negate) := by
    cases onTrue <;> rfl
  rw [hbranch] at hat
  have hgoes : Goes prog 1 ⟨pc, .int n :: stack, mem⟩ _ := Machine.goes_ifZero hat hplace
  simpa only [holds_directed] using hgoes

theorem goes_directed_ref {a b : Value} (same : Bool)
    (hat : (Item.jump (directed onTrue (.ifRef same)) target).At prog pc)
    (hplace : prog.place? target = some place) (hr : decide (a.same b = same) = r) :
    Goes prog 1 ⟨pc, b :: a :: stack, mem⟩
      ⟨if r = onTrue then place else pc + 1, stack, mem⟩ := by
  subst hr
  have hbranch : directed onTrue (.ifRef same) = .ifRef (if onTrue then same else !same) := by
    cases onTrue <;> rfl
  rw [hbranch] at hat
  have hgoes : Goes prog 1 ⟨pc, b :: a :: stack, mem⟩ _ := Machine.goes_ifRef hat hplace
  have htaken : a.same b = (if onTrue then same else !same) ↔
      decide (a.same b = same) = onTrue := by
    cases onTrue <;> cases a.same b <;> cases same <;> decide
  simpa only [htaken] using hgoes

/-- The code of a comparison goes to the target if the comparison turns out as asked for. -/
theorem comparison_goes {left right operand : Ty} (h : Compares rel left right operand)
    {a b : Datum} (ha : a.Fits left) (hb : b.Fits right) (hr : relate? rel a b = some r)
    (hat : Code.At prog pc ((comparison rel (some operand)).1 ++
      [.jump (directed onTrue (comparison rel (some operand)).2) target]))
    (hplace : prog.place? target = some place) :
    Goes prog 1 ⟨pc, b.value :: a.value :: stack, mem⟩
      ⟨if r = onTrue then place else pc + (comparison rel (some operand)).1.size + 1, stack, mem⟩ := by
  obtain ⟨hbefore, hjump, _⟩ := at_append.1 hat
  cases h with
  | ordered ht =>
    cases left with
    | int =>
      obtain ⟨m, rfl⟩ := ha.int
      obtain ⟨n, rfl⟩ := hb.int
      cases hr
      exact goes_directed_int hjump hplace (holds_ints rel m n)
    | char =>
      obtain ⟨c, rfl⟩ := ha.char
      obtain ⟨d, rfl⟩ := hb.char
      cases hr
      exact goes_directed_int hjump hplace (holds_chars rel c d)
    | long =>
      obtain ⟨m, rfl⟩ := ha.long
      obtain ⟨n, rfl⟩ := hb.long
      cases hr
      exact ((Machine.goes_lcmp hbefore.1).trans
        (goes_directed_zero hjump hplace (holds_longOrder rel m n))).weaken (by omega)
    | double =>
      obtain ⟨x, rfl⟩ := ha.double
      obtain ⟨y, rfl⟩ := hb.double
      cases hr
      have horder := holds_doubleOrder rel x y
      by_cases hless : (rel = .lt || rel = .le) = true
      · simp only [comparison, hless, if_true] at hbefore hjump horder ⊢
        exact ((Machine.goes_dcmpg hbefore.1).trans
          (goes_directed_zero hjump hplace horder)).weaken (by omega)
      · simp only [comparison, hless, if_false, Bool.false_eq_true] at hbefore hjump horder ⊢
        exact ((Machine.goes_dcmpl hbefore.1).trans
          (goes_directed_zero hjump hplace horder)).weaken (by omega)
    | _ => cases ht
  | truth hrel =>
    obtain ⟨p, rfl⟩ := ha.boolean
    obtain ⟨q, rfl⟩ := hb.boolean
    refine goes_directed_int hjump hplace ?_
    rcases hrel with rfl | rfl <;> cases hr <;> cases p <;> cases q <;> decide
  | reference hrel hleft hright =>
    have hsame : decide (a.value.same b.value = decide (rel ≠ .ne)) = r := by
      rcases ha.reference hleft with rfl | ⟨s, rfl⟩ | ⟨id, k, rfl⟩ <;>
        rcases hb.reference hright with rfl | ⟨s', rfl⟩ | ⟨id', k', rfl⟩ <;>
        rcases hrel with rfl | rfl <;> cases hr <;>
        simp [Datum.value, Value.same, Bool.beq_eq_decide_eq]
    exact goes_directed_ref _ hjump hplace hsame

end Comparisons

end Jminus.Checked.Meaning
