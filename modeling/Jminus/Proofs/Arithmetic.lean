import Jminus.Proofs.Steps
import Mathlib

/-!
Arithmetic at the limits of ints and longs.

Ints and longs are the two `Word`s of the machine, and what is shown of them is one statement. It
compares each result with that of whole numbers: what does not fit is wrapped, a quotient and a
remainder belong together, and of the count of a shift only its remainder by the width matters.
-/
namespace Jminus

open Arithmetic Machine

structure Word (α : Type) where
  bits : Nat
  kind : Num
  width : Width
  toInt : α → Int
  operand : α → Value
  compute : Opcode → α → α → Except Fault α
  /-- The count of a shift is an int, however wide the number is. -/
  shift : Opcode → α → Int32 → Except Fault α

namespace Word

def ints : Word Int32 := ⟨32, .int, .int, Int32.toInt, .int, ofInts, ofInts⟩

def longs : Word Int64 := ⟨64, .long, .long, Int64.toInt, .long, ofLongs, ofShift⟩

variable {α : Type} (W : Word α)

def wrap (z : Int) : Int := z.bmod (2 ^ W.bits)

/-- How far a shift with this count goes. -/
def distance (count : Int32) : Nat := (count.toInt % W.bits).toNat

def Computes (op : ArithOp) (a b : α) (z : Int) : Prop :=
  ∃ r, W.compute (.arith W.kind op) a b = .ok r ∧ W.toInt r = z

/-- Likewise, of a number and a count. -/
def Moves (op : ShiftOp) (a : α) (count : Int32) (z : Int) : Prop :=
  ∃ r, W.shift (.shift W.width op) a count = .ok r ∧ W.toInt r = z

/-- A quotient and a remainder that belong to a dividend and a divisor. -/
structure Divided (a b q r : Int) : Prop where
  modEq : q * b + r ≡ a [ZMOD 2 ^ W.bits]
  small : |r| < |b|
  sign : r = 0 ∨ r.sign = a.sign

/-- The arithmetic of a word, and what the machine makes of it. -/
structure Exact : Prop where
  add (a b : α) : W.Computes .add a b (W.wrap (W.toInt a + W.toInt b))
  sub (a b : α) : W.Computes .sub a b (W.wrap (W.toInt a - W.toInt b))
  mul (a b : α) : W.Computes .mul a b (W.wrap (W.toInt a * W.toInt b))
  divide (a b : α) (hb : W.toInt b ≠ 0) : ∃ q r, W.Computes .div a b q ∧ W.Computes .rem a b r ∧
    W.Divided (W.toInt a) (W.toInt b) q r
  shl (a : α) (count : Int32) : W.Moves .shl a count (W.wrap (W.toInt a * 2 ^ W.distance count))
  shr (a : α) (count : Int32) : W.Moves .shr a count (W.toInt a / 2 ^ W.distance count)
  ushr (a : α) (count : Int32) :
    W.Moves .ushr a count (W.wrap (W.toInt a % 2 ^ W.bits / 2 ^ W.distance count))
  /-- A divisor that is zero does not reach the division. -/
  thrown (op : ArithOp) (hop : op = .div ∨ op = .rem) (a b : α) (hb : W.toInt b = 0)
    (code : Listing) (pc : Nat) (h : (Code.op (.arith W.kind op)).At code pc) (stack : List Value)
    (mem : Memory) :
    Ticks code ⟨pc, W.operand b :: W.operand a :: stack, mem⟩
      (some ⟨.made mem.made, .arithmeticException⟩)
      ⟨pc + 1, stack, { mem with made := mem.made + 1 }⟩
  computed (op : ArithOp) (a b r : α) (hr : W.compute (.arith W.kind op) a b = .ok r)
    (code : Listing) (pc : Nat) (h : (Code.op (.arith W.kind op)).At code pc) (stack : List Value)
    (mem : Memory) :
    Ticks code ⟨pc, W.operand b :: W.operand a :: stack, mem⟩ none
      ⟨pc + 1, W.operand r :: stack, mem⟩
  moved (op : ShiftOp) (a : α) (count : Int32) (r : α)
    (hr : W.shift (.shift W.width op) a count = .ok r) (code : Listing) (pc : Nat)
    (h : (Code.op (.shift W.width op)).At code pc) (stack : List Value) (mem : Memory) :
    Ticks code ⟨pc, .int count :: W.operand a :: stack, mem⟩ none
      ⟨pc + 1, W.operand r :: stack, mem⟩

end Word

/-- Division rounds to zero, and what is left has the sign of the dividend. -/
theorem Word.divided_tdiv {α : Type} (W : Word α) {a b : Int} (hb : b ≠ 0) :
    W.Divided a b (W.wrap (a.tdiv b)) (a.tmod b) where
  modEq := by
    have hwrap : W.wrap (a.tdiv b) ≡ a.tdiv b [ZMOD 2 ^ W.bits] := by
      have h := Int.bmod_emod (x := a.tdiv b) (m := 2 ^ W.bits)
      rwa [Nat.cast_pow, Nat.cast_ofNat] at h
    have h := (hwrap.mul_right b).add_right (a.tmod b)
    rwa [mul_comm (a.tdiv b), add_comm (b * _), Int.tmod_add_mul_tdiv] at h
  small := by
    rw [Int.abs_eq_natAbs, Int.abs_eq_natAbs, Int.natAbs_tmod]
    exact_mod_cast Nat.mod_lt _ (Int.natAbs_pos.mpr hb)
  sign := by
    have hsign := Int.sign_tmod a b
    split at hsign
    · exact .inl (Int.sign_eq_zero_iff_zero.mp hsign)
    · exact .inr hsign

section Shifts

variable {w : Nat} (x : BitVec w) (n : Nat)

def shifted : ShiftOp → BitVec w
  | .shl => x <<< n
  | .shr => x.sshiftRight n
  | .ushr => x >>> n

/-- A shift to the left multiplies by a power of two. -/
theorem toInt_shl : (shifted x n .shl).toInt = (x.toInt * 2 ^ n).bmod (2 ^ w) := by
  rw [shifted, BitVec.toInt_shiftLeft, Nat.shiftLeft_eq, BitVec.toInt_eq_toNat_bmod,
    Int.bmod_mul_bmod]
  push_cast
  rfl

/-- A shift to the right divides by one and rounds down. -/
theorem toInt_shr : (shifted x n .shr).toInt = x.toInt / 2 ^ n := by
  rw [shifted, BitVec.toInt_sshiftRight, Int.shiftRight_eq_div_pow]
  push_cast
  rfl

/-- The other shift to the right does so with the bits as a number that is not negative. -/
theorem toInt_ushr : (shifted x n .ushr).toInt = (x.toInt % 2 ^ w / 2 ^ n).bmod (2 ^ w) := by
  have hnat : x.toInt % 2 ^ w = (x.toNat : Int) := by
    have h := Int.bmod_emod (x := (x.toNat : Int)) (m := 2 ^ w)
    rw [← BitVec.toInt_eq_toNat_bmod, ← Int.natCast_mod, Nat.mod_eq_of_lt x.isLt] at h
    exact_mod_cast h
  rw [hnat, shifted, BitVec.toInt_eq_toNat_bmod, BitVec.toNat_ushiftRight,
    Nat.shiftRight_eq_div_pow]
  push_cast
  rfl

/-- The low bits of a count are its remainder, below zero as well. -/
theorem toNat_mask (b : Int32) (hw : w = 32 ∨ w = 64) :
    (b.toBitVec &&& BitVec.ofNat 32 (w - 1)).toNat = (b.toInt % w).toNat := by
  have hnat : (b.toBitVec &&& BitVec.ofNat 32 (w - 1)).toNat = b.toBitVec.toNat % w := by
    rcases hw with rfl | rfl
    · exact (BitVec.toNat_and ..).trans (Nat.and_two_pow_sub_one_eq_mod _ 5)
    · exact (BitVec.toNat_and ..).trans (Nat.and_two_pow_sub_one_eq_mod _ 6)
  have hint : b.toInt = b.toBitVec.toNat ∨ b.toInt = b.toBitVec.toNat - 4294967296 := by
    have hcond := BitVec.toInt_eq_toNat_cond b.toBitVec
    rw [Int32.toInt_toBitVec] at hcond
    split at hcond
    · exact .inl hcond
    · exact .inr (by simpa using hcond)
  rw [hnat]
  rcases hw with rfl | rfl <;> omega

theorem distance_lt (b : Int32) (hw : w = 32 ∨ w = 64) : (b.toInt % w).toNat < w := by
  rcases hw with rfl | rfl <;> omega

/-- The last bits of a count are its remainder. -/
theorem mask_eq (b : Int32) (hw : w = 32 ∨ w = 64) :
    b.toBitVec &&& BitVec.ofNat 32 (w - 1) = BitVec.ofNat 32 (b.toInt % w).toNat := by
  apply BitVec.eq_of_toNat_eq
  rw [toNat_mask b hw, BitVec.toNat_ofNat, Nat.mod_eq_of_lt]
  have := distance_lt b hw
  omega

theorem smod_int : ∀ i : Fin 32, ((BitVec.ofNat 32 i).smod 32#32).toNat = i := by decide

theorem umod_int : ∀ i : Fin 32, (BitVec.ofNat 32 i % 32#32).toNat = i := by decide

theorem smod_long : ∀ i : Fin 64, (((BitVec.ofNat 32 i).signExtend 64).smod 64#64).toNat = i := by
  decide

theorem umod_long : ∀ i : Fin 64, ((BitVec.ofNat 32 i).signExtend 64 % 64#64).toNat = i := by
  decide

/-- The count of an int is brought below its width once. -/
theorem intShift_count (b : Int32) :
    ((b &&& 31).toBitVec.smod 32).toNat = (b.toInt % 32).toNat ∧
      ((b &&& 31).toBitVec % 32).toNat = (b.toInt % 32).toNat := by
  have hmask : (b &&& 31).toBitVec = BitVec.ofNat 32 (b.toInt % 32).toNat := mask_eq b (.inl rfl)
  have hlt : (b.toInt % 32).toNat < 32 := distance_lt b (.inl rfl)
  rw [hmask]
  exact ⟨smod_int ⟨_, hlt⟩, umod_int ⟨_, hlt⟩⟩

theorem longShift_count (b : Int32) :
    ((b &&& 63).toInt64.toBitVec.smod 64).toNat = (b.toInt % 64).toNat ∧
      ((b &&& 63).toInt64.toBitVec % 64).toNat = (b.toInt % 64).toNat := by
  have hmask : (b &&& 63).toBitVec = BitVec.ofNat 32 (b.toInt % 64).toNat := mask_eq b (.inr rfl)
  have hlt : (b.toInt % 64).toNat < 64 := distance_lt b (.inr rfl)
  rw [Int32.toBitVec_toInt64, hmask]
  exact ⟨smod_long ⟨_, hlt⟩, umod_long ⟨_, hlt⟩⟩

/-- An int is shifted over the distance. -/
theorem toInt_intShift (op : ShiftOp) (a b : Int32) :
    (intShift op a b).toInt = (shifted a.toBitVec (b.toInt % 32).toNat op).toInt := by
  obtain ⟨hsmod, humod⟩ := intShift_count b
  rw [← Int32.toInt_toBitVec]
  cases op with
  | shl => rw [intShift, Int32.toBitVec_shiftLeft, BitVec.shiftLeft_eq', hsmod, shifted]
  | shr => rw [intShift, Int32.toBitVec_shiftRight, BitVec.sshiftRight_eq', hsmod, shifted]
  | ushr =>
    rw [intShift, UInt32.toBitVec_toInt32, UInt32.toBitVec_shiftRight, Int32.toBitVec_toUInt32,
      Int32.toBitVec_toUInt32, BitVec.ushiftRight_eq', humod, shifted]

theorem toInt_longShift (op : ShiftOp) (a : Int64) (b : Int32) :
    (longShift op a b).toInt = (shifted a.toBitVec (b.toInt % 64).toNat op).toInt := by
  obtain ⟨hsmod, humod⟩ := longShift_count b
  rw [← Int64.toInt_toBitVec]
  cases op with
  | shl => rw [longShift, Int64.toBitVec_shiftLeft, BitVec.shiftLeft_eq', hsmod, shifted]
  | shr => rw [longShift, Int64.toBitVec_shiftRight, BitVec.sshiftRight_eq', hsmod, shifted]
  | ushr =>
    rw [longShift, UInt64.toBitVec_toInt64, UInt64.toBitVec_shiftRight, Int64.toBitVec_toUInt64,
      Int64.toBitVec_toUInt64, BitVec.ushiftRight_eq', humod, shifted]

end Shifts

namespace Word

theorem ints_exact : ints.Exact where
  add a b := ⟨_, rfl, Int32.toInt_add a b⟩
  sub a b := ⟨_, rfl, Int32.toInt_sub a b⟩
  mul a b := ⟨_, rfl, Int32.toInt_mul a b⟩
  divide a b hb := by
    have hzero : b ≠ 0 := fun h => hb (by rw [h]; rfl)
    exact ⟨_, _, ⟨a / b, if_neg hzero, Int32.toInt_div a b⟩,
      ⟨a % b, if_neg hzero, Int32.toInt_mod a b⟩, divided_tdiv _ hb⟩
  shl a b := ⟨_, rfl, (toInt_intShift .shl a b).trans (toInt_shl ..)⟩
  shr a b := ⟨_, rfl, (toInt_intShift .shr a b).trans (toInt_shr ..)⟩
  ushr a b := ⟨_, rfl, (toInt_intShift .ushr a b).trans (toInt_ushr ..)⟩
  thrown op hop a b hb code pc h stack mem := by
    obtain rfl : b = 0 := Int32.toInt_inj.1 hb
    exact ticks_zero_int h hop
  computed op a b r hr code pc h stack mem := ticks_arith_int h hr
  moved op a count r hr code pc h stack mem := by
    obtain rfl := Except.ok.inj hr
    exact ticks_shift_int h

theorem longs_exact : longs.Exact where
  add a b := ⟨_, rfl, Int64.toInt_add a b⟩
  sub a b := ⟨_, rfl, Int64.toInt_sub a b⟩
  mul a b := ⟨_, rfl, Int64.toInt_mul a b⟩
  divide a b hb := by
    have hzero : b ≠ 0 := fun h => hb (by rw [h]; rfl)
    exact ⟨_, _, ⟨a / b, if_neg hzero, Int64.toInt_div a b⟩,
      ⟨a % b, if_neg hzero, Int64.toInt_mod a b⟩, divided_tdiv _ hb⟩
  shl a b := ⟨_, rfl, (toInt_longShift .shl a b).trans (toInt_shl ..)⟩
  shr a b := ⟨_, rfl, (toInt_longShift .shr a b).trans (toInt_shr ..)⟩
  ushr a b := ⟨_, rfl, (toInt_longShift .ushr a b).trans (toInt_ushr ..)⟩
  thrown op hop a b hb code pc h stack mem := by
    obtain rfl : b = 0 := Int64.toInt_inj.1 hb
    exact ticks_zero_long h hop
  computed op a b r hr code pc h stack mem := ticks_arith_long h hr
  moved op a count r hr code pc h stack mem := by
    obtain rfl := Except.ok.inj hr
    exact ticks_shift_long h

/-- Ints and longs at their limits. -/
theorem arithmetic_exact : ints.Exact ∧ longs.Exact := ⟨ints_exact, longs_exact⟩

end Word

end Jminus
