import Jminus.Proofs.Descriptor
import Jminus.Proofs.Height
import Jminus.Proofs.Meaning.Typed
import Mathlib

/-!
Heights for the code of sound expressions.

Heights for a piece of code are a list for its labels, which have consecutive numbers, and a list for
its instructions, which have consecutive places. Pieces that follow each other have their lists one
behind the other. The value of an expression adds one to the height, unless the expression is void;
a branch on it leaves the height as it is.
-/
namespace Jminus

def Ty.width (t : Ty) : Nat := if t = .void then 0 else 1

theorem Ty.width_eq_one {t : Ty} (h : t ≠ .void) : t.width = 1 := if_neg h

namespace Checked

open Code

/-- A function has the given values from a number on. -/
def Takes (f : Nat → Nat) (n : Nat) (xs : List Nat) : Prop := ∀ i x, xs[i]? = some x → f (n + i) = x

theorem takes_cons {f : Nat → Nat} {n x : Nat} {xs : List Nat} (h : Takes f n (x :: xs)) :
    f n = x ∧ Takes f (n + 1) xs := by
  refine ⟨h 0 x rfl, ?_⟩
  intro i y hi
  rw [Nat.add_assoc, Nat.add_comm 1]
  exact h (i + 1) y hi

/-- Values for two lists, one behind the other. -/
theorem takes_append {f : Nat → Nat} {n : Nat} {xs ys : List Nat} (h : Takes f n (xs ++ ys)) :
    Takes f n xs ∧ Takes f (n + xs.length) ys := by
  induction xs generalizing n with
  | nil =>
    refine ⟨?_, h⟩
    intro i x hi
    cases hi
  | cons x xs ih =>
    obtain ⟨hx, hrest⟩ := takes_cons h
    obtain ⟨hxs, hys⟩ := ih hrest
    rw [Nat.add_assoc, Nat.add_comm 1] at hys
    refine ⟨?_, hys⟩
    intro i y hi
    cases i with
    | zero =>
      cases hi
      exact hx
    | succ i =>
      rw [← Nat.succ_add_eq_add_succ]
      exact hxs i y hi

theorem exists_takes (n : Nat) (xs : List Nat) : ∃ f, Takes f n xs := by
  refine ⟨fun k => xs.getD (k - n) 0, ?_⟩
  intro i x hi
  dsimp only
  rw [Nat.add_sub_cancel_left, List.getD_eq_getElem?_getD, hi]
  rfl

/-- Code at `lo` with labels above `n` and up to `n'` that can be given heights, from `h` where it
starts to `h'` behind it. The heights of labels from outside are known by `P`, and those of its places
are as `Q` says. -/
def Levels (lo n n' : Nat) (P : (Label → Nat) → Prop) (Q : (Nat → Nat) → Prop) (h h' : Nat)
    (code : Code) : Prop :=
  ∃ ls hs : List Nat, n' = n + ls.length ∧ code.size = hs.length ∧
    ∀ L H, Takes (fun k => L (.nth k)) (n + 1) ls → Takes H lo hs → P L →
      H (lo + code.size) = h' → H lo = h ∧ code.Level L H lo ∧ Q H

abbrev Even (lo n n' : Nat) (P : (Label → Nat) → Prop) (h h' : Nat) (code : Code) : Prop :=
  Levels lo n n' P (fun _ => True) h h' code

section Levels

variable {lo n m n' h k h' : Nat} {P P' : (Label → Nat) → Prop} {Q Q' : (Nat → Nat) → Prop}
  {a b code : Code}

/-- Less may be known of labels, and more asked of heights that follow. -/
theorem Levels.imp (hc : Levels lo n n' P Q h h' code) (hP : ∀ L, P' L → P L)
    (hQ : ∀ H, H lo = h → H (lo + code.size) = h' → Q H → Q' H) : Levels lo n n' P' Q' h h' code := by
  obtain ⟨ls, hs, hls, hhs, hlevel⟩ := hc
  refine ⟨ls, hs, hls, hhs, ?_⟩
  intro L H hL hH hp hend
  obtain ⟨hstart, hcode, hq⟩ := hlevel L H hL hH (hP L hp) hend
  exact ⟨hstart, hcode, hQ H hstart hend hq⟩

theorem Levels.mono (hc : Levels lo n n' P Q h h' code)
    (hQ : ∀ H, H lo = h → H (lo + code.size) = h' → Q H → Q' H) : Levels lo n n' P Q' h h' code :=
  hc.imp (fun _ hp => hp) hQ

/-- Code with heights behind code with heights. -/
theorem Levels.append (ha : Levels lo n m P Q h k a) (hb : Levels (lo + a.size) m n' P Q' k h' b) :
    Levels lo n n' P (fun H => Q H ∧ Q' H) h h' (a ++ b) := by
  obtain ⟨ls, hs, rfl, hhs, hlevel⟩ := ha
  obtain ⟨ls', hs', rfl, hhs', hlevel'⟩ := hb
  refine ⟨ls ++ ls', hs ++ hs', ?_, ?_, ?_⟩
  · rw [List.length_append, Nat.add_assoc]
  · rw [size_append, List.length_append, hhs, hhs']
  · intro L H hL hH hp hend
    obtain ⟨hL, hL'⟩ := takes_append hL
    obtain ⟨hH, hH'⟩ := takes_append hH
    rw [Nat.add_right_comm] at hL'
    rw [← hhs] at hH'
    rw [size_append, ← Nat.add_assoc] at hend
    -- the height between the two is that where the second one starts
    obtain ⟨hmid, hcode', hq'⟩ := hlevel' L H hL' hH' hp hend
    obtain ⟨hstart, hcode, hq⟩ := hlevel L H hL hH hp hmid
    exact ⟨hstart, level_append.2 ⟨hcode, hcode'⟩, hq, hq'⟩

/-- A new label can be given any height. -/
theorem Levels.fresh (k : Nat)
    (hc : Levels lo (n + 1) n' (fun L => L (.nth (n + 1)) = k ∧ P L) Q h h' code) :
    Levels lo n n' P Q h h' code := by
  obtain ⟨ls, hs, rfl, hhs, hlevel⟩ := hc
  refine ⟨k :: ls, hs, ?_, hhs, ?_⟩
  · rw [List.length_cons]
    omega
  · intro L H hL hH hp hend
    obtain ⟨hk, hL⟩ := takes_cons hL
    exact hlevel L H hL hH ⟨hk, hp⟩ hend

/-- So can labels that are kept for later. -/
theorem Levels.reserve (k c : Nat)
    (hc : Levels lo (n + c) n' (fun L => (∀ l, Between n (n + c) l → L l = k) ∧ P L) Q h h' code) :
    Levels lo n n' P Q h h' code := by
  induction c generalizing n P with
  | zero =>
    refine hc.imp (fun L hp => ⟨fun l hl => ?_, hp⟩) fun H _ _ hq => hq
    exact absurd (hl.1.trans_le hl.2) (lt_irrefl _)
  | succ c ih =>
    apply Levels.fresh k
    apply ih
    rw [Nat.add_right_comm]
    refine hc.imp (fun L hp => ⟨fun l hl => ?_, hp.2.2⟩) fun H _ _ hq => hq
    by_cases hfirst : l = .nth (n + 1)
    · rw [hfirst]
      exact hp.2.1
    · apply hp.1 l
      obtain ⟨number⟩ := l
      simp only [Between, Label.nth, Label.mk.injEq] at hl hfirst ⊢
      omega

namespace Even

theorem of_levels (hc : Levels lo n n' P Q h h' code) : Even lo n n' P h h' code :=
  hc.mono fun _ _ _ _ => trivial

theorem append (ha : Even lo n m P h k a) (hb : Even (lo + a.size) m n' P k h' b) :
    Even lo n n' P h h' (a ++ b) :=
  of_levels (Levels.append ha hb)

theorem cons {i : Item} (hi : Even lo n m P h k [i]) (hb : Even (lo + i.size) m n' P k h' b) :
    Even lo n n' P h h' (i :: b) :=
  hi.append hb

theorem nil : Even lo n n P h h [] := by
  refine ⟨[], [], rfl, rfl, ?_⟩
  intro L H _ _ _ hend
  exact ⟨hend, trivial, trivial⟩

theorem label {l : Label} (hl : ∀ L, P L → L l = h) : Even lo n n P h h [.label l] := by
  refine ⟨[], [], rfl, rfl, ?_⟩
  intro L H _ _ hp hend
  have hstart : H lo = h := hend
  refine ⟨hstart, ⟨⟨?_, ?_, ?_⟩, trivial⟩, trivial⟩
  · rintro l' ⟨⟩
    rw [hl L hp, hstart]
  · rintro k ⟨⟩
  · rintro ins ⟨⟩

theorem handler {k : Handler} (hk : ∀ L, P L → L k.handler = 1) :
    Even lo n n P h h [.handler k] := by
  refine ⟨[], [], rfl, rfl, ?_⟩
  intro L H _ _ hp hend
  refine ⟨hend, ⟨⟨?_, ?_, ?_⟩, trivial⟩, trivial⟩
  · rintro l ⟨⟩
  · rintro k' ⟨⟩
    exact hk L hp
  · rintro ins ⟨⟩

/-- An instruction alone, with the height that it takes and leaves. -/
theorem instruction (k : Nat) {i : Item} {ins : Instruction} (hi : i.instruction? = some ins)
    (htakes : h = k + ins.traffic.1) (hleaves : ins.fallsThrough = true → h' = k + ins.traffic.2)
    (hjumps : ∀ L, P L → ∀ l ∈ ins.labels, L l = k + ins.traffic.2) : Even lo n n P h h' [i] := by
  have hsize : i.size = 1 := by
    rw [Item.size_eq, hi]
    rfl
  refine ⟨[], [h], rfl, ?_, ?_⟩
  · rw [size_cons, hsize]
    rfl
  · intro L H _ hH hp hend
    have hstart : H lo = h := hH 0 h rfl
    rw [size_cons, hsize] at hend
    refine ⟨hstart, ⟨⟨?_, ?_, ?_⟩, trivial⟩, trivial⟩
    · intro l hl
      cases i with
      | label => cases hi
      | _ => cases hl
    · intro k hk
      cases i with
      | handler => cases hi
      | _ => cases hk
    · intro ins' hins'
      cases hi.symm.trans hins'
      exact ⟨k, hstart.trans htakes, fun hfalls => hend.trans (hleaves hfalls), hjumps L hp⟩

/-- An instruction that does not jump. -/
theorem plain (k : Nat) {o : Opcode} {arg : Operand} (hins : Instruction.simple o arg = .plain o arg)
    (htakes : h = k + (Instruction.plain o arg).traffic.1)
    (hleaves : (Instruction.plain o arg).fallsThrough = true →
      h' = k + (Instruction.plain o arg).traffic.2) : Even lo n n P h h' [.plain o arg] := by
  refine instruction k (congrArg some hins) htakes hleaves ?_
  intro L _ l hl
  cases hl

theorem goto {l : Label} (hl : ∀ L, P L → L l = h) : Even lo n n P h h' [goto l] := by
  refine instruction h rfl rfl (fun hfalls => by cases hfalls) ?_
  intro L hp l' hl'
  cases List.mem_singleton.1 hl'
  exact hl L hp

/-- A branch that may be taken or not. -/
theorem branch (b : Branch) {l : Label} (hl : ∀ L, P L → L l = h) :
    Even lo n n P (h + b.taken) h [.jump b l] := by
  refine instruction h rfl rfl (fun _ => rfl) ?_
  intro L hp l' hl'
  cases List.mem_singleton.1 hl'
  exact hl L hp

theorem push (v : Value) : Even lo n n P h (h + 1) [ldc v] := plain h rfl rfl fun _ => rfl

theorem load (cell : Cell) (slot : Nat) : Even lo n n P h (h + 1) [load cell slot] :=
  plain h rfl rfl fun _ => rfl

theorem store (cell : Cell) (slot : Nat) : Even lo n n P (h + 1) h [store cell slot] :=
  plain h rfl rfl fun _ => rfl

theorem pop : Even lo n n P (h + 1) h [op .pop] := plain h rfl rfl fun _ => rfl

theorem dup : Even lo n n P (h + 1) (h + 2) [op .dup] := plain h rfl rfl fun _ => rfl

end Even

end Levels

def Leaves (w : Nat) (g : Gen Code) : Prop :=
  ∀ ⦃n code n'⦄, g n = .ok (code, n') → ∀ P lo h, Even lo n n' P h (h + w) code

def Tests (g : Label → Bool → Gen Code) : Prop :=
  ∀ target onTrue ⦃n code n'⦄, g target onTrue n = .ok (code, n') →
    ∀ P lo h, (∀ L, P L → L target = h) → Even lo n n' P h h code

/-- Both forms of an expression that is `w` operands. -/
structure Forms.Even (w : Nat) (f : Forms) : Prop where
  value : Leaves w f.value
  cond : w = 1 → Tests f.cond

/-- A value that is tested is popped. -/
theorem Forms.Even.ofValue {w : Nat} {value : Gen Code} (hv : Leaves w value) :
    (Forms.ofValue value).Even w := by
  refine ⟨hv, ?_⟩
  rintro rfl target onTrue n code n' hcode P lo h htarget
  obtain ⟨c, hc, rfl⟩ := test_ok.1 hcode
  exact (hv hc P lo h).append (.branch (.ifZero _) htarget)

/-- A condition that is wanted as a value is pushed at both ends. -/
theorem Forms.Even.ofCond {cond : Label → Bool → Gen Code} (hc : Tests cond) :
    (Forms.ofCond cond).Even 1 := by
  refine ⟨?_, fun _ => hc⟩
  intro n code n' hcode P lo h
  obtain ⟨test, htest, rfl⟩ := materialize_ok.1 hcode
  apply Levels.fresh h
  apply Levels.fresh (h + 1)
  refine (hc _ _ htest _ lo h fun L hp => hp.2.1).append ?_
  -- one way out is taken with the value on the stack, the other one starts without it
  exact (Checked.Even.push _).append <| (Checked.Even.goto fun L hp => hp.1).append <|
    (Checked.Even.label fun L hp => hp.2.1).append <| (Checked.Even.push _).append <|
      .label fun L hp => hp.1

section Expressions

variable {lo n h : Nat} {P : (Label → Nat) → Prop} {vs : List Local}

/-- A call takes its arguments and leaves its result. -/
theorem call_even {m : Method} {params : List Ty} {result : Ty}
    (hm : m.types = .ok (params, result)) :
    Even lo n n P (h + params.length) (h + result.width) [call m] := by
  have htraffic : (Instruction.plain .invokeStatic (.const (.method (.constant 0) m))).traffic =
      (params.length, result.width) := by
    simp only [Instruction.traffic, Operand.traffic, hm]
    rfl
  exact .plain h rfl (by rw [htraffic]) fun _ => by rw [htraffic]

/-- An operator takes two operands and leaves one. -/
theorem operator_even {o : Operator} {left right : Ty} {i : Item}
    (hi : operatorItem? o left right = some i) : Even lo n n P (h + 2) (h + 1) [i] := by
  unfold operatorItem? at hi
  split at hi
  · cases hi
    exact call_even ((Method.concat left right).types_eq.trans (Method.parseDescriptor_describe _ _))
  · obtain ⟨o', ho', rfl⟩ := Option.map_eq_some_iff.1 hi
    unfold opcode? at ho'
    split at ho' <;> cases ho' <;> exact .plain h rfl rfl fun _ => rfl

theorem constant_even (value : Option Constant) : Even lo n n P h (h + 1) [constant value] := by
  unfold constant
  split <;> exact .plain h rfl rfl fun _ => rfl

theorem one_even (t : Ty) : Even lo n n P h (h + 1) [one t] := by
  unfold one
  split <;> exact .push _

theorem taken_negated (b : Branch) : (b.negated?.getD b).taken = b.taken := by
  cases b <;> rfl

/-- Two operands are compared, and gone behind the branch. -/
theorem comparison_even (rel : Relation) (t : Option Ty) (onTrue : Bool) {target : Label}
    (htarget : ∀ L, P L → L target = h) :
    Even lo n n P (h + 2) h ((comparison rel t).1 ++ [.jump (if onTrue then (comparison rel t).2
      else (comparison rel t).2.negated?.getD (comparison rel t).2) target]) := by
  have hbranch : ∀ {lo : Nat} (b : Branch), Even lo n n P (h + b.taken) h
      [.jump (if onTrue then b else b.negated?.getD b) target] := by
    intro lo b
    have htaken : (if onTrue then b else b.negated?.getD b).taken = b.taken := by
      cases onTrue
      · exact taken_negated b
      · rfl
    rw [← htaken]
    exact .branch _ htarget
  have hfirst : ∀ {lo : Nat} {o : Opcode}, o = .lcmp ∨ o = .dcmpl ∨ o = .dcmpg →
      Even lo n n P (h + 2) (h + 1) [op o] := by
    rintro lo o (rfl | rfl | rfl) <;> exact .plain h rfl rfl fun _ => rfl
  unfold comparison
  split
  · exact (hfirst (.inl rfl)).append (hbranch _)
  · split
    · exact (hfirst (.inr (.inr rfl))).append (hbranch _)
    · exact (hfirst (.inr (.inl rfl))).append (hbranch _)
  · split
    · exact hbranch (.ifInt rel)
    · exact hbranch (.ifRef _)
  · exact hbranch (.ifRef _)

variable {t s : Ty}

theorem ne_void_of_storable (ht : t.isStorable = true) : t ≠ .void := by
  rintro rfl
  cases ht

theorem width_typeOf {v : Local} (hv : v.type.isStorable = true) : (typeOf (some v)).width = 1 :=
  Ty.width_eq_one (ne_void_of_storable hv)

theorem ne_void_of_numeric (ht : t.isNumeric = true) : t ≠ .void := by
  rintro rfl
  cases ht

theorem ne_void_of_assignable (hs : s.assignableTo t = true) (ht : t.isStorable = true) :
    s ≠ .void := by
  rintro rfl
  cases t with
  | void | null | any => cases ht
  | _ => simp [Ty.assignableTo] at hs

theorem Constant.Fits.ne_void {value : Option Constant} (hfits : Constant.Fits t value) :
    t ≠ .void := by
  rintro rfl
  cases value <;> exact hfits

/-- Both parts of a conditional expression are void, or neither is. -/
theorem width_of_conditional {u : Ty} (hs : s ≠ .any) (ht : t ≠ .any)
    (hu : Ty.conditional s t = some u) : s.width = u.width ∧ t.width = u.width := by
  have hassign : ∀ {s t : Ty}, s ≠ .any → t ≠ .any → s.assignableTo t = true → s.width = t.width := by
    intro s t hs ht hst
    cases s <;> cases t <;> first | rfl | exact absurd rfl hs | exact absurd rfl ht | cases hst
  unfold Ty.conditional at hu
  split at hu
  · rename_i hts
    cases hu
    rw [Bool.and_eq_true] at hts
    exact ⟨rfl, hassign ht hs hts.1⟩
  · split at hu
    · rename_i hst
      cases hu
      exact ⟨hassign hs ht hst, rfl⟩
    · cases hu

theorem Forms.Even.one {w : Nat} {f : Forms} (hf : f.Even w) (hw : w = 1) : f.Even 1 := hw ▸ hf

mutual

/-- A sound expression leaves its value and nothing else. -/
theorem forms_even (hvs : Storable vs) : ∀ {e : Expr}, e.Sound vs → (forms e).Even e.type.width
  | .literal type value, hfits => by
    rw [Expr.type, Ty.width_eq_one (Constant.Fits.ne_void hfits)]
    have hpush : Leaves 1 (pure [constant value]) := by
      intro n code n' hcode P lo h
      cases pure_ok.1 hcode
      exact constant_even value
    unfold forms
    split
    · refine ⟨hpush, ?_⟩
      intro _ target onTrue n code n' hcode P lo h htarget
      cases pure_ok.1 hcode
      split
      · exact .goto htarget
      · exact .nil
    · exact .ofValue hpush
  | .var _, ⟨x, hx, rfl⟩ => by
    rw [Expr.type, width_typeOf (hvs x hx)]
    apply Forms.Even.ofValue
    intro n code n' hcode P lo h
    obtain ⟨i, m, hi, hcode⟩ := bind_ok.1 hcode
    obtain ⟨y, hy, rfl, rfl⟩ := loadLocal_ok.1 hi
    cases pure_ok.1 hcode
    exact .load _ _
  | .assign .plain _ value, ⟨hv, x, hx, rfl, hassign⟩ => by
    have hstorable := hvs x hx
    rw [Expr.type, width_typeOf hstorable]
    have hone := (forms_even hvs hv).one (Ty.width_eq_one (ne_void_of_assignable hassign hstorable))
    apply Forms.Even.ofValue
    intro n code n' hcode P lo h
    obtain ⟨c, hc, y, hy, rfl⟩ := value_assign_ok.1 hcode
    exact (hone.value hc P lo h).append (Even.dup.append (.store _ _))
  | .assign (.compound o) _ value, ⟨hv, x, hx, rfl, result, operand, hbinary, _⟩ => by
    have hstorable := hvs x hx
    have hcomputes := computes_of_binary (ne_any_of_storable hstorable) (hv.type_ne_any hvs) hbinary
    rw [Expr.type, width_typeOf hstorable]
    have hone := (forms_even hvs hv).one (Ty.width_eq_one hcomputes.ne_void.2.1)
    apply Forms.Even.ofValue
    intro n code n' hcode P lo h
    obtain ⟨y, hy, c, hc, i, hi, rfl⟩ := value_compound_ok.1 hcode
    exact ((Even.load _ _).append (hone.value hc P _ (h + 1))).append
      ((operator_even hi).append (Even.dup.append (.store _ _)))
  | .binary (.compute o) type operandType left right, ⟨hl, hr, operand, _, hbinary⟩ => by
    have hcomputes := computes_of_binary (hl.type_ne_any hvs) (hr.type_ne_any hvs) hbinary
    obtain ⟨hleft, hright, htype⟩ := hcomputes.ne_void
    rw [Expr.type, Ty.width_eq_one htype]
    have hfirst := (forms_even hvs hl).one (Ty.width_eq_one hleft)
    have hsecond := (forms_even hvs hr).one (Ty.width_eq_one hright)
    apply Forms.Even.ofValue
    intro n code n' hcode P lo h
    obtain ⟨a, m, ha, b, hb, i, hi, rfl⟩ := (value_compute_ok type operandType).1 hcode
    exact ((hfirst.value ha P lo h).append (hsecond.value hb P _ (h + 1))).append (operator_even hi)
  | .binary (.compare rel) type operandType left right, ⟨hl, hr, operand, _, hbinary⟩ => by
    obtain ⟨hcompares, rfl⟩ := compares_of_binary (hl.type_ne_any hvs) (hr.type_ne_any hvs) hbinary
    obtain ⟨hleft, hright⟩ := hcompares.ne_void
    have hfirst := (forms_even hvs hl).one (Ty.width_eq_one hleft)
    have hsecond := (forms_even hvs hr).one (Ty.width_eq_one hright)
    apply Forms.Even.ofCond
    intro target onTrue n code n' hcode P lo h htarget
    obtain ⟨a, m, ha, b, hb, rfl⟩ := compare_ok.1 hcode
    rw [List.append_assoc]
    exact ((hfirst.value ha P lo h).append (hsecond.value hb P _ (h + 1))).append
      (comparison_even rel operandType onTrue htarget)
  | .logical o left right, ⟨hl, htl, hr, htr⟩ => by
    have hfirst := ((forms_even hvs hl).one (by rw [htl]; rfl)).cond rfl
    have hsecond := ((forms_even hvs hr).one (by rw [htr]; rfl)).cond rfl
    apply Forms.Even.ofCond
    intro target onTrue n code n' hcode P lo h htarget
    by_cases hskip : decide (o = .and) = onTrue
    · obtain ⟨a, m, ha, b, hb, rfl⟩ := (both_skip_ok hskip).1 hcode
      apply Levels.fresh h
      exact ((hfirst _ _ ha _ lo h fun L hp => hp.1).append
        (hsecond _ _ hb _ _ h fun L hp => htarget L hp.2)).append (.label fun L hp => hp.1)
    · obtain ⟨a, m, ha, b, hb, rfl⟩ := (both_join_ok hskip).1 hcode
      exact (hfirst _ _ ha P lo h htarget).append (hsecond _ _ hb P _ h htarget)
  | .unary .not type operand, ⟨hv, htype, hnot⟩ => by
    have hboolean : type = .boolean := of_decide_eq_true hnot
    have hone := (forms_even hvs hv).one (by rw [← htype, hboolean]; rfl)
    rw [Expr.type, hboolean]
    apply Forms.Even.ofCond
    intro target onTrue n code n' hcode P lo h htarget
    exact hone.cond rfl target _ hcode P lo h htarget
  | .unary .neg type operand, ⟨hv, htype, hneg⟩ => by
    have hwidth := Ty.width_eq_one (ne_void_of_numeric hneg)
    have hone := (forms_even hvs hv).one (by rw [← htype, hwidth])
    rw [Expr.type, hwidth]
    apply Forms.Even.ofValue
    intro n code n' hcode P lo h
    obtain ⟨c, hc, rfl⟩ := value_neg_ok.1 hcode
    exact (hone.value hc P lo h).append (.plain h rfl rfl fun _ => rfl)
  | .unary .complement type operand, ⟨hv, htype, hintegral⟩ => by
    have hwidth : type.width = 1 := by
      cases type <;> first | rfl | cases hintegral
    have hone := (forms_even hvs hv).one (by rw [← htype, hwidth])
    rw [Expr.type, hwidth]
    apply Forms.Even.ofValue
    intro n code n' hcode P lo h
    obtain ⟨c, hc, rfl⟩ := value_complement_ok.1 hcode
    apply (hone.value hc P lo h).append
    split
    · exact (Even.push _).append (.plain h rfl rfl fun _ => rfl)
    · exact (Even.push _).append (.plain h rfl rfl fun _ => rfl)
  | .increment o side _, ⟨x, hx, rfl, _⟩ => by
    rw [Expr.type, width_typeOf (hvs x hx)]
    apply Forms.Even.ofValue
    intro n code n' hcode P lo h
    obtain ⟨y, hy, i, hi, rfl, rfl⟩ := value_increment_ok.1 hcode
    cases side with
    | before =>
      exact (Even.load _ _).append ((one_even _).append ((operator_even hi).append
        (Even.dup.append (.store _ _))))
    | after =>
      exact (Even.load _ _).append (Even.dup.append ((one_even _).append ((operator_even hi).append
        (.store _ _))))
  | .conditional type cond thenPart elsePart, ⟨hc, hboolean, ht, he, htype⟩ => by
    obtain ⟨hthen, helse⟩ := width_of_conditional (ht.type_ne_any hvs) (he.type_ne_any hvs) htype
    have htest := ((forms_even hvs hc).one (by rw [hboolean]; rfl)).cond rfl
    have hfirst := (forms_even hvs ht).value
    have hsecond := (forms_even hvs he).value
    rw [hthen] at hfirst
    rw [helse] at hsecond
    rw [Expr.type]
    apply Forms.Even.ofValue
    intro n code n' hcode P lo h
    obtain ⟨a, m, ha, b, m', hb, c, hc, rfl⟩ := (value_conditional_ok type).1 hcode
    apply Levels.fresh h
    apply Levels.fresh (h + type.width)
    exact ((((htest _ _ ha _ lo h fun L hp => hp.2.1).append (hfirst hb _ _ h)).append
      ((Even.goto fun L hp => hp.1).append (.label fun L hp => hp.2.1))).append
        (hsecond hc _ _ h)).append (.label fun L hp => hp.1)
  | .new type, hnew => by
    have hne : type ≠ .void := by
      rintro rfl
      rcases hnew with hnew | hnew <;> cases hnew
    rw [Expr.type, Ty.width_eq_one hne]
    apply Forms.Even.ofValue
    intro n code n' hcode P lo h
    cases pure_ok.1 hcode
    exact .plain h rfl rfl fun _ => rfl
  | .call _ args, ⟨hargs, m, name, rfl, hresolve⟩ => by
    obtain ⟨rfl, hcases⟩ := Meaning.resolve_cases hresolve
    have hne : ∀ e ∈ args, e.type ≠ .void := by
      intro e he
      have hmem : e.type ∈ args.map Expr.type := List.mem_map_of_mem he
      rcases hcases with ⟨_, hnone⟩ | ⟨_, t, hone, ht⟩
      · rw [hnone] at hmem
        cases hmem
      · rw [hone] at hmem
        rwa [List.mem_singleton.1 hmem]
    apply Forms.Even.ofValue
    intro n code n' hcode P lo h
    obtain ⟨c, hc, rfl⟩ := value_call_ok.1 hcode
    have hcall : Even (lo + c.size) n' n' P (h + ((args.map Expr.type).map Ty.described).length) h
        [call (Method.printing name (args.map Expr.type))] :=
      call_even ((Method.printing _ _).types_eq.trans (Method.parseDescriptor_describe _ _))
    rw [List.length_map, List.length_map] at hcall
    exact (values_even hvs hargs hne hc P lo h).append hcall
  | .group inner, hinner => forms_even hvs (e := inner) hinner

theorem values_even (hvs : Storable vs) : ∀ {es : List Expr}, Expr.AllSound vs es →
    (∀ e ∈ es, e.type ≠ .void) → Leaves es.length (values es)
  | [], _, _ => by
    intro n code n' hcode P lo h
    cases pure_ok.1 hcode
    exact .nil
  | e :: es, ⟨he, hes⟩, hne => by
    obtain ⟨hfirst, hrest⟩ := List.forall_mem_cons.1 hne
    have hone := (forms_even hvs he).one (Ty.width_eq_one hfirst)
    intro n code n' hcode P lo h
    obtain ⟨a, m, ha, b, hb, rfl⟩ := values_cons_ok.1 hcode
    have hvalues := values_even hvs hes hrest hb P (lo + a.size) (h + 1)
    rw [Nat.add_right_comm] at hvalues
    exact (hone.value ha P lo h).append hvalues

end

end Expressions

end Checked

end Jminus
