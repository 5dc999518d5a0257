import Jminus.Code
import Jminus.Proofs.Frame
import Mathlib

/-!
The choice of a switch. Whichever instruction it becomes, a value that is a case goes to the label
of the case and every other value to the default label.
-/
namespace Jminus

/-- The label that a switch sends a value to. -/
def chosen (pairs : List (Int32 × Label)) (dflt : Label) (key : Int32) : Label :=
  (pairs.lookup key).getD dflt

/-- With each key once a pair is found if it is there. -/
theorem lookup_eq_some_of_nodup {pairs : List (Int32 × Label)} (h : (pairs.map (·.1)).Nodup)
    {key : Int32} {l : Label} : pairs.lookup key = some l ↔ (key, l) ∈ pairs := by
  induction pairs with
  | nil => simp
  | cons p pairs ih =>
    obtain ⟨v, target⟩ := p
    obtain ⟨hv, hnodup⟩ := List.nodup_cons.1 h
    by_cases hkey : key = v
    · subst hkey
      have hnot : (key, l) ∉ pairs := fun hmem => hv (List.mem_map.2 ⟨_, hmem, rfl⟩)
      simp [hnot, eq_comm]
    · simp [List.lookup_cons, beq_false_of_ne hkey, hkey, ih hnodup]

/-- With each value once, the order of the cases does not matter. -/
theorem chosen_perm {pairs pairs' : List (Int32 × Label)} (hperm : pairs.Perm pairs')
    (h : (pairs.map (·.1)).Nodup) (dflt : Label) (key : Int32) :
    chosen pairs dflt key = chosen pairs' dflt key := by
  have h' : (pairs'.map (·.1)).Nodup := (hperm.map _).nodup_iff.1 h
  have hlookup : pairs.lookup key = pairs'.lookup key := by
    refine Option.ext fun l => ?_
    rw [lookup_eq_some_of_nodup h, lookup_eq_some_of_nodup h', hperm.mem_iff]
  rw [chosen, hlookup, chosen]

theorem chosen_of_ne {pairs : List (Int32 × Label)} {key : Int32} (h : ∀ p ∈ pairs, key ≠ p.1)
    (dflt : Label) : chosen pairs dflt key = dflt := by
  rw [chosen, List.lookup_eq_none_iff.2 (by simpa using h)]
  rfl

namespace Plan

theorem sorted_perm (pairs : List (Int32 × Label)) : (sorted pairs).Perm pairs :=
  List.mergeSort_perm _ _

theorem sorted_pairwise (pairs : List (Int32 × Label)) :
    (sorted pairs).Pairwise fun p q => p.1 ≤ q.1 := by
  have h := @List.pairwise_mergeSort _ (fun a b : Int32 × Label => decide (a.1 ≤ b.1))
    (by simpa using fun _ _ _ => Int32.le_trans) (by simpa using Int32.le_total) pairs
  simpa [sorted] using h

/-- Sorted cases pass the check of the listing. -/
theorem increasing_sorted (pairs : List (Int32 × Label)) :
    Listing.increasing (sorted pairs) = true := by
  have h := sorted_pairwise pairs
  revert h
  fun_induction Listing.increasing (sorted pairs) with
  | case1 p q rest ih =>
    intro h
    obtain ⟨hp, hrest⟩ := List.pairwise_cons.1 h
    simp [hp q (by simp), ih hrest]
  | case2 => exact fun _ => rfl

theorem sorted_nodup {pairs : List (Int32 × Label)} (h : (pairs.map (·.1)).Nodup) :
    ((sorted pairs).map (·.1)).Nodup :=
  ((sorted_perm pairs).map _).nodup_iff.2 h

end Plan

/-- A lookup stops at the first case that is not below the value. -/
theorem lookupTarget_eq_chosen (dflt : Label) (key : Int32) {pairs : List (Int32 × Label)}
    (h : pairs.Pairwise fun p q => p.1 ≤ q.1) :
    Machine.lookupTarget dflt pairs key = chosen pairs dflt key := by
  induction pairs with
  | nil => rfl
  | cons p pairs ih =>
    obtain ⟨v, target⟩ := p
    obtain ⟨hv, hrest⟩ := List.pairwise_cons.1 h
    by_cases hle : key ≤ v
    · by_cases hkey : v = key
      · simp [Machine.lookupTarget, chosen, hkey]
      · have hne : ∀ q ∈ (v, target) :: pairs, key ≠ q.1 := by
          intro q hq hkq
          rcases List.mem_cons.1 hq with rfl | hq
          · exact hkey hkq.symm
          · exact hkey (Int32.le_antisymm (hkq ▸ hv q hq) hle)
        rw [chosen_of_ne hne]
        simp [Machine.lookupTarget, hle, hkey]
    · have hkey : key ≠ v := fun hkey => hle (hkey ▸ Int32.le_refl key)
      have hsame : chosen ((v, target) :: pairs) dflt key = chosen pairs dflt key := by
        simp [chosen, List.lookup_cons, beq_false_of_ne hkey]
      rw [hsame, ← ih hrest]
      simp [Machine.lookupTarget, hle]

namespace Plan

/-- If every step picks the first of two values in some order, all steps together pick the first of
all values. -/
theorem foldl_picks {r : Int32 → Int32 → Prop} {step : Int32 → Int32 → Int32}
    (hrefl : ∀ a, r a a) (htrans : ∀ {a b c}, r a b → r b c → r a c)
    (hstep : ∀ a b, (step a b = a ∨ step a b = b) ∧ r (step a b) a ∧ r (step a b) b) (v : Int32)
    (vs : List Int32) : vs.foldl step v ∈ v :: vs ∧ ∀ u ∈ v :: vs, r (vs.foldl step v) u := by
  induction vs generalizing v with
  | nil => simp [hrefl]
  | cons w vs ih =>
    obtain ⟨hmem, hfirst⟩ := ih (step v w)
    obtain ⟨hpick, hv, hw⟩ := hstep v w
    simp only [List.foldl_cons, List.mem_cons, forall_eq_or_imp] at hmem hfirst ⊢
    refine ⟨?_, htrans hfirst.1 hv, htrans hfirst.1 hw, hfirst.2⟩
    rcases hmem with hmem | hmem
    · exact hpick.imp hmem.trans fun h => .inl (hmem.trans h)
    · exact .inr (.inr hmem)

theorem least_first (v : Int32) (vs : List Int32) :
    least v vs ∈ v :: vs ∧ ∀ u ∈ v :: vs, least v vs ≤ u := by
  refine foldl_picks Int32.le_refl Int32.le_trans (fun a b => ?_) v vs
  split <;> simp only [Int32.le_iff_toInt_le, Int32.lt_iff_toInt_lt] at * <;> simp <;> omega

theorem greatest_last (v : Int32) (vs : List Int32) :
    greatest v vs ∈ v :: vs ∧ ∀ u ∈ v :: vs, u ≤ greatest v vs := by
  refine foldl_picks (r := fun a b => b ≤ a) Int32.le_refl (fun h h' => Int32.le_trans h' h)
    (fun a b => ?_) v vs
  split <;> simp only [Int32.le_iff_toInt_le, Int32.lt_iff_toInt_lt] at * <;> simp <;> omega

/-- The bounds of a plan are bounds of the values. -/
theorem choose_bounds {values : List Int32} {v : Int32} (hv : v ∈ values) :
    (choose values).lo ≤ v ∧ v ≤ (choose values).hi := by
  cases values with
  | nil => cases hv
  | cons w vs =>
    have hle := (least_first w vs).2 v hv
    have hge := (greatest_last w vs).2 v hv
    unfold choose
    simp only
    split
    · exact ⟨hle, hge⟩
    · exact ⟨hle, hge⟩

theorem choose_lo_le_hi (values : List Int32) : (choose values).lo ≤ (choose values).hi := by
  cases values with
  | nil => decide
  | cons v vs =>
    obtain ⟨hle, hge⟩ := choose_bounds (List.mem_cons_self : v ∈ v :: vs)
    exact Int32.le_trans hle hge

def fill (lo : Int32) (ts : List Label) (pairs : List (Int32 × Label)) : List Label :=
  pairs.foldl (fun ts p => ts.set (p.1.toInt - lo.toInt).toNat p.2) ts

theorem length_fill (lo : Int32) (ts : List Label) (pairs : List (Int32 × Label)) :
    (fill lo ts pairs).length = ts.length := by
  induction pairs generalizing ts with
  | nil => rfl
  | cons p pairs ih => exact (ih _).trans List.length_set

variable {lo key : Int32} {pairs : List (Int32 × Label)}

/-- Writing changes the entries of the cases and no others. -/
theorem getElem?_fill (hlo : lo ≤ key) (hpairs : ∀ p ∈ pairs, lo ≤ p.1)
    (hnodup : (pairs.map (·.1)).Nodup) (ts : List Label)
    (hlt : (key.toInt - lo.toInt).toNat < ts.length) :
    (fill lo ts pairs)[(key.toInt - lo.toInt).toNat]? =
      (pairs.lookup key).or ts[(key.toInt - lo.toInt).toNat]? := by
  induction pairs generalizing ts with
  | nil => rfl
  | cons p pairs ih =>
    obtain ⟨v, target⟩ := p
    obtain ⟨hv, hrest⟩ := List.nodup_cons.1 hnodup
    have hstep := ih (fun q hq => hpairs q (List.mem_cons_of_mem _ hq)) hrest
      (ts.set (v.toInt - lo.toInt).toNat target) (by rwa [List.length_set])
    refine Eq.trans hstep ?_
    by_cases hkey : key = v
    · subst hkey
      have hnone : pairs.lookup key = none :=
        List.lookup_eq_none_iff.2 fun q hq => by
          simpa using fun h : key = q.1 => hv (List.mem_map.2 ⟨q, hq, h.symm⟩)
      simp [hnone, hlt]
    · have hle := hpairs (v, target) List.mem_cons_self
      have hne : (v.toInt - lo.toInt).toNat ≠ (key.toInt - lo.toInt).toNat := by
        have hne' : key.toInt ≠ v.toInt := fun h => hkey (Int32.toInt_inj.1 h)
        simp only [Int32.le_iff_toInt_le] at hle hlo
        omega
      simp [List.lookup_cons, beq_false_of_ne hkey, List.getElem?_set_ne hne]

/-- A table has a label for each value between the bounds. -/
theorem length_targets (lo hi : Int32) (dflt : Label) (pairs : List (Int32 × Label)) :
    (targets lo hi dflt pairs).length = (hi.toInt - lo.toInt + 1).toNat :=
  (length_fill lo _ pairs).trans List.length_replicate

/-- It has the label chosen for a value at the place of the value. -/
theorem getElem?_targets {hi : Int32} (hlo : lo ≤ key) (hhi : key ≤ hi) (dflt : Label)
    (hpairs : ∀ p ∈ pairs, lo ≤ p.1) (hnodup : (pairs.map (·.1)).Nodup) :
    (targets lo hi dflt pairs)[(key.toInt - lo.toInt).toNat]? = some (chosen pairs dflt key) := by
  have hlt : (key.toInt - lo.toInt).toNat < (hi.toInt - lo.toInt + 1).toNat := by
    simp only [Int32.le_iff_toInt_le] at hlo hhi
    omega
  refine (getElem?_fill hlo hpairs hnodup _ (by rwa [List.length_replicate])).trans ?_
  rw [List.getElem?_replicate, if_pos hlt, chosen]
  cases pairs.lookup key <;> rfl

/-- The instruction that a plan leads to. -/
def instruction (p : Plan) (pairs : List (Int32 × Label)) (dflt : Label) : Instruction :=
  match p.strategy with
  | .sparse => .lookup dflt (sorted pairs)
  | .dense => .table dflt p.lo p.hi (targets p.lo p.hi dflt (sorted pairs))

abbrev planned (s : Strategy) (pairs : List (Int32 × Label)) : Plan :=
  { choose (pairs.map (·.1)) with strategy := s }

/-- Whatever the strategy, the listing takes the instruction. -/
theorem emit_planned (s : Strategy) (pairs : List (Int32 × Label)) (dflt : Label) (l : Listing) :
    (planned s pairs).emit pairs dflt l = .ok (l.push ((planned s pairs).instruction pairs dflt)) := by
  cases s with
  | sparse =>
    simp only [emit, instruction, Listing.addSparse, increasing_sorted, (sorted_perm pairs).length_eq,
      ne_eq, not_true_eq_false, if_false, if_true]
  | dense =>
    have hle := choose_lo_le_hi (pairs.map (·.1))
    simp only [Int32.le_iff_toInt_le] at hle
    simp only [emit, instruction, Listing.addDense, length_targets]
    rw [if_pos]
    omega

end Plan

theorem Item.emit_dispatch (l : Listing) (line : Nat) (pairs : List (Int32 × Label))
    (dflt : Label) : Item.emit l (.dispatch line pairs dflt) =
      .ok (l.push ((Item.plan pairs).instruction pairs dflt)) :=
  Plan.emit_planned _ pairs dflt l

namespace Plan

variable {pairs : List (Int32 × Label)} {l : Label}

/-- The targets of a table are the default label and labels of cases. -/
theorem mem_fill {lo : Int32} {ts : List Label} (h : l ∈ fill lo ts pairs) :
    l ∈ ts ∨ l ∈ pairs.map (·.2) := by
  induction pairs generalizing ts with
  | nil => exact .inl h
  | cons p pairs ih =>
    rcases ih h with h | h
    · rcases List.mem_or_eq_of_mem_set h with h | rfl
      · exact .inl h
      · exact .inr List.mem_cons_self
    · exact .inr (List.mem_cons_of_mem _ h)

/-- A switch jumps to the labels of its cases and to the default label. -/
theorem labels_instruction (p : Plan) {dflt : Label} (h : l ∈ (p.instruction pairs dflt).labels) :
    l ∈ dflt :: pairs.map (·.2) := by
  have hsorted : ∀ l, l ∈ (sorted pairs).map (·.2) ↔ l ∈ pairs.map (·.2) := fun l =>
    ((sorted_perm pairs).map _).mem_iff
  unfold instruction at h
  split at h
  · simpa only [Instruction.labels, List.mem_cons, hsorted] using h
  · rcases List.mem_cons.1 h with rfl | h
    · exact List.mem_cons_self
    · rcases mem_fill h with h | h
      · rw [List.eq_of_mem_replicate h]
        exact List.mem_cons_self
      · exact List.mem_cons_of_mem _ ((hsorted l).1 h)

end Plan

namespace Machine

variable {m : Machine} {key lo hi : Int32} {rest : List Value} {pairs : List (Int32 × Label)}

theorem popInt_run (h : m.stack = .int key :: rest) :
    popInt.run m = .ok key { m with stack := rest } := by
  simp only [popInt, EStateM.run_bind, pop_run h]
  rfl

/-- A lookup jumps to the label that is chosen. -/
theorem perform_lookup (code : Listing) (dflt : Label) (h : m.stack = .int key :: rest)
    (hsorted : pairs.Pairwise fun p q => p.1 ≤ q.1) :
    (perform code (.lookup dflt pairs)).run m =
      ((jump code (chosen pairs dflt key)).run { m with stack := rest }).map fun _ => none := by
  simp [perform, popInt_run h, lookupTarget_eq_chosen dflt key hsorted]

theorem perform_table (code : Listing) (dflt : Label) (h : m.stack = .int key :: rest)
    (hnodup : (pairs.map (·.1)).Nodup) (hbounds : ∀ p ∈ pairs, lo ≤ p.1 ∧ p.1 ≤ hi) :
    (perform code (.table dflt lo hi (Plan.targets lo hi dflt pairs))).run m =
      ((jump code (chosen pairs dflt key)).run { m with stack := rest }).map fun _ => none := by
  by_cases hout : key < lo ∨ hi < key
  · have hne : ∀ p ∈ pairs, key ≠ p.1 := by
      intro p hp hkey
      obtain ⟨hlo, hhi⟩ := hbounds p hp
      simp only [Int32.le_iff_toInt_le, Int32.lt_iff_toInt_lt, hkey] at hlo hhi hout
      omega
    simp [perform, popInt_run h, chosen_of_ne hne, hout]
  · have hlo : lo ≤ key := Int32.not_lt.1 fun hlt => hout (.inl hlt)
    have hhi : key ≤ hi := Int32.not_lt.1 fun hlt => hout (.inr hlt)
    have htarget := Plan.getElem?_targets hlo hhi dflt (fun p hp => (hbounds p hp).1) hnodup
    simp [perform, popInt_run h, hout, htarget]

/-- Both strategies jump to the label of the case. -/
theorem perform_planned (code : Listing) (s : Strategy) (dflt : Label)
    (hnodup : (pairs.map (·.1)).Nodup) (h : m.stack = .int key :: rest) :
    (perform code ((Plan.planned s pairs).instruction pairs dflt)).run m =
      ((jump code (chosen pairs dflt key)).run { m with stack := rest }).map fun _ => none := by
  rw [← chosen_perm (Plan.sorted_perm pairs) (Plan.sorted_nodup hnodup) dflt key]
  cases s with
  | sparse => exact perform_lookup code dflt h (Plan.sorted_pairwise pairs)
  | dense =>
    apply perform_table code dflt h (Plan.sorted_nodup hnodup)
    intro p hp
    apply Plan.choose_bounds
    exact List.mem_map.2 ⟨p, (Plan.sorted_perm pairs).mem_iff.1 hp, rfl⟩

end Machine

end Jminus
