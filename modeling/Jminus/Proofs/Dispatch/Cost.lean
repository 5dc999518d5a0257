import Jminus.Proofs.Dispatch
import Mathlib

/-!
What the plan of a switch costs.

A plan is made from the least and the greatest case and from the number of cases, so the order of
the cases does not matter. With each value once there are no more cases than values between the
bounds. None of the costs comes near the limits of its type, and a jump table is taken only if it is
no longer than five times the number of cases.
-/
namespace Jminus

namespace Plan

section Bounds

variable {v w : Int32} {vs ws : List Int32}

theorem least_perm (h : (v :: vs).Perm (w :: ws)) : least v vs = least w ws :=
  Int32.le_antisymm ((least_first v vs).2 _ (h.mem_iff.2 (least_first w ws).1))
    ((least_first w ws).2 _ (h.mem_iff.1 (least_first v vs).1))

theorem greatest_perm (h : (v :: vs).Perm (w :: ws)) : greatest v vs = greatest w ws :=
  Int32.le_antisymm ((greatest_last w ws).2 _ (h.mem_iff.1 (greatest_last v vs).1))
    ((greatest_last v vs).2 _ (h.mem_iff.2 (greatest_last w ws).1))

end Bounds

def between (lo hi : Int32) (cases : Nat) : Plan :=
  let plan : Plan :=
    { lo, hi, cases
      tableSpace := 5 + (hi.toInt64 - lo.toInt64)
      tableTime := 3
      lookupSpace := 3 + 2 * Int64.ofNat cases
      lookupTime := Int64.ofNat cases }
  if plan.tableCost ≤ plan.lookupCost then { plan with strategy := .dense } else plan

/-- A plan is made from the bounds and the number of cases. -/
theorem choose_cons (v : Int32) (vs : List Int32) :
    choose (v :: vs) = between (least v vs) (greatest v vs) (v :: vs).length := rfl

/-- The order of the cases does not matter to the plan. -/
theorem choose_perm {values values' : List Int32} (h : values.Perm values') :
    choose values = choose values' := by
  cases values with
  | nil => rw [h.nil_eq]
  | cons v vs =>
    cases values' with
    | nil => cases h.eq_nil
    | cons w ws =>
      rw [choose_cons, choose_cons, least_perm h, greatest_perm h, h.length_eq]

theorem sorted_eq_of_perm {pairs pairs' : List (Int32 × Label)} (h : pairs.Perm pairs')
    (hnodup : (pairs.map (·.1)).Nodup) : sorted pairs = sorted pairs' := by
  have hperm : (sorted pairs).Perm (sorted pairs') :=
    (sorted_perm pairs).trans (h.trans (sorted_perm pairs').symm)
  refine hperm.eq_of_pairwise (fun p q hp hq hpq hqp => ?_) (sorted_pairwise pairs)
    (sorted_pairwise pairs')
  -- two cases of one value are the same case
  refine List.inj_on_of_nodup_map (sorted_nodup hnodup) hp (hperm.mem_iff.2 hq) ?_
  exact Int32.le_antisymm hpq hqp

theorem emit_choose (pairs : List (Int32 × Label)) (dflt : Label) (l : Listing) :
    (choose (pairs.map (·.1))).emit pairs dflt l =
      .ok (l.push ((choose (pairs.map (·.1))).instruction pairs dflt)) :=
  emit_planned _ pairs dflt l

/-- The code of a switch does not depend on the order of its cases. However cases with different
values are ordered, they lead to the same plan, strategy, bounds and costs, and the plan to the same
instruction in any listing. -/
theorem order_irrelevant {pairs pairs' : List (Int32 × Label)} (h : pairs.Perm pairs')
    (hnodup : (pairs.map (·.1)).Nodup) :
    choose (pairs.map (·.1)) = choose (pairs'.map (·.1)) ∧ ∀ dflt l,
      (choose (pairs.map (·.1))).emit pairs dflt l =
        .ok (l.push ((choose (pairs.map (·.1))).instruction pairs dflt)) ∧
      (choose (pairs'.map (·.1))).emit pairs' dflt l =
        .ok (l.push ((choose (pairs.map (·.1))).instruction pairs dflt)) := by
  have hplan := choose_perm (h.map (·.1))
  have hsame : ∀ dflt, (choose (pairs'.map (·.1))).instruction pairs' dflt =
      (choose (pairs.map (·.1))).instruction pairs dflt := by
    intro dflt
    rw [← hplan, instruction, instruction, sorted_eq_of_perm h hnodup]
  refine ⟨hplan, fun dflt l => ⟨emit_choose pairs dflt l, ?_⟩⟩
  rw [← hsame]
  exact emit_choose pairs' dflt l

theorem order_irrelevant_swapped :
    ([(7, ⟨1⟩), (-2, ⟨2⟩)] : List (Int32 × Label)).Perm [(-2, ⟨2⟩), (7, ⟨1⟩)] ∧
      ([7, -2] : List Int32).Nodup ∧ choose [7, -2] = choose [-2, 7] ∧
      (choose [-2, 7]).emit [(-2, ⟨2⟩), (7, ⟨1⟩)] ⟨3⟩ .empty =
        .ok (Listing.empty.push ((choose [7, -2]).instruction [(7, ⟨1⟩), (-2, ⟨2⟩)] ⟨3⟩)) := by
  have hperm : ([(7, ⟨1⟩), (-2, ⟨2⟩)] : List (Int32 × Label)).Perm
      [(-2, ⟨2⟩), (7, ⟨1⟩)] := .swap ..
  have hnodup : ([7, -2] : List Int32).Nodup := by decide
  obtain ⟨hplan, hemit⟩ := order_irrelevant hperm hnodup
  exact ⟨hperm, hnodup, hplan, (hemit ⟨3⟩ .empty).2⟩

abbrev offset (lo v : Int32) : Nat := (v.toInt - lo.toInt).toNat

section Costs

variable {values : List Int32} {lo hi v w : Int32} {n : Nat}

theorem offset_inj (hv : lo ≤ v) (hw : lo ≤ w) (h : offset lo v = offset lo w) : v = w := by
  rw [Int32.le_iff_toInt_le] at hv hw
  refine Int32.toInt_inj.1 ?_
  unfold offset at h
  omega

/-- Every value between the bounds has a place. -/
theorem offset_lt (hlo : lo ≤ v) (hhi : v ≤ hi) :
    offset lo v < (hi.toInt - lo.toInt + 1).toNat := by
  rw [Int32.le_iff_toInt_le] at hlo hhi
  unfold offset
  omega

/-- There are no more values than places between their bounds. -/
theorem length_le_span (hnodup : values.Nodup) (hbounds : ∀ v ∈ values, lo ≤ v ∧ v ≤ hi) :
    values.length ≤ (hi.toInt - lo.toInt + 1).toNat := by
  have hinj : (values.map (offset lo)).Nodup :=
    hnodup.map_on fun v hv w hw => offset_inj (hbounds v hv).1 (hbounds w hw).1
  have hsub : (values.map (offset lo)).toFinset ⊆
      Finset.range (hi.toInt - lo.toInt + 1).toNat := by
    intro k hk
    obtain ⟨v, hv, rfl⟩ := List.mem_map.1 (List.mem_toFinset.1 hk)
    exact Finset.mem_range.2 (offset_lt (hbounds v hv).1 (hbounds v hv).2)
  have hcard := Finset.card_le_card hsub
  rwa [List.toFinset_card_of_nodup hinj, List.length_map, Finset.card_range] at hcard

/-- A number that fits into a long. -/
def Fits (z : Int) : Prop := -9223372036854775808 ≤ z ∧ z < 9223372036854775808

theorem Fits.bmod {z : Int} (h : Fits z) : z.bmod (2 ^ 64) = z := by
  obtain ⟨hlo, hhi⟩ := h
  exact Int.bmod_eq_of_le (by norm_num; omega) (by norm_num; omega)

theorem toInt_add_of_fits {a b : Int64} (h : Fits (a.toInt + b.toInt)) :
    (a + b).toInt = a.toInt + b.toInt := by
  rw [Int64.toInt_add, h.bmod]

theorem toInt_sub_of_fits {a b : Int64} (h : Fits (a.toInt - b.toInt)) :
    (a - b).toInt = a.toInt - b.toInt := by
  rw [Int64.toInt_sub, h.bmod]

theorem toInt_mul_of_fits {a b : Int64} (h : Fits (a.toInt * b.toInt)) :
    (a * b).toInt = a.toInt * b.toInt := by
  rw [Int64.toInt_mul, h.bmod]

theorem toInt_ofNat_of_fits (h : Fits n) : (Int64.ofNat n).toInt = n := by
  rw [Int64.toInt_ofNat']
  exact h.bmod

/-- Differences of ints are exact as longs. -/
theorem toInt_span (lo hi : Int32) : (hi.toInt64 - lo.toInt64).toInt = hi.toInt - lo.toInt := by
  have hlo := lo.le_toInt
  have hlo' := lo.toInt_lt
  have hhi := hi.le_toInt
  have hhi' := hi.toInt_lt
  rw [toInt_sub_of_fits] <;> simp only [Int32.toInt_toInt64]
  constructor <;> omega

/-- The costs of a plan for `n` cases as numbers, with every step on the way to them: none of them
is beyond the limits of a long. -/
structure Exact (p : Plan) (n : Nat) : Prop where
  span : (p.hi.toInt64 - p.lo.toInt64).toInt = p.hi.toInt - p.lo.toInt
  entries : (p.hi.toInt64 - p.lo.toInt64 + 1).toInt = p.hi.toInt - p.lo.toInt + 1
  tableSpace : p.tableSpace.toInt = 5 + (p.hi.toInt - p.lo.toInt)
  tableTime : (3 * p.tableTime).toInt = 9
  tableCost : p.tableCost.toInt = 5 + (p.hi.toInt - p.lo.toInt) + 9
  cases : (Int64.ofNat n).toInt = n
  twice : (2 * Int64.ofNat n).toInt = 2 * n
  lookupSpace : p.lookupSpace.toInt = 3 + 2 * n
  lookupTime : (3 * p.lookupTime).toInt = 3 * n
  lookupCost : p.lookupCost.toInt = 3 + 2 * n + 3 * n

theorem between_eq (lo hi : Int32) (n : Nat) : between lo hi n =
    { strategy := (between lo hi n).strategy, lo, hi, cases := n
      tableSpace := 5 + (hi.toInt64 - lo.toInt64)
      tableTime := 3
      lookupSpace := 3 + 2 * Int64.ofNat n
      lookupTime := Int64.ofNat n } := by
  unfold between
  dsimp only
  split <;> rfl

@[simp] theorem between_lo : (between lo hi n).lo = lo := by rw [between_eq]

@[simp] theorem between_hi : (between lo hi n).hi = hi := by rw [between_eq]

/-- A table is built unless a lookup costs less. -/
theorem between_dense_iff : (between lo hi n).strategy = .dense ↔
    (between lo hi n).tableCost ≤ (between lo hi n).lookupCost := by
  unfold between
  dsimp only
  split
  · rename_i hle
    exact iff_of_true rfl hle
  · rename_i hle
    exact iff_of_false (show Strategy.sparse ≠ .dense by decide) hle

/-- With no more cases than ints nothing overflows. -/
theorem between_exact (hn : n ≤ 4294967296) : (between lo hi n).Exact n := by
  have hlo := lo.le_toInt
  have hlo' := lo.toInt_lt
  have hhi := hi.le_toInt
  have hhi' := hi.toInt_lt
  have hspan := toInt_span lo hi
  have hcases : (Int64.ofNat n).toInt = n := toInt_ofNat_of_fits ⟨by omega, by omega⟩
  have htwice : (2 * Int64.ofNat n).toInt = 2 * n := by
    rw [toInt_mul_of_fits] <;> rw [hcases, show (2 : Int64).toInt = 2 from rfl]
    constructor <;> omega
  have hthrice : (3 * Int64.ofNat n).toInt = 3 * n := by
    rw [toInt_mul_of_fits] <;> rw [hcases, show (3 : Int64).toInt = 3 from rfl]
    constructor <;> omega
  have htable : (5 + (hi.toInt64 - lo.toInt64)).toInt = 5 + (hi.toInt - lo.toInt) := by
    rw [toInt_add_of_fits] <;> rw [hspan, show (5 : Int64).toInt = 5 from rfl]
    constructor <;> omega
  have hlookup : (3 + 2 * Int64.ofNat n).toInt = 3 + 2 * n := by
    rw [toInt_add_of_fits] <;> rw [htwice, show (3 : Int64).toInt = 3 from rfl]
    constructor <;> omega
  rw [between_eq]
  refine ⟨hspan, ?_, htable, rfl, ?_, hcases, htwice, hlookup, hthrice, ?_⟩
  · rw [toInt_add_of_fits] <;> rw [hspan, show (1 : Int64).toInt = 1 from rfl]
    constructor <;> omega
  · rw [tableCost, toInt_add_of_fits] <;> rw [htable, show ((3 : Int64) * 3).toInt = 9 from rfl]
    constructor <;> omega
  · rw [lookupCost, toInt_add_of_fits] <;> rw [hlookup, hthrice]
    constructor <;> omega

/-- A table is taken if and only if the bounds are near enough. -/
theorem between_dense_iff_span (hn : n ≤ 4294967296) : (between lo hi n).strategy = .dense ↔
    hi.toInt - lo.toInt ≤ 5 * n - 11 := by
  have hexact : (between lo hi n).Exact n := between_exact hn
  rw [between_dense_iff, Int64.le_iff_toInt_le, hexact.tableCost, hexact.lookupCost, between_lo,
    between_hi]
  omega

/-- Different ints are not too many for exact costs. -/
theorem length_le_of_nodup (hnodup : values.Nodup) : values.length ≤ 4294967296 := by
  have hlength := length_le_span hnodup fun v hv => choose_bounds hv
  have hlo := (choose values).lo.le_toInt
  have hhi := (choose values).hi.toInt_lt
  omega

/-- So the costs of cases with each value once are exact. -/
theorem choose_exact (hne : values ≠ []) (hnodup : values.Nodup) :
    (choose values).Exact values.length := by
  have hn := length_le_of_nodup hnodup
  cases values with
  | nil => exact absurd rfl hne
  | cons v vs =>
    rw [choose_cons]
    exact between_exact hn

theorem choose_dense_iff (hne : values ≠ []) (hnodup : values.Nodup) :
    (choose values).strategy = .dense ↔
      (choose values).hi.toInt - (choose values).lo.toInt ≤ 5 * values.length - 11 := by
  have hn := length_le_of_nodup hnodup
  cases values with
  | nil => exact absurd rfl hne
  | cons v vs => rw [choose_cons, between_dense_iff_span hn, between_lo, between_hi]

end Costs

section Tables

variable {pairs : List (Int32 × Label)} {q : Int32 × Label} {lo hi : Int32}

/-- The entry of a case holds its label. -/
theorem targets_case (hnodup : (pairs.map (·.1)).Nodup) (hbounds : ∀ q ∈ pairs, lo ≤ q.1 ∧ q.1 ≤ hi)
    (dflt : Label) (hq : q ∈ pairs) :
    (targets lo hi dflt (sorted pairs))[offset lo q.1]? = some q.2 := by
  obtain ⟨v, label⟩ := q
  have hsorted : ∀ q ∈ sorted pairs, lo ≤ q.1 := fun q hq =>
    (hbounds q ((sorted_perm pairs).mem_iff.1 hq)).1
  rw [getElem?_targets (hbounds _ hq).1 (hbounds _ hq).2 dflt hsorted (sorted_nodup hnodup), chosen,
    (lookup_eq_some_of_nodup (sorted_nodup hnodup)).2 ((sorted_perm pairs).mem_iff.2 hq)]
  rfl

end Tables

/-- A jump table stays in proportion to its switch. For cases with different values no step in the
costs of their plan goes beyond the limits of its type. If the plan takes a table, the table has at
least as many entries as there are cases and at most five times as many, less ten; every case has an
entry of its own in it, with its label. A lookup is taken only if there are no cases, or if the
bounds are too far apart. -/
theorem table_proportional {pairs : List (Int32 × Label)} (hnodup : (pairs.map (·.1)).Nodup)
    {p : Plan} (hp : p = choose (pairs.map (·.1))) (dflt : Label) (l : Listing) :
    (pairs ≠ [] → p.Exact pairs.length) ∧
      (∀ q ∈ pairs, (q.1.toInt64 - p.lo.toInt64).toInt = q.1.toInt - p.lo.toInt) ∧
      (p.strategy = .dense → ∃ table,
        p.emit pairs dflt l = .ok (l.push (.table dflt p.lo p.hi table)) ∧
        pairs.length ≤ table.length ∧ (table.length : Int) ≤ 5 * pairs.length - 10 ∧
        ∀ q ∈ pairs, p.lo ≤ q.1 ∧ table[offset p.lo q.1]? = some q.2 ∧
          ∀ q' ∈ pairs, offset p.lo q'.1 = offset p.lo q.1 → q' = q) ∧
      (p.strategy = .sparse →
        pairs = [] ∨ p.hi.toInt - p.lo.toInt > 5 * pairs.length - 11) := by
  have hlength : (pairs.map (·.1)).length = pairs.length := List.length_map _
  have hexact : pairs ≠ [] → p.Exact pairs.length := fun hne => by
    have hexact := choose_exact (by simpa using hne) hnodup
    rwa [hlength, ← hp] at hexact
  have hdense : pairs ≠ [] →
      (p.strategy = .dense ↔ p.hi.toInt - p.lo.toInt ≤ 5 * pairs.length - 11) := fun hne => by
    have hdense := choose_dense_iff (by simpa using hne) hnodup
    rwa [hlength, ← hp] at hdense
  have hbounds : ∀ q ∈ pairs, p.lo ≤ q.1 ∧ q.1 ≤ p.hi := fun q hq =>
    hp ▸ choose_bounds (List.mem_map.2 ⟨q, hq, rfl⟩)
  have hspan : pairs.length ≤ (p.hi.toInt - p.lo.toInt + 1).toNat := by
    rw [← hlength]
    exact length_le_span hnodup (by simpa using fun v target hq => hbounds (v, target) hq)
  have hemit := emit_choose pairs dflt l
  rw [← hp] at hemit
  refine ⟨hexact, fun q _ => toInt_span _ _, fun hstrategy => ?_, fun hstrategy => ?_⟩
  · have hne : pairs ≠ [] := by
      rintro rfl
      rw [hp] at hstrategy
      cases hstrategy
    have hshort := (hdense hne).1 hstrategy
    have hpos := List.length_pos_iff.2 hne
    refine ⟨targets p.lo p.hi dflt (sorted pairs), ?_, ?_, ?_, fun q hq => ?_⟩
    · rw [hemit, instruction, hstrategy]
    · rwa [length_targets]
    · rw [length_targets]
      omega
    · refine ⟨(hbounds q hq).1, targets_case hnodup hbounds dflt hq, fun q' hq' hsame => ?_⟩
      refine List.inj_on_of_nodup_map hnodup hq' hq ?_
      exact offset_inj (hbounds q' hq').1 (hbounds q hq).1 hsame
  · by_cases hne : pairs = []
    · exact .inl hne
    · refine .inr (lt_of_not_ge fun hle => ?_)
      rw [(hdense hne).2 hle] at hstrategy
      cases hstrategy

theorem table_proportional_three :
    ([9, 7, 8] : List Int32).Nodup ∧ (choose [9, 7, 8]).strategy = .dense ∧ ∃ table,
      (choose [9, 7, 8]).emit [(9, ⟨1⟩), (7, ⟨2⟩), (8, ⟨3⟩)] ⟨4⟩ .empty =
        .ok (Listing.empty.push (.table ⟨4⟩ 7 9 table)) ∧
      3 ≤ table.length ∧ (table.length : Int) ≤ 5 * 3 - 10 := by
  have hnodup : (([(9, ⟨1⟩), (7, ⟨2⟩), (8, ⟨3⟩)] : List (Int32 × Label)).map (·.1)).Nodup := by
    decide
  have hstrategy : (choose [9, 7, 8]).strategy = .dense := by decide
  obtain ⟨_, _, hdense, _⟩ := table_proportional hnodup rfl ⟨4⟩ .empty
  obtain ⟨table, hemit, hlow, hhigh, _⟩ := hdense hstrategy
  exact ⟨hnodup, hstrategy, table, hemit, hlow, hhigh⟩

end Plan

end Jminus
