import Jminus.Proofs.Simulation.Stmt
import Mathlib

/-!
The code of switches does what they mean: the dispatch leads to the group that evaluation would
start with.
-/
namespace Jminus.Checked

/-- The cases of the first group lead to the first label. -/
theorem casePairs_cons (base : Nat) (g : SwitchGroup) (gs : List SwitchGroup) :
    casePairs base (g :: gs) =
      g.values.map (fun v => (v, groupLabel base 0)) ++ casePairs (base + 1) gs := by
  simp only [casePairs, List.zipIdx_cons', List.flatMap_cons, List.flatMap_map]
  congr 2
  funext p
  simp only [Prod.map_fst, Prod.map_snd, id, groupLabel_succ]

/-- The keys are the values of all groups. -/
theorem casePairs_keys (base : Nat) (gs : List SwitchGroup) :
    (casePairs base gs).map (·.1) = gs.flatMap SwitchGroup.values := by
  induction gs generalizing base with
  | nil => rfl
  | cons g gs ih => simp [casePairs_cons, ih, Function.comp_def]

theorem defaultLabel?_cons (base : Nat) (g : SwitchGroup) (gs : List SwitchGroup) :
    defaultLabel? base (g :: gs) = (defaultLabel? (base + 1) gs).or
      (if g.isDefault then some (groupLabel base 0) else none) := by
  have hfilter : ((g :: gs).zipIdx.filter fun x => x.1.isDefault) =
      (if g.isDefault then [(g, 0)] else []) ++
        (gs.zipIdx.filter fun x => x.1.isDefault).map (Prod.map id (· + 1)) := by
    rw [List.zipIdx_cons', List.filter_cons, List.filter_map]
    cases g.isDefault <;> rfl
  unfold defaultLabel?
  rw [hfilter, List.getLast?_append, List.getLast?_map, Option.map_or, Option.map_map]
  congr 1
  · refine Option.map_congr fun x _ => ?_
    exact groupLabel_succ base x.2
  · cases g.isDefault <;> rfl

/-- Without a second default the last one is the first one. -/
theorem defaultLabel?_eq {gs : List SwitchGroup} (h : (gs.filter SwitchGroup.isDefault).length ≤ 1)
    (base : Nat) :
    defaultLabel? base gs = (gs.findIdx? SwitchGroup.isDefault).map (groupLabel base) := by
  induction gs generalizing base with
  | nil => rfl
  | cons g gs ih =>
    rw [defaultLabel?_cons, List.findIdx?_cons]
    cases hg : g.isDefault with
    | true =>
      have hnone : defaultLabel? (base + 1) gs = none := by
        rw [List.filter_cons_of_pos hg, List.length_cons] at h
        have hempty : gs.filter SwitchGroup.isDefault = [] := List.eq_nil_of_length_eq_zero (by omega)
        rw [ih (by rw [hempty]; exact Nat.zero_le 1),
          List.findIdx?_eq_none_iff.2 fun x hx => by
            simpa using List.filter_eq_nil_iff.1 hempty x hx]
        rfl
      rw [hnone]
      rfl
    | false =>
      rw [List.filter_cons_of_neg (by simp [hg])] at h
      rw [ih h, if_neg Bool.false_ne_true, if_neg Bool.false_ne_true, Option.or_none,
        Option.map_map]
      exact Option.map_congr fun i _ => (groupLabel_succ base i).symm

namespace Meaning

open Code
open Machine (Memory Config Goes)

/-- The cases of a group are looked at before those behind it. -/
theorem chosen_append (values : List Int32) (l : Label) (pairs : List (Int32 × Label))
    (dflt : Label) (key : Int32) :
    chosen (values.map (fun v => (v, l)) ++ pairs) dflt key =
      if values.contains key then l else chosen pairs dflt key := by
  induction values with
  | nil => rfl
  | cons v values ih =>
    by_cases hkey : key = v
    · simp [chosen, hkey]
    · rw [List.contains_cons, beq_false_of_ne hkey, Bool.false_or, ← ih]
      simp [chosen, List.lookup_cons, beq_false_of_ne hkey]

/-- The dispatch chooses the group that holds the key. -/
theorem chosen_casePairs (base : Nat) (gs : List SwitchGroup) (dflt : Label) (key : Int32) :
    chosen (casePairs base gs) dflt key =
      ((gs.findIdx? (holds key)).map (groupLabel base)).getD dflt := by
  induction gs generalizing base with
  | nil => rfl
  | cons g gs ih =>
    obtain ⟨values, isDefault, body⟩ := g
    have hholds : holds key (.mk values isDefault body) = values.contains key := rfl
    rw [casePairs_cons, SwitchGroup.values, chosen_append, ih, List.findIdx?_cons, hholds]
    cases values.contains key with
    | true => rfl
    | false =>
      simp only [Bool.false_eq_true, if_false, Option.map_map]
      congr 1
      exact Option.map_congr fun i _ => (groupLabel_succ base i).symm

theorem isDefault_eq (g : SwitchGroup) : isDefault g = g.isDefault := by
  cases g
  rfl

/-- Where the code of some groups starts if the first `skip` of them are passed over. -/
def Entry (prog : Listing) (base count hi skip q : Nat) : Prop :=
  if skip < count then prog.place? (groupLabel base skip) = some q else q = hi

variable {prog : Listing} {gs : List SwitchGroup} {base n q m m' pc : Nat} {env : Env}
  {slots : Slots} {frames : List Frame} {vs : List Local} {code : Code} {subject : Expr}
  {frame : Frame}

/-- A dispatch leads to the group that evaluation starts with, and without one behind the
groups. -/
theorem dispatch_entry (hone : (gs.filter SwitchGroup.isDefault).length ≤ 1) {hi : Nat}
    {key : Int32} (hat : (fallback base gs n).2.1.At prog hi)
    (hentry : Entry prog base gs.length hi (passed key gs) q) :
    prog.place? (chosen (casePairs base gs) (fallback base gs n).1 key) = some q := by
  have hdefault : isDefault = SwitchGroup.isDefault := funext isDefault_eq
  rw [chosen_casePairs]
  rw [passed, hdefault] at hentry
  cases hholds : gs.findIdx? (holds key) with
  | some i =>
    obtain ⟨hlt, _⟩ := List.findIdx?_eq_some_iff_getElem.1 hholds
    rw [hholds] at hentry
    simpa [Entry, hlt] using hentry
  | none =>
    rw [hholds, Option.none_or] at hentry
    have hlabel := defaultLabel?_eq hone base
    cases hdflt : gs.findIdx? SwitchGroup.isDefault with
    | some i =>
      obtain ⟨hlt, _⟩ := List.findIdx?_eq_some_iff_getElem.1 hdflt
      rw [hdflt] at hentry hlabel
      simpa [Entry, hlt, fallback, hlabel] using hentry
    | none =>
      rw [hdflt] at hentry hlabel
      obtain rfl : q = hi := by simpa [Entry] using hentry
      simp only [fallback, hlabel, Option.map_none] at hat ⊢
      exact hat.1

/-- The code of some groups does what the groups mean, from each of its entries. -/
def GroupsFollow (n : Nat) (gs : List SwitchGroup) : Prop :=
  ∀ ⦃env slots frames vs m code m' pc hi base⦄, Env.Fits env slots frames vs →
    SwitchGroup.AllSound slots frames vs gs → groupsCode gs base env.exits m = .ok (code, m') →
    code.At env.prog pc → hi = pc + code.size → Guarded env.prog env.out pc code → ∀ skip,
    ∃ q, Entry env.prog base gs.length hi skip q ∧ ∀ w mem, World.Typed vs w → env.Agrees w mem →
      (execGroups n gs skip w).Follows env n hi ⟨q, [], mem⟩

theorem Env.Fits.confined_groups (fit : env.Fits slots frames vs)
    (hgs : SwitchGroup.AllSound slots frames vs gs)
    (hgen : groupsCode gs base env.exits m = .ok (code, m')) (hat : code.At env.prog pc) :
    Confined env.prog pc code := by
  induction gs generalizing base m code pc with
  | nil =>
    cases hgen
    exact .quiet rfl
  | cons g gs ih =>
    obtain ⟨values, isDefault, body⟩ := g
    obtain ⟨a, m₁, ha, b, hb, rfl⟩ := groups_cons_ok.1 hgen
    obtain ⟨⟨_, hata⟩, hatb⟩ := at_append.1 hat
    exact (Confined.append (a := [.label _]) (.quiet rfl) (fit.confineds hgs.1 ha hata)).append
      (ih hgs.2 hb hatb)

theorem nil_groups (n : Nat) : GroupsFollow n [] := by
  intro env slots frames vs m code m' pc hi base _ _ _ _ _ _ skip
  exact ⟨hi, by simp [Entry], fun w mem _ hagrees => ⟨mem, hagrees, .refl _ _⟩⟩

/-- The entry of the first group is where the code starts. -/
theorem entry_zero {exits : Exits} (hgen : groupsCode gs base exits m = .ok (code, m'))
    (hat : code.At prog pc) (h : Entry prog base gs.length (pc + code.size) 0 q) : q = pc := by
  cases gs with
  | nil =>
    cases hgen
    simpa [Entry] using h
  | cons g gs =>
    obtain ⟨values, isDefault, body⟩ := g
    obtain ⟨a, m₁, ha, b, hb, rfl⟩ := groups_cons_ok.1 hgen
    have hplace : prog.place? (groupLabel base 0) = some q := by simpa [Entry] using h
    have hlabel : prog.place? (groupLabel base 0) = some pc := hat.1
    cases hplace.symm.trans hlabel
    rfl

/-- A group falls through to the next. -/
theorem cons_groups {values : List Int32} {isDefault : Bool} {body : List Stmt}
    (ihb : StmtsFollow n body) (ih : GroupsFollow n gs) :
    GroupsFollow n (.mk values isDefault body :: gs) := by
  intro env slots frames vs m code m' pc hi base fit ⟨hb, hgs⟩ hgen hat hhi hguard skip
  obtain ⟨a, m₁, ha, b, hgb, rfl⟩ := groups_cons_ok.1 hgen
  simp only [at_append, at_cons, Code.size_append, Code.size_cons, Item.size_label, Nat.add_zero,
    ← Nat.add_assoc] at hat hhi
  obtain ⟨⟨hlabel, hata⟩, hatb⟩ := hat
  have hconfa := fit.confineds hb ha hata
  have hconfb := fit.confined_groups hgs hgb hatb
  have hga : Guarded env.prog env.out pc a := by
    simpa using (hguard.left (by simpa using hconfb)).right (a := [.label _]) (.quiet rfl)
  have hgb' : Guarded env.prog env.out (pc + a.size) b := by
    simpa using hguard.right (Confined.append (a := [.label _]) (.quiet rfl) hconfa)
  cases skip with
  | succ skip =>
    obtain ⟨q, hentry, hfollows⟩ := ih fit hgs hgb hatb hhi hgb' skip
    refine ⟨q, ?_, hfollows⟩
    simpa [Entry, groupLabel_succ] using hentry
  | zero =>
    obtain ⟨q, hentry, hfollows⟩ := ih fit hgs hgb hatb hhi hgb' 0
    obtain rfl := entry_zero hgb hatb (hhi ▸ hentry)
    have hplace : env.prog.place? (groupLabel base 0) = some pc := hlabel
    refine ⟨pc, by simpa [Entry] using hplace, fun w mem hw hagrees => ?_⟩
    refine .andThen (ihb fit hb hw hagrees ha hata rfl hga) ?_
    intro w' mem' heq hagrees'
    have hsafe := fit.safes n hb hw
    rw [heq] at hsafe
    exact hfollows w' mem' (hw.keeps fit.vars hsafe.1) hagrees'

/-- The subject is pushed as a number. -/
theorem number_follows (fit : env.Fits slots frames vs) (hs : subject.Sound vs)
    (ht : subject.type = .int) {w : World} (hw : w.Typed vs) {mem : Memory}
    (hagrees : env.Agrees w mem) {a : Code} (hgen : subject.value m = .ok (a, m'))
    (hat : a.At env.prog pc) :
    Follows env.prog env.slots env.held pc (pc + a.size) ⟨pc, [], mem⟩
      ((eval subject >>= number) w) (fun _ => 0)
      fun key mem' => ⟨pc + a.size, [.int key], mem'⟩ := by
  refine .bind (eval_ends fit.vars hs hw) ((fit.simulates hs).value hw hgen hat rfl hagrees) ?_
  intro d w' mem' hd _ hagrees'
  rw [ht] at hd
  cases d with
  | int key => exact .pure hagrees' (.refl _ _)
  | _ => cases hd

theorem fallback_code (base : Nat) (gs : List SwitchGroup) (n : Nat) :
    Code.size (fallback base gs n).2.1 = 0 ∧ Code.handlers (fallback base gs n).2.1 = [] := by
  unfold fallback
  split <;> exact ⟨rfl, rfl⟩

theorem wayOut_code (frame : Frame) (n : Nat) :
    Code.size (wayOut frame n).2.1 = 0 ∧ Code.handlers (wayOut frame n).2.1 = [] := by
  unfold wayOut
  split <;> exact ⟨rfl, rfl⟩

theorem wayOut_place {l : Label} (hat : Code.At prog q (wayOut frame n).2.1)
    (hl : (wayOut frame n).1 = some l) : prog.place? l = some q := by
  unfold wayOut at hat hl
  cases hbreak : frame.hasBreak with
  | true =>
    rw [hbreak] at hat hl
    cases hl
    exact hat.1
  | false =>
    rw [hbreak] at hl
    cases hl

/-- The dispatch leads to the group where evaluation starts. -/
theorem switch_follows {line : Nat} (ih : GroupsFollow n gs) :
    StmtFollows n (.switch line frame subject gs) := by
  intro env slots frames vs w mem m code m' pc hi fit ⟨hkind, hs, ht, hnodup, hone, hgs⟩ hw hagrees
    hgen hat hhi hguard
  obtain ⟨a, m₁, ha, d, hd, o, ho, b, hb, rfl⟩ := switch_ok.1 hgen
  simp only [at_append, at_cons, Code.size_append, Code.size_cons, Code.size_nil,
    Item.size_dispatch, Nat.add_zero, ← Nat.add_assoc] at hat hhi
  obtain ⟨⟨⟨⟨hata, hdispatch, _⟩, hatb⟩, hatd⟩, hato⟩ := hat
  obtain ⟨hdsize, hdquiet⟩ := fallback_code m₁ gs (m₁ + gs.length)
  obtain ⟨hosize, hoquiet⟩ := wayOut_code frame d.2.2
  rw [← hd] at hdsize hdquiet
  rw [← ho] at hosize hoquiet
  rw [hdsize, Nat.add_zero] at hhi hato
  rw [hosize, Nat.add_zero] at hhi
  subst hhi
  have fit' := fit.inside (ho ▸ switch_serves hkind d.2.2 : Exit.Serves ⟨frame.id, o.1, none⟩ frame)
  have hquiet := (forms_quiet subject).value ha
  have hconfb : Confined env.prog (pc + a.size + 1) b := fit'.confined_groups hgs hb hatb
  have hfront := (hguard.left (.quiet hoquiet)).left (.quiet hdquiet)
  have hga := (hfront.left (by simpa [Nat.add_assoc] using hconfb)).left (.quiet rfl)
  have hgb : Guarded env.prog env.out (pc + a.size + 1) b := by
    simpa [Nat.add_assoc] using hfront.right ((Confined.quiet hquiet).append (.quiet rfl))
  refine .withValue (number_follows fit hs ht hw hagrees ha hata) (hga.quiet hquiet) ?_
  intro key w' mem' heq hagrees'
  have hends : Ends env.slots (eval subject >>= number) w fun _ => True :=
    (eval_ends fit.vars hs hw).bind fun d _ hd _ => (Ends.number (ht ▸ hd)).imp fun _ _ => trivial
  obtain ⟨q, hentry, hfollows⟩ := ih fit' hgs hb hatb rfl hgb (passed key gs)
  have hplace : env.prog.place? (chosen (casePairs m₁ gs) d.1 key) = some q := by
    rw [hd] at hatd ⊢
    exact dispatch_entry hone hatd hentry
  have hkeys : ((casePairs m₁ gs).map (·.1)).Nodup := casePairs_keys m₁ gs ▸ hnodup
  refine Result.Follows.after (Machine.goes_dispatch hdispatch hkeys hplace) ?_
  refine (hfollows w' mem' (hw.keeps fit.vars (hends.value heq).1) hagrees').upTo ?_ fun _ _ => rfl
  intro l hl
  rw [ho] at hato hl
  exact wayOut_place hato hl

end Meaning

end Jminus.Checked
