import Jminus.Proofs.Layout
import Mathlib

/-!
Sound statements have code, and it is laid out as it should be: its jumps stay inside it or lead to
the exits of the frames around it, and its handlers protect nothing outside it.
-/
namespace Jminus.Checked

open Code

def Exit.labels (e : Exit) : List Label := e.brk.toList ++ e.cont.toList

def Exits.labels (exits : Exits) : List Label := exits.flatMap Exit.labels

/-- An exit for a frame, with every place that a jump to the frame may ask for. -/
structure Exit.Serves (e : Exit) (f : Frame) : Prop where
  frame : e.frame = f.id
  brk : f.Breakable → e.brk.isSome = true
  cont : f.kind = .loop → e.cont.isSome = true

/-- Exits for the frames around a statement. -/
abbrev Exits.Serve (exits : Exits) (frames : List Frame) : Prop :=
  List.Forall₂ Exit.Serves exits frames

variable {exits : Exits} {target : Option Nat} {e : Exit} {l : Label} {frame : Frame}
  {vs : List Local} {base n n' : Nat} {groups : List SwitchGroup} {a : Code}

/-- A jump finds the exit of the frame that it names. -/
theorem Exits.Serve.ofFrame? {frames : List Frame} (h : exits.Serve frames) {f : Frame}
    (hf : Frame.named? frames target = some f) :
    ∃ e, exits.ofFrame? target = some e ∧ e.Serves f ∧ e ∈ exits := by
  cases target with
  | none => cases hf
  | some id =>
    simp only [Frame.named?, Exits.ofFrame?, Option.bind_some] at hf ⊢
    induction h with
    | nil => cases hf
    | @cons e g exits frames heg _ ih =>
      simp only [List.find?_cons, heg.frame] at hf ⊢
      by_cases hid : g.id = id
      · simp only [hid, decide_true, Option.some.injEq] at hf ⊢
        exact ⟨e, rfl, hf ▸ heg, List.mem_cons_self⟩
      · simp only [hid, decide_false] at hf ⊢
        obtain ⟨e', he', hserves, hmem⟩ := ih hf
        exact ⟨e', he', hserves, List.mem_cons_of_mem _ hmem⟩

theorem Exits.ofFrame?_mem (h : exits.ofFrame? target = some e) : e ∈ exits := by
  obtain ⟨id, rfl, h⟩ := Option.bind_eq_some_iff.1 h
  exact List.mem_of_find?_eq_some h

theorem Exits.brk_mem_labels (he : e ∈ exits) (hl : e.brk = some l) : l ∈ exits.labels :=
  List.mem_flatMap.2 ⟨e, he, by simp [Exit.labels, hl]⟩

theorem Exits.cont_mem_labels (he : e ∈ exits) (hl : e.cont = some l) : l ∈ exits.labels :=
  List.mem_flatMap.2 ⟨e, he, by simp [Exit.labels, hl]⟩

theorem Exits.labels_cons (e : Exit) (exits : Exits) :
    Exits.labels (e :: exits) = e.labels ++ exits.labels := rfl

theorem loop_serves (frame : Frame) (brk cont : Label) :
    Exit.Serves ⟨frame.id, some brk, some cont⟩ frame := ⟨rfl, fun _ => rfl, fun _ => rfl⟩

/-- The exit of a switch, which knows a way out only if there is a break. -/
theorem switch_serves (hkind : frame.kind = .switch) (n : Nat) :
    Exit.Serves ⟨frame.id, (wayOut frame n).1, none⟩ frame := by
  refine ⟨rfl, fun hb => ?_, fun h => ?_⟩
  · rcases hb with hb | hb
    · cases hkind.symm.trans hb
    · simp [wayOut, hb]
  · cases hkind.symm.trans h

/-- An expression is done for its effect and its value is popped. -/
theorem effect_lays (hvs : Storable vs) {e : Expr} (h : e.Sound vs) : Lays [] [] (effect e) := by
  intro n
  obtain ⟨c, n', hc, hlaid⟩ := (forms_lays hvs h).value n
  refine ⟨_, n', effect_ok.2 ⟨c, hc, rfl⟩, ?_⟩
  split
  · exact hlaid
  · exact hlaid.behind (by simp [Instruction.simple])

theorem effects_lays (hvs : Storable vs) {es : List Expr} (hes : Expr.AllSound vs es) :
    Lays [] [] (effects es) := by
  induction es with
  | nil => exact fun n => ⟨_, n, rfl, .plain _ rfl (by simp) (by simp)⟩
  | cons e es ih =>
    intro n
    obtain ⟨a, m, ha, hla⟩ := effect_lays hvs hes.1 n
    obtain ⟨b, n', hb, hlb⟩ := ih hes.2 m
    exact ⟨_, n', effects_cons_ok.2 ⟨a, m, ha, b, hb, rfl⟩, hla.append hlb⟩

/-- A test that is missing is no code. -/
theorem forTest_lays (hvs : Storable vs) {cond : Option Expr} (h : ∀ c ∈ cond, c.Condition vs)
    (target : Label) : Lays [target] [] (forTest cond target) := by
  cases cond with
  | none => exact fun n => ⟨_, n, rfl, .plain _ rfl (by simp) (by simp)⟩
  | some c => exact (forms_lays hvs (h c rfl).1).cond target false

/-- What the bodies of groups are made of: the labels of the groups, and their code. -/
def LaysGroups (groups : List SwitchGroup) (exits : Exits) : Prop :=
  ∀ base n, ∃ code n', groupsCode groups base exits n = .ok (code, n') ∧
    ∃ parts, Laid n n' exits.labels [] parts ∧
      bag (freshLabels base groups.length ++ parts) = bag code

/-- Catch blocks. Their entries in the table are about the try block, which lies elsewhere. -/
def LaysCatches (clauses : List CatchClause) (exits : Exits) (cleanup : Gen Code) : Prop :=
  ∀ last tryStart tryEnd n, ∃ code caught n',
    catchesCode clauses exits cleanup last tryStart tryEnd n = .ok ((code, caught), n') ∧
      Laid n n' (last :: exits.labels) [tryStart, tryEnd] code ∧
        ∀ c ∈ caught, Between n n' c.start ∧ Between n n' c.stop

def Caught.labels (c : Caught) : List Label := [c.start, c.stop]

@[simp] theorem placed_delays (start : Label) (cs : List Caught) :
    Code.placed (cs.map (delays start)) = [] := by
  induction cs with
  | nil => rfl
  | cons c cs ih => simpa [delays] using ih

@[simp] theorem jumps_delays (start : Label) (cs : List Caught) :
    Code.jumps (cs.map (delays start)) = [] := by
  induction cs with
  | nil => rfl
  | cons c cs ih => simpa [delays, Item.jumps] using ih

/-- The handler of a finally clause protects every range that it is given. -/
@[simp] theorem ranges_delays (start : Label) (cs : List Caught) :
    Code.ranges (cs.map (delays start)) = cs.flatMap fun c => [c.start, c.stop, start] := by
  induction cs with
  | nil => rfl
  | cons c cs ih => simpa [delays, Item.ranges] using ih

@[simp] theorem handlers_delays (start : Label) (cs : List Caught) :
    Code.handlers (cs.map (delays start)) = cs.map fun c => ⟨c.start, c.stop, start, ""⟩ := by
  induction cs with
  | nil => rfl
  | cons c cs ih => simpa [delays] using ih

/-- A finally clause that delays an exception is laid out behind all it protects. -/
theorem delayed_lays {cleanup : Cleanup} (h : Lays exits.labels [] (cleanupCode cleanup exits))
    (tryStart tryEnd : Label) (caught : List Caught) :
    Lays exits.labels ((⟨tryStart, tryEnd⟩ :: caught : List Caught).flatMap Caught.labels)
      (delayed cleanup exits tryStart tryEnd caught) := by
  intro n
  cases cleanup with
  | absent => exact ⟨_, n, rfl, .plain _ rfl (by simp) (by simp)⟩
  | mk slot body =>
    obtain ⟨f, n', hf, hlaid⟩ := h (n + 2)
    have hle := hlaid.le
    refine ⟨_, n', delay_ok.2 ⟨f, hf, rfl⟩, hlaid.enclose ([store .ref slot, load .ref slot,
      op .athrow] ++ (delayRanges tryStart tryEnd caught n).map (delays (.nth (n + 1)))) ?_ ?_ ?_ ?_⟩
    · simp [store, load, op]
    · simp only [freshLabels, bag_cons, bag_append, bag_nil]
      abel
    · simp +contextual [store, load, op, Item.jumps, Instruction.simple, Instruction.labels]
    · intro l hl
      have hstart : Between n n' (.nth (n + 1)) := by simp; omega
      have hstop : Between n n' (.nth (n + 2)) := by simp; omega
      simp only [store, load, op, ranges_append, ranges_cons, ranges_nil, ranges_delays,
        Item.ranges, List.nil_append, List.append_nil, List.mem_flatMap] at hl
      obtain ⟨c, hc, hl⟩ := hl
      simp only [delayRanges, List.mem_append, List.mem_singleton] at hc
      simp only [List.mem_cons, List.not_mem_nil, or_false] at hl
      rcases hc with hc | rfl
      · rcases hl with rfl | rfl | rfl
        · exact .inr (List.mem_flatMap.2 ⟨c, hc, by simp [Caught.labels]⟩)
        · exact .inr (List.mem_flatMap.2 ⟨c, hc, by simp [Caught.labels]⟩)
        · exact .inl hstart
      · rcases hl with rfl | rfl | rfl
        · exact .inl hstart
        · exact .inl hstop
        · exact .inl hstart

theorem groupLabel_succ (base i : Nat) : groupLabel base (i + 1) = groupLabel (base + 1) i := by
  simp only [groupLabel, Label.mk.injEq, Nat.cast_inj]
  omega

/-- The labels of groups are reserved for them. -/
theorem groupLabel_between {i k : Nat} (h : i < k) :
    Between base (base + k) (groupLabel base i) := by
  simp only [Between, groupLabel]
  omega

/-- A case leads to the label of a group. -/
theorem casePairs_labels {p : Int32 × Label} (h : p ∈ casePairs base groups) :
    Between base (base + groups.length) p.2 := by
  simp only [casePairs, List.mem_flatMap, List.mem_map, Prod.exists] at h
  obtain ⟨g, i, hgi, v, _, rfl⟩ := h
  exact groupLabel_between (List.mem_zipIdx' hgi).1

theorem defaultLabel?_between (h : defaultLabel? base groups = some l) :
    Between base (base + groups.length) l := by
  simp only [defaultLabel?, Option.map_eq_some_iff] at h
  obtain ⟨⟨g, i⟩, hlast, rfl⟩ := h
  have hmem := List.mem_of_getLast? hlast
  exact groupLabel_between (List.mem_zipIdx' (List.mem_filter.1 hmem).1).1

/-- The default label is that of a group or a new one. -/
theorem fallback_laid (base : Nat) (groups : List SwitchGroup) (n : Nat) (outs around : List Label) :
    Laid n (fallback base groups n).2.2 outs around (fallback base groups n).2.1 ∧
      (Between base (base + groups.length) (fallback base groups n).1 ∨
        Between n (fallback base groups n).2.2 (fallback base groups n).1) := by
  unfold fallback
  split
  · rename_i l hl
    exact ⟨.plain _ rfl (by simp) (by simp), .inl (defaultLabel?_between hl)⟩
  · exact ⟨.label n outs around, .inr (by simp)⟩

theorem wayOut_laid (frame : Frame) (n : Nat) (outs around : List Label) :
    Laid n (wayOut frame n).2.2 outs around (wayOut frame n).2.1 ∧
      ∀ l, (wayOut frame n).1 = some l → Between n (wayOut frame n).2.2 l := by
  unfold wayOut
  split
  · refine ⟨.label n outs around, fun l hl => ?_⟩
    cases hl
    simp
  · exact ⟨.plain _ rfl (by simp) (by simp), by simp⟩

theorem zero_ordinary (t : Ty) : Ordinary (zero t) := by
  unfold zero
  split <;> exact ⟨_, _, rfl, rfl⟩

/-- The parts of a switch make up the whole. -/
theorem switch_laid {m line : Nat} {b parts : Code} {d : Label × Code × Nat}
    {o : Option Label × Code × Nat} (hd : d = fallback m groups (m + groups.length))
    (ho : o = wayOut frame d.2.2) (ha : Laid n m [] [] a)
    (hbag : bag (freshLabels m groups.length ++ parts) = bag b)
    (hparts : Laid o.2.2 n' (Exits.labels (⟨frame.id, o.1, none⟩ :: exits)) [] parts) :
    Laid n n' exits.labels []
      (a ++ [.dispatch line (casePairs m groups) d.1] ++ b ++ d.2.1 ++ o.2.1) := by
  obtain ⟨hld, hdflt⟩ := fallback_laid m groups (m + groups.length) (o.1.toList ++ exits.labels) []
  obtain ⟨hlo, hbrk⟩ := wayOut_laid frame d.2.2 (o.1.toList ++ exits.labels) []
  rw [← hd] at hld hdflt
  rw [← ho] at hlo hbrk
  have hle := ha.le
  have hle₁ := hld.le
  have hle₂ := hlo.le
  have hle₃ := hparts.le
  have hall : Laid (n + 0) n' (o.1.toList ++ exits.labels) []
      (a ++ freshLabels m groups.length ++ d.2.1 ++ o.2.1 ++ parts) :=
    ((((ha.given (by simp) (by simp)).append (.labels m _ _ _)).append hld).append hlo).append
      (hparts.given (fun l hl => .inr (by simpa [Exits.labels_cons, Exit.labels] using hl)) (by simp))
  refine hall.enclose [.dispatch line (casePairs m groups) d.1] rfl ?_ ?_ (by simp [Item.ranges])
  · simp only [freshLabels, bag_cons, bag_append, bag_nil, ← hbag]
    abel
  · intro l hl
    simp only [jumps_cons, jumps_nil, Item.jumps, List.append_nil, List.mem_append, List.mem_cons,
      List.mem_map] at hl
    rcases hl with (hl | hl) | rfl | ⟨p, hp, rfl⟩
    · exact .inl ((hbrk l (Option.mem_toList.1 hl)).mono (by omega) (by omega))
    · exact .inr hl
    · rcases hdflt with h | h
      · exact .inl (h.mono (by omega) (by omega))
      · exact .inl (h.mono (by omega) (by omega))
    · exact .inl ((casePairs_labels hp).mono (by omega) (by omega))

theorem try_laid {m₁ m₂ m₃ : Nat} {outs : List Label} {f c d : Code} {caught : List Caught}
    (ha : Laid (n + 3) m₁ outs [] a) (hf : Laid m₁ m₂ outs [] f)
    (hc : Laid m₂ m₃ (.nth (n + 3) :: outs) [.nth (n + 1), .nth (n + 2)] c)
    (hcaught : ∀ c ∈ caught, Between m₂ m₃ c.start ∧ Between m₂ m₃ c.stop) (hd : Laid m₃ n' outs
      ((⟨.nth (n + 1), .nth (n + 2)⟩ :: caught : List Caught).flatMap Caught.labels) d) :
    Laid n n' outs [] ([.label (.nth (n + 1))] ++ a ++ [.label (.nth (n + 2))] ++ f ++
      [goto (.nth (n + 3))] ++ c ++ d ++ [.label (.nth (n + 3))]) := by
  have hle := ha.le
  have hle₁ := hf.le
  have hle₂ := hc.le
  have hle₃ := hd.le
  have hparts : Laid (n + 3) n' (.nth (n + 3) :: outs)
      ((⟨.nth (n + 1), .nth (n + 2)⟩ :: caught : List Caught).flatMap Caught.labels)
      (a ++ f ++ c ++ d) :=
    (((ha.given (by simp +contextual) (by simp)).append
      (hf.given (by simp +contextual) (by simp))).append
      (hc.given (by simp +contextual) (by simp [Caught.labels]))).append
      (hd.given (by simp +contextual) (by simp +contextual))
  refine hparts.enclose [goto (.nth (n + 3))] rfl ?_ ?_ ?_
  · simp only [freshLabels, bag_cons, bag_append, bag_nil]
    abel
  · simp +contextual [goto, Item.jumps, or_imp]
    omega
  · intro l hl
    simp only [goto, ranges_cons, ranges_nil, Item.ranges, List.append_nil, List.flatMap_cons,
      List.mem_append, List.mem_flatMap, Caught.labels, List.mem_cons, List.not_mem_nil,
      or_false] at hl
    rcases hl with (rfl | rfl) | ⟨k, hk, rfl | rfl⟩
    · exact .inl (between_nth.2 (by omega))
    · exact .inl (between_nth.2 (by omega))
    · exact .inl ((hcaught k hk).1.mono (by omega) hle₃)
    · exact .inl ((hcaught k hk).2.mono (by omega) hle₃)

mutual

/-- Every sound statement has code. -/
theorem stmtCode_lays {slots : Slots} : ∀ {s : Stmt} {frames : List Frame} {vs : List Local}
    {exits : Exits}, (∀ v ∈ vs, slots.Holds v) → exits.Serve frames → s.Sound slots frames vs →
      Lays exits.labels [] (stmtCode s exits)
  | .expr e, _, _, _, hvs, _, h => fun n => by
    obtain ⟨c, n', hc, hlaid⟩ := effect_lays (storable_of_holds hvs) h n
    exact ⟨c, n', hc, hlaid.given (by simp) (by simp)⟩
  | .var v none, _, _, _, _, _, _ => fun n =>
    ⟨_, n, rfl, Ordinary.laid (by simp [zero_ordinary])⟩
  | .var v (some init), _, _, _, hvs, _, ⟨_, h, _⟩ => fun n => by
    obtain ⟨c, n', hc, hlaid⟩ := (forms_lays (storable_of_holds hvs) h).value n
    exact ⟨_, n', var_ok.2 ⟨c, hc, rfl⟩, (hlaid.behind (by simp)).given (by simp) (by simp)⟩
  | .block body, _, _, _, hvs, hexits, h => stmtsCode_lays hvs hexits h
  | .ifElse cond thenBranch none, _, _, exits, hvs, hexits, ⟨hc, ht⟩ => fun n => by
    obtain ⟨a, m, ha, hla⟩ :=
      (forms_lays (storable_of_holds hvs) hc.1).cond (.nth (n + 1)) false (n + 1)
    obtain ⟨b, n', hb, hlb⟩ := stmtCode_lays hvs hexits ht m
    have hle := hla.le
    have hle' := hlb.le
    have hparts : Laid (n + 1) n' (.nth (n + 1) :: exits.labels) [] (a ++ b) :=
      (hla.given (by simp) (by simp)).append (hlb.given (by simp +contextual) (by simp))
    refine ⟨_, n', if_ok.2 ⟨a, m, ha, b, hb, rfl⟩, hparts.enclose [] rfl ?_ ?_ (by simp)⟩
    · simp only [freshLabels, bag_cons, bag_append, bag_nil]
      abel
    · simp +contextual
      omega
  | .ifElse cond thenBranch (some elseBranch), _, _, exits, hvs, hexits, ⟨hc, ht, he⟩ => fun n => by
    obtain ⟨a, m, ha, hla⟩ :=
      (forms_lays (storable_of_holds hvs) hc.1).cond (.nth (n + 1)) false (n + 1)
    obtain ⟨b, m', hb, hlb⟩ := stmtCode_lays hvs hexits ht m
    obtain ⟨c, n', hc, hlc⟩ := stmtCode_lays hvs hexits he (m' + 1)
    have hle := hla.le
    have hle' := hlb.le
    have hle'' := hlc.le
    have hparts : Laid (n + 1) n' (.nth (n + 1) :: exits.labels) []
        (a ++ b ++ [.label (.nth (m' + 1))] ++ c) :=
      (((hla.given (by simp) (by simp)).append (hlb.given (by simp +contextual) (by simp))).append
        (.label m' _ _)).append (hlc.given (by simp +contextual) (by simp))
    refine ⟨_, n', ifElse_ok.2 ⟨a, m, ha, b, m', hb, c, hc, rfl⟩,
      hparts.enclose [goto (.nth (m' + 1))] rfl ?_ ?_ (by simp [goto, Item.ranges])⟩
    · simp only [freshLabels, bag_cons, bag_append, bag_nil]
      abel
    · simp +contextual [goto, Item.jumps, or_imp, forall_and]
      omega
  | .whileLoop frame cond body, frames, _, exits, hvs, hexits, ⟨_, hc, hb⟩ => fun n => by
    obtain ⟨a, m, ha, hla⟩ :=
      (forms_lays (storable_of_holds hvs) hc.1).cond (.nth (n + 3)) false (n + 3)
    obtain ⟨b, n', hb, hlb⟩ := stmtCode_lays hvs
      (.cons (loop_serves frame (.nth (n + 3)) (.nth (n + 2))) hexits) hb m
    have hle := hla.le
    have hle' := hlb.le
    rw [Exits.labels_cons] at hlb
    have hparts : Laid (n + 3) n' (.nth (n + 3) :: .nth (n + 2) :: exits.labels) [] (a ++ b) :=
      (hla.given (by simp) (by simp)).append hlb
    refine ⟨_, n', while_ok.2 ⟨a, m, ha, b, hb, rfl⟩,
      hparts.enclose [goto (.nth (n + 1))] rfl ?_ ?_ (by simp [goto, Item.ranges])⟩
    · simp only [freshLabels, bag_cons, bag_append, bag_nil]
      abel
    · simp +contextual [goto, Item.jumps, or_imp, forall_and]
      omega
  | .doLoop frame body cond, frames, _, exits, hvs, hexits, ⟨_, hb, hc⟩ => fun n => by
    obtain ⟨b, m, hb, hlb⟩ := stmtCode_lays hvs
      (.cons (loop_serves frame (.nth (n + 3)) (.nth (n + 2))) hexits) hb (n + 3)
    obtain ⟨a, n', ha, hla⟩ :=
      (forms_lays (storable_of_holds hvs) hc.1).cond (.nth (n + 1)) true m
    have hle := hla.le
    have hle' := hlb.le
    rw [Exits.labels_cons] at hlb
    have hparts : Laid (n + 3) n'
        (.nth (n + 1) :: .nth (n + 3) :: .nth (n + 2) :: exits.labels) [] (b ++ a) :=
      (hlb.given (fun l hl => .inr (List.mem_cons_of_mem _ hl)) (by simp)).append
        (hla.given (by simp) (by simp))
    refine ⟨_, n', do_ok.2 ⟨b, m, hb, a, ha, rfl⟩, hparts.enclose [] rfl ?_ ?_ (by simp)⟩
    · simp only [freshLabels, bag_cons, bag_append, bag_nil]
      abel
    · simp +contextual [or_imp, forall_and]
      omega
  | .brk line target, frames, _, exits, _, hexits, ⟨f, hf, hb⟩ => fun n => by
    obtain ⟨e, he, hserves, hmem⟩ := hexits.ofFrame? hf
    obtain ⟨l, hl⟩ := Option.isSome_iff_exists.1 (hserves.brk hb)
    have hout := Exits.brk_mem_labels hmem hl
    refine ⟨[goto l], n, by simp [stmtCode, he, hl, pure_ok],
      .plain _ rfl (by simp [goto, Item.jumps, hout]) (by simp [goto, Item.ranges])⟩
  | .cont line target, frames, _, exits, _, hexits, ⟨f, hf, hk⟩ => fun n => by
    obtain ⟨e, he, hserves, hmem⟩ := hexits.ofFrame? hf
    obtain ⟨l, hl⟩ := Option.isSome_iff_exists.1 (hserves.cont hk)
    have hout := Exits.cont_mem_labels hmem hl
    refine ⟨[goto l], n, by simp [stmtCode, he, hl, pure_ok],
      .plain _ rfl (by simp [goto, Item.jumps, hout]) (by simp [goto, Item.ranges])⟩
  | .ret, _, _, _, _, _, _ => fun n =>
    ⟨_, n, rfl, Ordinary.laid (by simp [Instruction.simple])⟩
  | .throw value, _, _, _, hvs, _, ⟨h, _⟩ => fun n => by
    obtain ⟨c, n', hc, hlaid⟩ := (forms_lays (storable_of_holds hvs) h).value n
    exact ⟨_, n', throw_code_ok.2 ⟨c, hc, rfl⟩,
      (hlaid.behind (by simp [Instruction.simple])).given (by simp) (by simp)⟩
  | .empty, _, _, _, _, _, _ => fun n => ⟨_, n, rfl, .plain _ rfl (by simp) (by simp)⟩
  | .forLoop frame init cond update body, frames, vs, exits, hvs, hexits,
      ⟨_, _, hi, hc, hu, hb⟩ => fun n => by
    have hvs' := holds_inSight hvs hi
    have hserve := List.Forall₂.cons (loop_serves frame (.nth (n + 3)) (.nth (n + 2))) hexits
    obtain ⟨i, m₁, hi, hli⟩ := stmtsCode_lays hvs hserve hi (n + 3)
    obtain ⟨a, m₂, ha, hla⟩ := forTest_lays (storable_of_holds hvs') hc (.nth (n + 3)) m₁
    obtain ⟨b, m₃, hb, hlb⟩ := stmtCode_lays hvs' hserve hb m₂
    obtain ⟨u, n', hu, hlu⟩ := effects_lays (storable_of_holds hvs') hu m₃
    have hle := hli.le
    have hle₁ := hla.le
    have hle₂ := hlb.le
    have hle₃ := hlu.le
    rw [Exits.labels_cons] at hli hlb
    have hparts : Laid (n + 3) n' (.nth (n + 3) :: .nth (n + 2) :: exits.labels) []
        (i ++ a ++ b ++ u) :=
      ((hli.append (hla.given (by simp [Exit.labels]) (by simp))).append hlb).append
        (hlu.given (by simp) (by simp))
    refine ⟨_, n', for_ok.2 ⟨i, m₁, hi, a, m₂, ha, b, m₃, hb, u, hu, rfl⟩,
      hparts.enclose [goto (.nth (n + 1))] rfl ?_ ?_ (by simp [goto, Item.ranges])⟩
    · simp only [freshLabels, bag_cons, bag_append, bag_nil]
      abel
    · simp +contextual [goto, Item.jumps, or_imp, forall_and]
      omega
  | .switch line frame subject groups, frames, vs, exits, hvs, hexits, ⟨hk, hs, _, _, _, hg⟩ =>
      fun n => by
    obtain ⟨a, m, ha, hla⟩ := (forms_lays (storable_of_holds hvs) hs).value n
    have hserve := List.Forall₂.cons
      (switch_serves hk (fallback m groups (m + groups.length)).2.2) hexits
    obtain ⟨b, n', hb, parts, hlb, hbag⟩ := groupsCode_lays hvs hserve hg m
      (wayOut frame (fallback m groups (m + groups.length)).2.2).2.2
    refine ⟨_, n', switch_ok.2 ⟨a, m, ha, _, rfl, _, rfl, b, hb, rfl⟩, ?_⟩
    exact switch_laid rfl rfl hla hbag hlb
  | .tryCatch body catches cleanup, frames, vs, exits, hvs, hexits, ⟨hb, hc, hf⟩ => fun n => by
    obtain ⟨a, m₁, ha, hla⟩ := stmtsCode_lays hvs hexits hb (n + 3)
    have hcleanup := cleanupCode_lays hvs hexits hf
    obtain ⟨f, m₂, hf, hlf⟩ := hcleanup m₁
    obtain ⟨c, caught, m₃, hc, hlc, hcaught⟩ :=
      catchesCode_lays hvs hexits hcleanup hc (.nth (n + 3)) (.nth (n + 1)) (.nth (n + 2)) m₂
    obtain ⟨d, n', hd, hld⟩ := delayed_lays hcleanup (.nth (n + 1)) (.nth (n + 2)) caught m₃
    refine ⟨_, n', try_ok.2 ⟨a, m₁, ha, f, m₂, hf, c, caught, m₃, hc, d, hd, rfl⟩, ?_⟩
    exact try_laid hla hlf hlc hcaught hld

theorem stmtsCode_lays {slots : Slots} : ∀ {ss : List Stmt} {frames : List Frame}
    {vs : List Local} {exits : Exits}, (∀ v ∈ vs, slots.Holds v) → exits.Serve frames →
      Stmt.AllSound slots frames vs ss → Lays exits.labels [] (stmtsCode ss exits)
  | [], _, _, _, _, _, _ => fun n => ⟨_, n, rfl, .plain _ rfl (by simp) (by simp)⟩
  | s :: ss, _, _, _, hvs, hexits, ⟨hs, hss⟩ => fun n => by
    obtain ⟨a, m, ha, hla⟩ := stmtCode_lays hvs hexits hs n
    obtain ⟨b, n', hb, hlb⟩ := stmtsCode_lays (holds_declares hvs hs) hexits hss m
    exact ⟨_, n', stmts_cons_ok.2 ⟨a, m, ha, b, hb, rfl⟩, hla.append hlb⟩

theorem groupsCode_lays {slots : Slots} : ∀ {gs : List SwitchGroup} {frames : List Frame}
    {vs : List Local} {exits : Exits}, (∀ v ∈ vs, slots.Holds v) → exits.Serve frames →
      SwitchGroup.AllSound slots frames vs gs → LaysGroups gs exits
  | [], _, _, _, _, _, _ => fun base n =>
    ⟨_, n, rfl, [], .plain _ rfl (by simp) (by simp), rfl⟩
  | .mk values isDefault body :: groups, _, _, _, hvs, hexits, ⟨hg, hgs⟩ => fun base n => by
    obtain ⟨a, m, ha, hla⟩ := stmtsCode_lays hvs hexits hg n
    obtain ⟨b, n', hb, parts, hlb, hbag⟩ := groupsCode_lays hvs hexits hgs (base + 1) m
    refine ⟨_, n', groups_cons_ok.2 ⟨a, m, ha, b, hb, rfl⟩, a ++ parts, hla.append hlb, ?_⟩
    simp only [List.length_cons, freshLabels, groupLabel, bag_cons, bag_append, ← hbag]
    abel

theorem catchesCode_lays {slots : Slots} : ∀ {cs : List CatchClause} {frames : List Frame}
    {vs : List Local} {exits : Exits} {cleanup : Gen Code}, (∀ v ∈ vs, slots.Holds v) →
      exits.Serve frames → Lays exits.labels [] cleanup → CatchClause.AllSound slots frames vs cs →
      LaysCatches cs exits cleanup
  | [], _, _, _, _, _, _, _, _ => fun last tryStart tryEnd n =>
    ⟨_, _, n, rfl, .plain _ rfl (by simp) (by simp), by simp⟩
  | .mk param body :: clauses, _, _, exits, cleanup, hvs, hexits, hcleanup, ⟨hp, _, hb, hcs⟩ =>
      fun last tryStart tryEnd n => by
    obtain ⟨a, m₁, ha, hla⟩ := stmtsCode_lays (holds_cons hp hvs) hexits hb (n + 2)
    obtain ⟨f, m₂, hf, hlf⟩ := hcleanup m₁
    obtain ⟨c, more, n', hc, hlc, hmore⟩ :=
      catchesCode_lays hvs hexits hcleanup hcs last tryStart tryEnd m₂
    have hle := hla.le
    have hle₁ := hlf.le
    have hle₂ := hlc.le
    refine ⟨_, _, n', catches_cons_ok.2 ⟨a, m₁, ha, f, m₂, hf, c, more, hc, rfl, rfl⟩, ?_, ?_⟩
    · have hparts : Laid (n + 2) n' (last :: exits.labels) [tryStart, tryEnd] (a ++ f ++ c) :=
        ((hla.given (by simp +contextual) (by simp)).append
          (hlf.given (by simp +contextual) (by simp))).append hlc
      refine hparts.enclose [store param.type.cell param.slot, goto last,
        .handler ⟨tryStart, tryEnd, .nth (n + 1), param.type.path⟩] rfl ?_ ?_ ?_
      · simp only [freshLabels, bag_cons, bag_append, bag_nil]
        abel
      · simp +contextual [store, goto, Item.jumps, Instruction.simple, Instruction.labels, or_imp]
      · simp +contextual [store, goto, Item.ranges, or_imp]
        omega
    · intro k hk
      rcases List.mem_cons.1 hk with rfl | hk
      · constructor
        · simp
          omega
        · simp
          omega
      · obtain ⟨hstart, hstop⟩ := hmore k hk
        exact ⟨hstart.mono (by omega) (le_refl n'), hstop.mono (by omega) (le_refl n')⟩

theorem cleanupCode_lays {slots : Slots} : ∀ {c : Cleanup} {frames : List Frame}
    {vs : List Local} {exits : Exits}, (∀ v ∈ vs, slots.Holds v) → exits.Serve frames →
      c.Sound slots frames vs → Lays exits.labels [] (cleanupCode c exits)
  | .absent, _, _, _, _, _, _ => fun n => ⟨_, n, rfl, .plain _ rfl (by simp) (by simp)⟩
  | .mk _ _, _, _, _, hvs, hexits, ⟨_, hb⟩ =>
    stmtsCode_lays hvs hexits (.mono (List.take_prefix _ _) (.refl _) hb)

end

/-- A sound program has code, without a jump out of it. -/
theorem programCode_lays {slots : Slots} {program : List Stmt}
    (h : Stmt.AllSound slots [] [] program) : Lays [] [] (programCode program) := by
  intro n
  obtain ⟨c, n', hc, hlaid⟩ := stmtsCode_lays (by simp) .nil h n
  exact ⟨_, n', program_ok.2 ⟨c, hc, rfl⟩, hlaid.behind (by simp [Instruction.simple])⟩

end Jminus.Checked
