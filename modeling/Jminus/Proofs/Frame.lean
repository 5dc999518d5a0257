import Jminus.Machine
import Mathlib

/-!
What an instruction can change.

Only a store changes a local, and only a jump or a return changes where the machine goes on. All
other instructions touch the stack, the output and the number of objects. Only a jump fails because of
a label.
-/
namespace Jminus.Machine

def isUnplaced : Fault → Bool
  | .unplaced _ => true
  | _ => false

/-- What fails for reasons other than a label. -/
def Labelless {α : Type} (r : Except Fault α) : Prop := ∀ f, r = .error f → isUnplaced f = false

namespace Labelless

theorem ok {α : Type} (a : α) : Labelless (.ok a) := by
  intro f h
  cases h

theorem error {α : Type} {f : Fault} (hf : isUnplaced f = false) :
    Labelless (.error f : Except Fault α) := by
  intro g h
  cases h
  exact hf

/-- Neither part of a computation fails for a label. -/
theorem bind {α β : Type} {r : Except Fault α} {k : α → Except Fault β} (hr : Labelless r)
    (hk : ∀ a, Labelless (k a)) : Labelless (r >>= k) := by
  cases r with
  | ok a => exact hk a
  | error f => exact error (hr f rfl)

theorem format (v : Value) (t : Ty) : Labelless (v.format t) := by
  unfold Value.format
  split <;> split <;> first | exact ok _ | exact error rfl

theorem ofInts (op : Opcode) (a b : Int32) : Labelless (Arithmetic.ofInts op a b) := by
  unfold Arithmetic.ofInts
  split
  · unfold Arithmetic.int
    split <;> try split
    all_goals first | exact ok _ | exact error rfl
  · exact ok _
  · exact ok _
  · exact error rfl

theorem ofLongs (op : Opcode) (a b : Int64) : Labelless (Arithmetic.ofLongs op a b) := by
  unfold Arithmetic.ofLongs
  split
  · unfold Arithmetic.long
    split <;> try split
    all_goals first | exact ok _ | exact error rfl
  · exact ok _
  · exact error rfl

theorem ofShift (op : Opcode) (a : Int64) (b : Int32) : Labelless (Arithmetic.ofShift op a b) := by
  unfold Arithmetic.ofShift
  split
  · exact ok _
  · exact error rfl

theorem ofDoubles (op : Opcode) (a b : Float) : Labelless (Arithmetic.ofDoubles op a b) := by
  unfold Arithmetic.ofDoubles
  split
  · exact ok _
  · exact error rfl

theorem firstType (cs : List Char) : Labelless (Method.firstType cs) := by
  unfold Method.firstType
  split
  · exact error rfl
  · split
    · split
      · exact error rfl
      · split
        · exact ok _
        · exact error rfl
    · split
      · exact ok _
      · exact error rfl

theorem paramTypes (cs : List Char) : Labelless (Method.paramTypes cs) := by
  fun_induction Method.paramTypes cs with
  | case1 => exact ok _
  | case2 cs _ f hfirst => exact error (firstType cs f hfirst)
  | case3 cs _ t rest hfirst f hmore ih => exact error (ih f hmore)
  | case4 => exact ok _

theorem types (m : Method) : Labelless m.types := by
  rw [m.types_eq]
  unfold Method.parseDescriptor
  split
  · exact (paramTypes _).bind fun _ => (firstType _).bind fun _ => ok _
  · exact error rfl

end Labelless

variable {v : Value} {rest : List Value} {slot : Int} {l : Label} {pc : Nat} {r : Option Thrown}
  {arg : Operand} {x : Thrown} {ins : Instruction} {s : Stop} {k : Handler} {cls : Class}

/-- Two actions succeed if the first does and then the second. -/
theorem run_bind_ok {α β : Type} {a : Action α} {f : α → Action β} {m m' : Machine} {b : β}
    (h : (a >>= f).run m = .ok b m') : ∃ x m₁, a.run m = .ok x m₁ ∧ (f x).run m₁ = .ok b m' := by
  rw [EStateM.run_bind] at h
  cases hfirst : a.run m with
  | ok x m₁ =>
    rw [hfirst] at h
    exact ⟨x, m₁, rfl, h⟩
  | error e m₁ =>
    rw [hfirst] at h
    cases h

theorem pop_run {m : Machine} (h : m.stack = v :: rest) :
    Machine.pop.run m = .ok v { m with stack := rest } := by
  simp only [Machine.pop, EStateM.run, h]

theorem pop_empty {m : Machine} (h : m.stack = []) :
    Machine.pop.run m = .error (.stackUnderflow (m.pc - 1)) m := by
  simp only [Machine.pop, EStateM.run, h]

theorem pop_ok {m m' : Machine} (h : Machine.pop.run m = .ok v m') :
    ∃ rest, m.stack = v :: rest ∧ m' = { m with stack := rest } := by
  cases hs : m.stack with
  | nil => cases (pop_empty hs).symm.trans h
  | cons w rest =>
    cases (pop_run hs).symm.trans h
    exact ⟨rest, rfl, rfl⟩

theorem load_below (m : Machine) (h : slot < 0) :
    (Machine.load slot).run m = .error .outOfBounds m := by
  simp only [Machine.load, h, if_true]
  rfl

/-- A load pushes the local, if there is one. -/
theorem load_run (m : Machine) (h : ¬ slot < 0) :
    (Machine.load slot).run m = match m.locals[slot.toNat]? with
      | some v => .ok () { m with stack := v :: m.stack }
      | none => .error .outOfBounds m := by
  simp only [Machine.load, h, if_false, EStateM.run_bind, EStateM.run_get]
  cases m.locals[slot.toNat]? with
  | some v => rfl
  | none => rfl

theorem store_run (slot : Int) (v : Value) (m : Machine) :
    (Machine.store slot v).run m =
      if 0 ≤ slot ∧ slot.toNat < m.locals.size then
        .ok () { m with locals := m.locals.setIfInBounds slot.toNat v }
      else .error .outOfBounds m := by
  simp only [Machine.store, EStateM.run_bind, EStateM.run_get]
  split
  · rfl
  · rfl

/-- A relation between machines that allows any stack, more output and more objects, with a class of
faults that leaves out no more than labels without a place. -/
structure Lax (R : Machine → Machine → Prop) (E : Fault → Prop) : Prop where
  refl : ∀ m, R m m
  trans : ∀ {m m' m''}, R m m' → R m' m'' → R m m''
  stack : ∀ m stack, R m { m with stack }
  print : ∀ m text, R m { m with output := text :: m.output }
  create : ∀ m, R m { m with made := m.made + 1 }
  fault : ∀ f, isUnplaced f = false → E f

/-- An action relates the machine before it to the one behind it, whether or not it fails, and its
faults are of a class. -/
def Keeps (R : Machine → Machine → Prop) (E : Fault → Prop) {α : Type} (a : Action α) : Prop :=
  ∀ m, match a.run m with
    | .ok _ m' => R m m'
    | .error f m' => R m m' ∧ E f

namespace Keeps

variable {R : Machine → Machine → Prop} {E : Fault → Prop} {α β : Type}

variable {a : Action α} {m m' : Machine}

/-- Success means that the machines are related. -/
theorem ok (h : Keeps R E a) {r : α} (hrun : a.run m = .ok r m') : R m m' := by
  have hkept := h m
  rw [hrun] at hkept
  exact hkept

theorem error (h : Keeps R E a) {f : Fault} (hrun : a.run m = .error f m') : R m m' ∧ E f := by
  have hkept := h m
  rw [hrun] at hkept
  exact hkept

theorem pure (hR : Lax R E) (a : α) : Keeps R E (pure a : Action α) := fun m => hR.refl m

theorem throw (hR : Lax R E) {f : Fault} (hf : isUnplaced f = false) : Keeps R E (throw f : Action α) :=
  fun m => ⟨hR.refl m, hR.fault f hf⟩

/-- What two actions keep, one behind the other keeps. -/
theorem bind (hR : Lax R E) {f : α → Action β} (ha : Keeps R E a) (hf : ∀ x, Keeps R E (f x)) :
    Keeps R E (a >>= f) := by
  intro m
  rw [EStateM.run_bind]
  cases h : a.run m with
  | ok x m' =>
    dsimp only
    have hfirst := ha.ok h
    cases h' : (f x).run m' with
    | ok y m'' => exact hR.trans hfirst ((hf x).ok h')
    | error e m'' =>
      have hnext := (hf x).error h'
      exact ⟨hR.trans hfirst hnext.1, hnext.2⟩
  | error e m' => exact ha.error h

/-- A computation beside the machine keeps everything. -/
theorem lift (hR : Lax R E) {r : Except Fault α} (hr : Labelless r) : Keeps R E (Machine.lift r) := by
  cases r with
  | ok a => exact pure hR a
  | error f => exact throw hR (hr f rfl)

section Actions

variable (hR : Lax R E)
include hR

theorem push (v : Value) : Keeps R E (Machine.push v) := fun m => hR.stack m _

theorem print (s : String) : Keeps R E (Machine.print s) := fun m => hR.print m s

theorem create (cls : Class) : Keeps R E (Machine.create cls) := fun m => hR.create m

theorem pop : Keeps R E Machine.pop := by
  intro m
  cases hs : m.stack with
  | nil =>
    rw [pop_empty hs]
    exact ⟨hR.refl m, hR.fault _ rfl⟩
  | cons v rest =>
    rw [pop_run hs]
    exact hR.stack m rest

theorem popInt : Keeps R E Machine.popInt := by
  apply bind hR (pop hR)
  intro v
  cases v with
  | int n => exact pure hR n
  | _ => exact throw hR rfl

theorem popLong : Keeps R E Machine.popLong := by
  apply bind hR (pop hR)
  intro v
  cases v with
  | long n => exact pure hR n
  | _ => exact throw hR rfl

theorem popDouble : Keeps R E Machine.popDouble := by
  apply bind hR (pop hR)
  intro v
  cases v with
  | double n => exact pure hR n
  | _ => exact throw hR rfl

theorem popFor (ts : List Ty) : Keeps R E (Machine.popFor ts) := by
  induction ts with
  | nil => exact pure hR []
  | cons t ts ih => exact bind hR ih fun _ => bind hR (pop hR) fun _ => pure hR _

theorem slotOf (arg : Operand) : Keeps R E (Machine.slotOf arg) := by
  unfold Machine.slotOf
  split
  · exact pure hR _
  · exact throw hR rfl

theorem load (slot : Int) : Keeps R E (Machine.load slot) := by
  intro m
  by_cases h : slot < 0
  · rw [load_below m h]
    exact ⟨hR.refl m, hR.fault _ rfl⟩
  · rw [load_run m h]
    cases m.locals[slot.toNat]? with
    | none => exact ⟨hR.refl m, hR.fault _ rfl⟩
    | some v => exact hR.stack m _

theorem call (b : Builtin) (args : List (Value × Ty)) : Keeps R E (b.call args) := by
  unfold Builtin.call
  split
  · exact bind hR (print hR _) fun _ => pure hR _
  · exact bind hR (lift hR (.format _ _)) fun _ => bind hR (print hR _) fun _ => pure hR _
  · exact bind hR (lift hR (.format _ _)) fun _ => bind hR (print hR _) fun _ => pure hR _
  · apply bind hR (lift hR (.format _ _))
    intro left
    split
    · exact bind hR (lift hR (.format _ _)) fun _ => pure hR _
    · exact throw hR rfl
  · exact throw hR rfl

/-- A call takes its arguments and may print. -/
theorem invoke (m : Method) : Keeps R E (Machine.invoke m) := by
  unfold Machine.invoke
  split
  · exact throw hR rfl
  · apply bind hR (lift hR (.types m))
    intro types
    apply bind hR (popFor hR _)
    intro args
    apply bind hR (call hR _ _)
    intro v
    split
    · exact push hR _
    · exact pure hR _

theorem compute (op : Opcode) (kind : Num) : Keeps R E (Machine.compute op kind) := by
  cases kind with
  | int =>
    apply bind hR (popInt hR)
    intro b
    apply bind hR (popInt hR)
    intro a
    dsimp only
    split
    · exact bind hR (create hR _) fun _ => pure hR _
    · exact bind hR (lift hR (.ofInts op a b)) fun _ => bind hR (push hR _) fun _ => pure hR _
  | long =>
    apply bind hR (popLong hR)
    intro b
    apply bind hR (popLong hR)
    intro a
    dsimp only
    split
    · exact bind hR (create hR _) fun _ => pure hR _
    · exact bind hR (lift hR (.ofLongs op a b)) fun _ => bind hR (push hR _) fun _ => pure hR _
  | double =>
    exact bind hR (popDouble hR) fun b => bind hR (popDouble hR) fun a =>
      bind hR (lift hR (.ofDoubles op a b)) fun _ => bind hR (push hR _) fun _ => pure hR _

end Actions

end Keeps

/-- Every plain instruction but a store or a return. -/
theorem plain_keeps {R : Machine → Machine → Prop} {E : Fault → Prop} (hR : Lax R E) (code : Listing) {op : Opcode}
    (arg : Operand) (hstore : ∀ cell, op ≠ .store cell) (hret : op ≠ .ret) :
    Keeps R E (plain code op arg) := by
  -- most instructions take their operands and then push
  have pushes : ∀ v, Keeps R E (push v >>= fun _ => Pure.pure (none : Option Thrown)) := fun v =>
    .bind hR (.push hR v) fun _ => .pure hR none
  cases op with
  | nop => exact .pure hR none
  | aconstNull => exact pushes _
  | ldc =>
    unfold plain
    cases arg with
    | absent => exact pushes _
    | unresolved => exact pushes _
    | const v => exact pushes _
  | load cell => exact .bind hR (.slotOf hR arg) fun s => .bind hR (.load hR s) fun _ => .pure hR none
  | store cell => exact absurd rfl (hstore cell)
  | pop => exact .bind hR (.pop hR) fun _ => .pure hR none
  | dup => exact .bind hR (.pop hR) fun v => .bind hR (.push hR v) fun _ => pushes v
  | arith kind op => exact .compute hR _ kind
  | neg kind =>
    cases kind with
    | int => exact .bind hR (.popInt hR) fun _ => pushes _
    | long => exact .bind hR (.popLong hR) fun _ => pushes _
    | double => exact .bind hR (.popDouble hR) fun _ => pushes _
  | shift width op =>
    cases width with
    | int => exact .compute hR _ .int
    | long =>
      exact .bind hR (.popInt hR) fun b => .bind hR (.popLong hR) fun a =>
        .bind hR (.lift hR (.ofShift _ a b)) fun _ => pushes _
  | bit width op =>
    cases width with
    | int => exact .compute hR _ .int
    | long => exact .compute hR _ .long
  | lcmp => exact .bind hR (.popLong hR) fun _ => .bind hR (.popLong hR) fun _ => pushes _
  | dcmpl => exact .bind hR (.popDouble hR) fun _ => .bind hR (.popDouble hR) fun _ => pushes _
  | dcmpg => exact .bind hR (.popDouble hR) fun _ => .bind hR (.popDouble hR) fun _ => pushes _
  | branch b => exact .throw hR rfl
  | tableSwitch => exact .throw hR rfl
  | lookupSwitch => exact .throw hR rfl
  | new =>
    simp only [plain]
    split
    · split
      · exact .bind hR (.create hR _) fun _ => pushes _
      · exact .throw hR rfl
    · exact .throw hR rfl
  | athrow =>
    apply Keeps.bind hR (.pop hR)
    intro v
    cases v with
    | null => exact .bind hR (.create hR _) fun _ => .pure hR _
    | object id cls => exact .pure hR _
    | _ => exact .throw hR rfl
  | invokeStatic =>
    simp only [plain]
    split
    · exact .bind hR (.invoke hR _) fun _ => .pure hR none
    · exact .throw hR rfl
    · exact .throw hR rfl
  | ret => exact absurd rfl hret
  | undefined => exact .throw hR rfl

variable {code : Listing}

theorem jump_run (m : Machine) (h : code.place? l = some pc) :
    (jump code l).run m = .ok () { m with pc } := by
  simp only [jump, Listing.pcOf, h]
  rfl

theorem jump_unplaced (m : Machine) (h : code.place? l = none) :
    (jump code l).run m = .error (.unplaced l) m := by
  simp only [jump, Listing.pcOf, h]
  rfl

/-- A jump goes to the place of its label and changes nothing else. -/
theorem jump_ok {m m' : Machine} {u : Unit} (h : (jump code l).run m = .ok u m') :
    ∃ pc, code.place? l = some pc ∧ m' = { m with pc } := by
  cases hl : code.place? l with
  | none => cases (jump_unplaced m hl).symm.trans h
  | some pc =>
    cases (jump_run m hl).symm.trans h
    exact ⟨pc, rfl, rfl⟩

/-- A lookup leads to a case or to the default. -/
theorem lookupTarget_mem (dflt : Label) (pairs : List (Int32 × Label)) (key : Int32) :
    lookupTarget dflt pairs key ∈ dflt :: pairs.map (·.2) := by
  unfold lookupTarget
  split
  · rename_i v target hfind
    split
    · exact List.mem_cons_of_mem _ (List.mem_map.2 ⟨_, List.mem_of_find?_eq_some hfind, rfl⟩)
    · exact List.mem_cons_self
  · exact List.mem_cons_self

section Keeps

variable {R : Machine → Machine → Prop} {E : Fault → Prop} (hR : Lax R E)
include hR

/-- A jump keeps what does not depend on the place. -/
theorem Keeps.jump {l : Label} (hplaced : ∀ m pc, code.place? l = some pc → R m { m with pc })
    (hmissing : code.place? l = none → E (.unplaced l)) : Keeps R E (jump code l) := by
  intro m
  cases hl : code.place? l with
  | none =>
    rw [jump_unplaced m hl]
    exact ⟨hR.refl m, hmissing hl⟩
  | some pc =>
    rw [jump_run m hl]
    exact hplaced m pc hl

theorem Keeps.store (hlocals : ∀ m locals, R m { m with locals }) (slot : Int) (v : Value) :
    Keeps R E (store slot v) := by
  intro m
  by_cases hin : 0 ≤ slot ∧ slot.toNat < m.locals.size
  · rw [store_run, if_pos hin]
    exact hlocals m _
  · rw [store_run, if_neg hin]
    exact ⟨hR.refl m, hR.fault _ rfl⟩

/-- A branch pops its operands and perhaps jumps. -/
theorem takeBranch_keeps (b : Branch) {target : Label} (hjump : Keeps R E (jump code target)) :
    Keeps R E (takeBranch code b target) := by
  have hif : ∀ c : Prop, ∀ _ : Decidable c,
      Keeps R E (if c then jump code target else Pure.pure ()) := by
    intro c _
    split
    · exact hjump
    · exact .pure hR _
  cases b with
  | ifZero rel => exact .bind hR (.popInt hR) fun a => hif _ _
  | ifInt rel => exact .bind hR (.popInt hR) fun b => .bind hR (.popInt hR) fun a => hif _ _
  | ifRef same => exact .bind hR (.pop hR) fun b => .bind hR (.pop hR) fun a => hif _ _
  | goto => exact hjump

/-- An instruction keeps what its stores, its jumps and its return keep. -/
theorem perform_keeps {ins : Instruction}
    (hstore : ∀ cell arg, ins = .plain (.store cell) arg → ∀ m locals, R m { m with locals })
    (hret : ∀ arg, ins = .plain .ret arg → ∀ m, R m { m with pc := code.code.size })
    (hjump : ∀ l ∈ ins.labels, Keeps R E (jump code l)) : Keeps R E (perform code ins) := by
  cases ins with
  | plain op arg =>
    by_cases hop : op = .ret
    · subst hop
      exact hret arg rfl
    · by_cases hcell : ∃ cell, op = .store cell
      · obtain ⟨cell, rfl⟩ := hcell
        exact .bind hR (.slotOf hR arg) fun slot => .bind hR (.pop hR) fun v =>
          .bind hR (.store hR (hstore cell arg rfl) slot v) fun _ => .pure hR none
      · exact plain_keeps hR code arg (fun cell h => hcell ⟨cell, h⟩) hop
  | branch b target =>
    exact .bind hR (takeBranch_keeps hR b (hjump target (List.mem_singleton.2 rfl))) fun _ =>
      .pure hR none
  | table dflt lo hi targets =>
    apply Keeps.bind hR (.popInt hR)
    intro key
    dsimp only
    split
    · exact .bind hR (hjump dflt List.mem_cons_self) fun _ => .pure hR none
    · split
      · rename_i target htarget
        have hmem : target ∈ dflt :: targets := List.mem_cons_of_mem _ (List.mem_of_getElem? htarget)
        exact .bind hR (hjump target hmem) fun _ => .pure hR none
      · exact .bind hR (.throw hR rfl) fun _ => .pure hR none
  | lookup dflt pairs =>
    exact .bind hR (.popInt hR) fun key =>
      .bind hR (hjump _ (lookupTarget_mem dflt pairs key)) fun _ => .pure hR none

end Keeps

/-- A store that is done pops what it puts into its slot. -/
theorem perform_store_ok {cell : Cell} {n : Int} {m m' : Machine}
    (h : (perform code (.plain (.store cell) (.const (.slot n)))).run m = .ok r m') :
    r = none ∧ 0 ≤ n ∧ ∃ v rest, m.stack = v :: rest ∧ n.toNat < m.locals.size ∧
      m' = { m with stack := rest, locals := m.locals.setIfInBounds n.toNat v } := by
  change (Machine.pop >>= fun v => Machine.store n v >>= fun _ => Pure.pure none).run m = _ at h
  obtain ⟨v, _, hpop, h⟩ := run_bind_ok h
  obtain ⟨_, _, hstore, h⟩ := run_bind_ok h
  obtain ⟨rest, hstack, rfl⟩ := pop_ok hpop
  rw [store_run] at hstore
  split at hstore
  · rename_i hin
    cases hstore
    cases h
    exact ⟨rfl, hin.1, v, rest, hstack, hin.2, rfl⟩
  · cases hstore

/-- A load that is done pushes what is in its slot. -/
theorem perform_load_ok {cell : Cell} {n : Int} {m m' : Machine}
    (h : (perform code (.plain (.load cell) (.const (.slot n)))).run m = .ok r m') :
    r = none ∧ ∃ v, m.locals[n.toNat]? = some v ∧ m' = { m with stack := v :: m.stack } := by
  change (Machine.load n >>= fun _ => Pure.pure none).run m = _ at h
  obtain ⟨_, _, hload, h⟩ := run_bind_ok h
  by_cases hn : n < 0
  · cases (load_below m hn).symm.trans hload
  · rw [load_run m hn] at hload
    cases hv : m.locals[n.toNat]? with
    | none =>
      rw [hv] at hload
      cases hload
    | some v =>
      rw [hv] at hload
      cases hload
      cases h
      exact ⟨rfl, v, rfl, rfl⟩

theorem perform_goto_ok {m m' : Machine} (h : (perform code (.branch .goto l)).run m = .ok r m') :
    r = none ∧ ∃ pc, code.place? l = some pc ∧ m' = { m with pc } := by
  change (Machine.jump code l >>= fun _ => Pure.pure none).run m = _ at h
  obtain ⟨_, _, hjump, h⟩ := run_bind_ok h
  obtain ⟨pc, hpc, rfl⟩ := jump_ok hjump
  cases h
  exact ⟨rfl, pc, hpc, rfl⟩

/-- Throwing an object that is on top of the stack. -/
theorem perform_athrow {m : Machine} (h : m.stack = x.value :: rest) :
    (perform code (.plain .athrow arg)).run m = .ok (some x) { m with stack := rest } := by
  simp only [perform, plain, EStateM.run_bind, pop_run h]
  rfl

/-- Where an instruction can lead that is no store. -/
def Moves (code : Listing) (ins : Instruction) (m m' : Machine) : Prop :=
  (m'.pc = m.pc ∨ (∃ l ∈ ins.labels, code.place? l = some m'.pc) ∨
    (∃ arg, ins = .plain .ret arg) ∧ m'.pc = code.code.size) ∧ m'.locals = m.locals

/-- Moving is no more than changing the place. -/
theorem moves_lax (code : Listing) (ins : Instruction) : Lax (Moves code ins) fun _ => True where
  refl _ := ⟨.inl rfl, rfl⟩
  trans h h' := by
    refine ⟨?_, h'.2.trans h.2⟩
    rcases h'.1 with hpc | hpc
    · rw [hpc]
      exact h.1
    · exact .inr hpc
  stack _ _ := ⟨.inl rfl, rfl⟩
  print _ _ := ⟨.inl rfl, rfl⟩
  create _ := ⟨.inl rfl, rfl⟩
  fault _ _ := trivial

/-- What an instruction can change of place and locals. -/
theorem perform_moves {m m' : Machine} (h : (perform code ins).run m = .ok r m') :
    (m'.pc = m.pc ∨ (∃ l ∈ ins.labels, code.place? l = some m'.pc) ∨
      (∃ arg, ins = .plain .ret arg) ∧ m'.pc = code.code.size) ∧
    (m'.locals = m.locals ∨ ∃ cell, ∃ n : Nat, ∃ v, ins = .plain (.store cell) (.const (.slot n)) ∧
      m'.locals = m.locals.setIfInBounds n v) := by
  by_cases hstore : ∃ cell arg, ins = .plain (.store cell) arg
  · obtain ⟨cell, arg, rfl⟩ := hstore
    by_cases harg : ∃ n, arg = .const (.slot n)
    · obtain ⟨n, rfl⟩ := harg
      obtain ⟨_, hn, v, rest, _, _, rfl⟩ := perform_store_ok h
      obtain ⟨k, rfl⟩ := Int.eq_ofNat_of_zero_le hn
      exact ⟨.inl rfl, .inr ⟨cell, k, v, rfl, rfl⟩⟩
    · have hthrow : slotOf arg = MonadExcept.throw .wrongKind := by
        unfold slotOf
        split
        · exact absurd ⟨_, rfl⟩ harg
        · rfl
      have hperform : (perform code (.plain (.store cell) arg)).run m =
          (slotOf arg >>= fun n => Machine.pop >>= fun v => Machine.store n v >>= fun _ =>
            Pure.pure none).run m := rfl
      rw [hperform, hthrow] at h
      cases h
  · have hmoves : Keeps (Moves code ins) (fun _ => True) (perform code ins) := by
      apply perform_keeps (moves_lax code ins)
      · intro cell arg hins
        exact absurd ⟨cell, arg, hins⟩ hstore
      · intro arg hins m
        exact ⟨.inr (.inr ⟨⟨arg, hins⟩, rfl⟩), rfl⟩
      · intro l hl
        exact .jump (moves_lax code ins) (fun m pc hpc => ⟨.inr (.inl ⟨l, hl, hpc⟩), rfl⟩)
          fun _ => trivial
    exact ⟨(hmoves.ok h).1, .inl (hmoves.ok h).2⟩

abbrev Leads (prog : Listing) (limit : Nat) : Machine → Machine → Prop :=
  Relation.ReflTransGen fun m m' => tick prog limit m = .running m'

/-- A run ends with the tick that stops. -/
theorem run_leads {limit fuel : Nat} {m w : Machine} (h : run code limit fuel m = some (s, w)) :
    ∃ m', Leads code limit m m' ∧ tick code limit m' = .stopped s w := by
  induction fuel generalizing m with
  | zero => cases h
  | succ fuel ih =>
    cases htick : tick code limit m with
    | running m₁ =>
      simp only [run, htick] at h
      obtain ⟨m', hleads, hstop⟩ := ih h
      exact ⟨m', .head htick hleads, hstop⟩
    | stopped r m₁ =>
      simp only [run, htick] at h
      cases h
      exact ⟨m, .refl, htick⟩

theorem tick_end {limit : Nat} {m : Machine} (hpc : code.code[m.pc]? = none) :
    tick code limit m = .stopped .finished m := by
  simp only [tick, hpc]

theorem tick_limited {limit : Nat} {m : Machine} (hins : code.code[m.pc]? = some ins)
    (hlimit : 0 < limit ∧ limit ≤ m.steps) : tick code limit m = .stopped .stepLimit m := by
  simp only [tick, hins, hlimit, and_self, if_true]

def Performed (code : Listing) (m m' : Machine) : Prop :=
  ∃ ins, code.code[m.pc]? = some ins ∧
    (perform code ins).run { m with pc := m.pc + 1, steps := m.steps + 1 } = .ok none m'

/-- An instruction throws an object, and the table names an entry for it. -/
def Caught (code : Listing) (x : Thrown) (k : Handler) (m m' : Machine) : Prop :=
  ∃ ins m₁, code.code[m.pc]? = some ins ∧
    (perform code ins).run { m with pc := m.pc + 1, steps := m.steps + 1 } = .ok (some x) m₁ ∧
    handlerFor? code x.cls m.pc code.handlers = .ok (some k) ∧ (catchAt code k x).run m₁ = .ok () m'

/-- A tick does its instruction, or a handler takes what it throws. -/
theorem tick_running {limit : Nat} {m m' : Machine} (h : tick code limit m = .running m') :
    Performed code m m' ∨ ∃ x k, Caught code x k m m' := by
  unfold tick at h
  split at h
  · cases h
  · rename_i ins hins
    split at h
    · cases h
    · split at h
      · rename_i m₁ hrun
        cases h
        exact .inl ⟨ins, hins, hrun⟩
      · rename_i x m₁ hrun
        unfold unwind at h
        split at h
        · cases h
        · cases h
        · rename_i k hk
          split at h
          · rename_i m₂ hcatch
            cases h
            exact .inr ⟨x, k, ins, m₁, hins, hrun, hk, hcatch⟩
          · cases h
      · cases h

/-- A handler finds the exception alone on the stack. -/
theorem catchAt_ok {m m' : Machine} (h : (catchAt code k x).run m = .ok () m') :
    code.place? k.handler = some m'.pc ∧ m'.stack = [x.value] ∧ m'.locals = m.locals := by
  change ((Machine.jump code k.handler) >>= fun _ => modify fun m =>
    { m with caught := m.caught.push (x.cls, k.handler) }).run { m with stack := [x.value] } = _ at h
  obtain ⟨_, _, hjump, h⟩ := run_bind_ok h
  obtain ⟨pc, hpc, rfl⟩ := jump_ok hjump
  cases h
  exact ⟨hpc, rfl, rfl⟩

/-- The object is alone on the stack of its handler. -/
theorem Caught.lands {m m' : Machine} (h : Caught code x k m m') :
    code.place? k.handler = some m'.pc ∧ m'.stack = [x.value] ∧
      handlerFor? code x.cls m.pc code.handlers = .ok (some k) := by
  obtain ⟨ins, m₁, _, _, hk, hcatch⟩ := h
  obtain ⟨hpc, hstack, _⟩ := catchAt_ok hcatch
  exact ⟨hpc, hstack, hk⟩

/-- A tick changes a local only by a store. -/
theorem tick_locals {limit : Nat} {m m' : Machine} (h : tick code limit m = .running m') :
    m'.locals = m.locals ∨ ∃ cell, ∃ n : Nat, ∃ v,
      code.code[m.pc]? = some (.plain (.store cell) (.const (.slot n))) ∧
        m'.locals = m.locals.setIfInBounds n v := by
  rcases tick_running h with ⟨ins, hins, hrun⟩ | ⟨x, k, ins, m₁, hins, hrun, _, hcatch⟩
  · rcases (perform_moves hrun).2 with hsame | ⟨cell, n, v, rfl, hset⟩
    · exact .inl hsame
    · exact .inr ⟨cell, n, v, hins, hset⟩
  · obtain ⟨_, _, hlocals⟩ := catchAt_ok hcatch
    rw [hlocals]
    rcases (perform_moves hrun).2 with hsame | ⟨cell, n, v, rfl, hset⟩
    · exact .inl hsame
    · exact .inr ⟨cell, n, v, hins, hset⟩

section Known

variable {limit : Nat} {m m' : Machine} {cell : Cell} {n : Int}

/-- A tick whose instruction throws nothing does the instruction. -/
theorem tick_plain {ins : Instruction} (hins : code.code[m.pc]? = some ins)
    (hnone : ∀ {m m' r}, (perform code ins).run m = .ok r m' → r = none)
    (h : tick code limit m = .running m') :
    (perform code ins).run { m with pc := m.pc + 1, steps := m.steps + 1 } = .ok none m' := by
  rcases tick_running h with ⟨ins', hins', hrun⟩ | ⟨x, k, ins', m₁, hins', hrun, _⟩
  · cases hins.symm.trans hins'
    exact hrun
  · cases hins.symm.trans hins'
    cases hnone hrun

/-- A store is done and the next instruction follows. -/
theorem tick_store (hins : code.code[m.pc]? = some (.plain (.store cell) (.const (.slot n))))
    (h : tick code limit m = .running m') :
    Performed code m m' ∧ m'.pc = m.pc + 1 ∧
      ∃ v rest, m.stack = v :: rest ∧ m'.locals[n.toNat]? = some v := by
  have hrun := tick_plain hins (fun hrun => (perform_store_ok hrun).1) h
  refine ⟨⟨_, hins, hrun⟩, ?_⟩
  obtain ⟨_, _, v, rest, hstack, hsize, rfl⟩ := perform_store_ok hrun
  exact ⟨rfl, v, rest, hstack, Array.getElem?_setIfInBounds_self_of_lt hsize⟩

theorem tick_load (hins : code.code[m.pc]? = some (.plain (.load cell) (.const (.slot n))))
    (h : tick code limit m = .running m') :
    m'.pc = m.pc + 1 ∧ ∃ v, m.locals[n.toNat]? = some v ∧ m'.stack = v :: m.stack := by
  obtain ⟨_, v, hv, rfl⟩ :=
    perform_load_ok (tick_plain hins (fun hrun => (perform_load_ok hrun).1) h)
  exact ⟨rfl, v, hv, rfl⟩

theorem tick_goto {l : Label} (hins : code.code[m.pc]? = some (.branch .goto l))
    (h : tick code limit m = .running m') :
    Performed code m m' ∧ code.place? l = some m'.pc := by
  have hrun := tick_plain hins (fun hrun => (perform_goto_ok hrun).1) h
  obtain ⟨_, pc, hpc, rfl⟩ := perform_goto_ok hrun
  exact ⟨⟨_, hins, hrun⟩, hpc⟩

/-- Throwing an object that is on top of the stack. -/
theorem tick_athrow {arg : Operand} {x : Thrown} {rest : List Value}
    (hins : code.code[m.pc]? = some (.plain .athrow arg)) (hstack : m.stack = x.value :: rest)
    (h : tick code limit m = .running m') : ∃ k, Caught code x k m m' := by
  have hperform : (perform code (.plain .athrow arg)).run { m with pc := m.pc + 1, steps := m.steps + 1 } =
      .ok (some x) { m with pc := m.pc + 1, steps := m.steps + 1, stack := rest } :=
    perform_athrow hstack
  rcases tick_running h with ⟨ins, hins', hrun⟩ | ⟨y, k, hcaught⟩
  · cases hins.symm.trans hins'
    cases hperform.symm.trans hrun
  · obtain ⟨ins, m₁, hins', hrun, hrest⟩ := id hcaught
    cases hins.symm.trans hins'
    cases hperform.symm.trans hrun
    exact ⟨k, hcaught⟩

end Known

/-- A run that ends with an object nobody takes has just thrown it. -/
theorem tick_uncaught {limit : Nat} {m m' : Machine} {p : Nat}
    (h : tick code limit m = .stopped (.uncaught cls p) m') :
    ∃ ins x m₁, code.code[m.pc]? = some ins ∧
      (perform code ins).run { m with pc := m.pc + 1, steps := m.steps + 1 } = .ok (some x) m₁ ∧
      handlerFor? code x.cls m.pc code.handlers = .ok none ∧ cls = x.cls := by
  unfold tick at h
  split at h
  · cases h
  · rename_i ins hins
    split at h
    · cases h
    · split at h
      · cases h
      · rename_i x m₁ hrun
        unfold unwind at h
        split at h
        · cases h
        · rename_i hnone
          cases h
          exact ⟨ins, x, _, hins, hrun, hnone, rfl⟩
        · split at h <;> cases h
      · cases h

/-- A handler whose label is placed is reached. -/
theorem catchAt_placed {q : Nat} (x : Thrown) (m : Machine) (h : code.place? k.handler = some q) :
    ∃ m', (catchAt code k x).run m = .ok () m' := by
  refine ⟨{ m with
    stack := [x.value], pc := q, caught := m.caught.push (x.cls, k.handler) }, ?_⟩
  simp only [catchAt, Machine.jump, Listing.pcOf, h]
  rfl

/-- Throwing an object where the table can be searched ends the run only if nobody takes it. -/
theorem tick_athrow_stopped {limit : Nat} {m m' : Machine} {found : Option Handler}
    (hins : code.code[m.pc]? = some (.plain .athrow arg)) (hstack : m.stack = x.value :: rest)
    (hfound : handlerFor? code x.cls m.pc code.handlers = .ok found)
    (hplaced : ∀ k ∈ found, ∃ q, code.place? k.handler = some q)
    (h : tick code limit m = .stopped s m') : s = .stepLimit ∨ s = .uncaught x.cls m.pc := by
  have hperform : (perform code (.plain .athrow arg)).run
      { m with pc := m.pc + 1, steps := m.steps + 1 } =
        .ok (some x) { m with pc := m.pc + 1, steps := m.steps + 1, stack := rest } :=
    perform_athrow hstack
  simp only [tick, hins, hperform, unwind, hfound] at h
  by_cases hlimit : 0 < limit ∧ limit ≤ m.steps
  · rw [if_pos hlimit] at h
    cases h
    exact .inl rfl
  · rw [if_neg hlimit] at h
    cases found with
    | none =>
      cases h
      exact .inr rfl
    | some k =>
      obtain ⟨q, hq⟩ := hplaced k rfl
      obtain ⟨m₁, hcatch⟩ := catchAt_placed x
        { m with pc := m.pc + 1, steps := m.steps + 1, stack := rest } hq
      simp only [hcatch] at h
      cases h

/-- Only handlers of the table are chosen. -/
theorem handlerFor?_mem {hs : List Handler} (h : handlerFor? code cls pc hs = .ok (some k)) :
    k ∈ hs := by
  induction hs with
  | nil => cases h
  | cons h₀ hs ih =>
    cases hcovers : covers code h₀ pc with
    | error f =>
      simp only [handlerFor?, hcovers, bind, Except.bind] at h
      cases h
    | ok covered =>
      simp only [handlerFor?, hcovers, bind, Except.bind] at h
      split at h
      · cases h
        exact List.mem_cons_self
      · exact List.mem_cons_of_mem _ (ih h)

def Progress.machine : Progress → Machine
  | .running m => m
  | .stopped _ m => m

section Keeps

variable {R : Machine → Machine → Prop} {E : Fault → Prop} (hR : Lax R E)
  (hcaught : ∀ m caught, R m { m with caught })
include hR hcaught

theorem catchAt_keeps {k : Handler} (x : Thrown) (hjump : Keeps R E (jump code k.handler)) :
    Keeps R E (catchAt code k x) :=
  .bind hR (fun m => hR.stack m _) fun _ => .bind hR hjump fun _ m => hcaught m _

/-- Unwinding keeps what jumps to handlers keep. -/
theorem unwind_keeps (x : Thrown) {pc : Nat} (m : Machine)
    (hsearch : ∀ f, handlerFor? code x.cls pc code.handlers = .error f → E f)
    (hjump : ∀ k ∈ code.handlers, Keeps R E (jump code k.handler)) :
    R m (unwind code x pc m).machine ∧
      ∀ f m', unwind code x pc m = .stopped (.fault f) m' → E f := by
  unfold unwind
  cases hfound : handlerFor? code x.cls pc code.handlers with
  | error f =>
    refine ⟨hR.refl m, ?_⟩
    intro g m' h
    cases h
    exact hsearch f hfound
  | ok found =>
    cases found with
    | none =>
      refine ⟨hR.refl m, ?_⟩
      intro g m' h
      cases h
    | some k =>
      have hcatch := catchAt_keeps hR hcaught x (hjump k (handlerFor?_mem hfound))
      dsimp only
      cases hrun : (catchAt code k x).run m with
      | ok u m₁ =>
        refine ⟨hcatch.ok hrun, ?_⟩
        intro g m' h
        cases h
      | error f m₁ =>
        refine ⟨(hcatch.error hrun).1, ?_⟩
        intro g m' h
        cases h
        exact (hcatch.error hrun).2

/-- A tick that begins an instruction keeps what the instruction and the handlers keep. -/
theorem tick_keeps {limit : Nat} {m : Machine} {ins : Instruction}
    (hins : code.code[m.pc]? = some ins) (hlimit : ¬ (0 < limit ∧ limit ≤ m.steps))
    (hperform : Keeps R E (perform code ins))
    (hsearch : ∀ cls f, handlerFor? code cls m.pc code.handlers = .error f → E f)
    (hjump : ∀ k ∈ code.handlers, Keeps R E (jump code k.handler)) :
    R { m with pc := m.pc + 1, steps := m.steps + 1 } (tick code limit m).machine ∧
      ∀ f m', tick code limit m = .stopped (.fault f) m' → E f := by
  simp only [tick, hins, hlimit, if_false]
  cases hrun : (perform code ins).run { m with pc := m.pc + 1, steps := m.steps + 1 } with
  | ok r m₁ =>
    have hfirst := hperform.ok hrun
    cases r with
    | none =>
      refine ⟨hfirst, ?_⟩
      intro f m' h
      cases h
    | some x =>
      have hunwind := unwind_keeps hR hcaught x m₁ (hsearch x.cls) hjump
      exact ⟨hR.trans hfirst hunwind.1, hunwind.2⟩
  | error f m₁ =>
    have herror := hperform.error hrun
    refine ⟨herror.1, ?_⟩
    intro g m' h
    cases h
    exact herror.2

end Keeps

end Jminus.Machine
