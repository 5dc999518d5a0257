import Jminus.Proofs.Assembly
import Jminus.Proofs.Frame
import Mathlib

/-!
How high the stack is.

Each instruction takes a fixed number of operands and leaves a fixed number. So if every place of
some code has a height, the heights of neighbouring places differ as the instruction between them
says, and a jump leads to a place of the height that it leaves, then the stack of a machine is as high
as its place says for as long as it runs.
-/
namespace Jminus

/-- The operands that a call takes and leaves. -/
def Operand.traffic : Operand → Nat × Nat
  | .const (.method _ m) =>
    match m.types with
    | .ok (params, result) => (params.length, if result = .void then 0 else 1)
    | .error _ => (0, 0)
  | _ => (0, 0)

def Branch.taken : Branch → Nat
  | .goto => 0
  | .ifZero _ => 1
  | .ifInt _ | .ifRef _ => 2

namespace Instruction

/-- The operands that an instruction takes and leaves, if it throws nothing. -/
def traffic : Instruction → Nat × Nat
  | .plain op arg =>
    match op with
    | .nop | .ret | .branch _ | .tableSwitch | .lookupSwitch | .undefined => (0, 0)
    | .aconstNull | .ldc | .load _ | .new => (0, 1)
    | .store _ | .pop | .athrow => (1, 0)
    | .dup => (1, 2)
    | .neg _ => (1, 1)
    | .arith .. | .shift .. | .bit .. | .lcmp | .dcmpl | .dcmpg => (2, 1)
    | .invokeStatic => arg.traffic
  | .branch b _ => (b.taken, 0)
  | .table .. | .lookup .. => (1, 0)

def fallsThrough : Instruction → Bool
  | .plain .athrow _ | .plain .ret _ | .branch .goto _ | .table .. | .lookup .. => false
  | _ => true

end Instruction

namespace Machine

/-- An action that leads from a stack of one height to a stack of another one, whenever its answer is
as asked for. -/
def Shifts {α : Type} (φ : α → Prop) (h h' : Nat) (a : Action α) : Prop :=
  ∀ m r m', a.run m = .ok r m' → φ r → m.stack.length = h → m'.stack.length = h'

abbrev Always {α : Type} (h h' : Nat) (a : Action α) : Prop := Shifts (fun _ => True) h h' a

namespace Shifts

variable {α β : Type} {φ : β → Prop} {h h₁ h' : Nat}

theorem pure (b : β) : Shifts φ h h (pure b : Action β) := by
  intro m r m' hrun _ hm
  cases hrun
  exact hm

theorem throw (f : Fault) : Shifts φ h h' (throw f : Action β) := by
  intro m r m' hrun
  cases hrun

theorem other {b : β} (hb : ¬ φ b) : Shifts φ h h' (Pure.pure b : Action β) := by
  intro m r m' hrun hr
  cases hrun
  exact absurd hr hb

theorem bind {a : Action α} {f : α → Action β} (ha : Always h h₁ a)
    (hf : ∀ x, Shifts φ h₁ h' (f x)) : Shifts φ h h' (a >>= f) := by
  intro m r m' hrun hr hm
  obtain ⟨x, m₁, hfirst, hrun⟩ := run_bind_ok hrun
  exact hf x m₁ r m' hrun hr (ha m x m₁ hfirst trivial hm)

/-- A computation beside the machine leaves the stack. -/
theorem lift (r : Except Fault β) : Shifts φ h h (lift r) := by
  cases r with
  | ok a => exact pure a
  | error f => exact throw f

theorem push (v : Value) : Always h (h + 1) (push v) := by
  intro m r m' hrun _ hm
  cases hrun
  exact congrArg Nat.succ hm

theorem print (s : String) : Always h h (print s) := by
  intro m r m' hrun _ hm
  cases hrun
  exact hm

theorem create (cls : Class) : Always h h (create cls) := by
  intro m r m' hrun _ hm
  cases hrun
  exact hm

theorem pop : Always (h + 1) h pop := by
  intro m v m' hrun _ hm
  obtain ⟨rest, hstack, rfl⟩ := pop_ok hrun
  rw [hstack] at hm
  exact Nat.succ.inj hm

theorem popInt : Always (h + 1) h popInt := by
  apply bind pop
  intro v
  cases v with
  | int n => exact pure n
  | _ => exact throw _

theorem popLong : Always (h + 1) h popLong := by
  apply bind pop
  intro v
  cases v with
  | long n => exact pure n
  | _ => exact throw _

theorem popDouble : Always (h + 1) h popDouble := by
  apply bind pop
  intro v
  cases v with
  | double n => exact pure n
  | _ => exact throw _

/-- As many operands are popped as there are parameters. -/
theorem popFor (ts : List Ty) : Always (h + ts.length) h (popFor ts) := by
  induction ts generalizing h with
  | nil => exact pure []
  | cons t ts ih =>
    rw [List.length_cons, ← Nat.add_assoc, Nat.add_right_comm]
    exact bind ih fun _ => bind pop fun _ => pure _

theorem slotOf (arg : Operand) : Always h h (slotOf arg) := by
  unfold Machine.slotOf
  split
  · exact pure _
  · exact throw _

theorem load (slot : Int) : Always h (h + 1) (load slot) := by
  intro m r m' hrun _ hm
  by_cases hslot : slot < 0
  · rw [load_below m hslot] at hrun
    cases hrun
  · rw [load_run m hslot] at hrun
    cases hv : m.locals[slot.toNat]? with
    | none =>
      rw [hv] at hrun
      cases hrun
    | some v =>
      rw [hv] at hrun
      cases hrun
      exact congrArg Nat.succ hm

theorem store (slot : Int) (v : Value) : Always h h (store slot v) := by
  intro m r m' hrun _ hm
  rw [store_run] at hrun
  split at hrun
  · cases hrun
    exact hm
  · cases hrun

theorem jump (code : Listing) (l : Label) : Always h h (jump code l) := by
  intro m r m' hrun _ hm
  obtain ⟨pc, _, rfl⟩ := jump_ok hrun
  exact hm

theorem call (b : Builtin) (args : List (Value × Ty)) : Always h h (b.call args) := by
  unfold Builtin.call
  split
  · exact bind (print _) fun _ => pure _
  · exact bind (lift _) fun _ => bind (print _) fun _ => pure _
  · exact bind (lift _) fun _ => bind (print _) fun _ => pure _
  · apply bind (lift _)
    intro text
    split
    · exact bind (lift _) fun _ => pure _
    · exact throw _
  · exact throw _

/-- A call takes its arguments and leaves its result. -/
theorem invoke {m : Method} {params : List Ty} {result : Ty} (htypes : m.types = .ok (params, result)) :
    Always (h + params.length) (h + if result = .void then 0 else 1) (invoke m) := by
  unfold Machine.invoke
  cases Builtin.ofMethod? m with
  | none => exact throw _
  | some builtin =>
    rw [htypes]
    apply bind (popFor params)
    intro args
    apply bind (call builtin args)
    intro v
    by_cases hvoid : result = .void
    · simp only [hvoid, ne_eq, not_true_eq_false, if_false, if_true]
      exact pure ()
    · simp only [hvoid, ne_eq, not_false_eq_true, if_true, if_false]
      exact push v

theorem invoke_untyped {m : Method} {f : Fault} (htypes : m.types = .error f) :
    Always h h' (Machine.invoke m) := by
  unfold Machine.invoke
  cases Builtin.ofMethod? m with
  | none => exact throw _
  | some builtin =>
    intro m r m' hrun
    rw [htypes, EStateM.run_bind] at hrun
    cases hrun

theorem thrown (cls : Class) :
    Shifts (· = none) h h' (Machine.create cls >>= fun x => Pure.pure (some x)) :=
  bind (create cls) fun x => other (Option.some_ne_none x)

theorem compute (op : Opcode) (kind : Num) : Shifts (· = none) (h + 2) (h + 1) (compute op kind) := by
  cases kind with
  | int =>
    apply bind popInt
    intro b
    apply bind popInt
    intro a
    dsimp only
    split
    · exact thrown _
    · exact bind (lift _) fun _ => bind (push _) fun _ => pure _
  | long =>
    apply bind popLong
    intro b
    apply bind popLong
    intro a
    dsimp only
    split
    · exact thrown _
    · exact bind (lift _) fun _ => bind (push _) fun _ => pure _
  | double =>
    exact bind popDouble fun b => bind popDouble fun a => bind (lift _) fun _ =>
      bind (push _) fun _ => pure _

/-- An instruction takes and leaves what its traffic says. -/
theorem plain (code : Listing) (op : Opcode) (arg : Operand) :
    Shifts (· = none) (h + (Instruction.plain op arg).traffic.1)
      (h + (Instruction.plain op arg).traffic.2) (plain code op arg) := by
  -- most instructions end by pushing what they have made
  have pushes : ∀ h v, Shifts (· = none) h (h + 1)
      (Machine.push v >>= fun _ => Pure.pure (none : Option Thrown)) := fun h v =>
    bind (push v) fun _ => pure none
  cases op with
  | nop => exact pure none
  | aconstNull => exact pushes h _
  | ldc =>
    unfold Machine.plain
    cases arg with
    | absent => exact pushes h _
    | unresolved => exact pushes h _
    | const v => exact pushes h _
  | load cell => exact bind (slotOf arg) fun s => bind (load s) fun _ => pure none
  | store cell =>
    exact bind (slotOf arg) fun s => bind pop fun v => bind (store s v) fun _ => pure none
  | pop => exact bind pop fun _ => pure none
  | dup => exact bind pop fun v => bind (push v) fun _ => pushes (h + 1) v
  | arith kind op => exact compute _ kind
  | neg kind =>
    cases kind with
    | int => exact bind popInt fun _ => pushes h _
    | long => exact bind popLong fun _ => pushes h _
    | double => exact bind popDouble fun _ => pushes h _
  | shift width op =>
    cases width with
    | int => exact compute _ .int
    | long => exact bind popInt fun b => bind popLong fun a => bind (lift _) fun _ => pushes h _
  | bit width op =>
    cases width with
    | int => exact compute _ .int
    | long => exact compute _ .long
  | lcmp => exact bind popLong fun _ => bind popLong fun _ => pushes h _
  | dcmpl => exact bind popDouble fun _ => bind popDouble fun _ => pushes h _
  | dcmpg => exact bind popDouble fun _ => bind popDouble fun _ => pushes h _
  | branch b => exact throw _
  | tableSwitch => exact throw _
  | lookupSwitch => exact throw _
  | new =>
    simp only [Machine.plain]
    split
    · split
      · exact bind (create _) fun _ => pushes h _
      · exact throw _
    · exact throw _
  | athrow =>
    apply bind pop
    intro v
    cases v with
    | null => exact thrown _
    | object id cls => exact other (Option.some_ne_none _)
    | _ => exact throw _
  | invokeStatic =>
    simp only [Machine.plain]
    split
    · rename_i id m
      simp only [Instruction.traffic, Operand.traffic]
      cases htypes : m.types with
      | ok types => exact bind (invoke htypes) fun _ => pure none
      | error f => exact bind (invoke_untyped htypes) fun _ => pure none
    · exact throw _
    · exact throw _
  | ret =>
    intro m r m' hrun _ hm
    cases hrun
    exact hm
  | undefined => exact throw _

theorem takeBranch (code : Listing) (b : Branch) (target : Label) :
    Always (h + (Instruction.branch b target).traffic.1) (h + (Instruction.branch b target).traffic.2)
      (takeBranch code b target) := by
  have hif : ∀ c : Prop, ∀ _ : Decidable c,
      Always h h (if c then Machine.jump code target else Pure.pure ()) := by
    intro c _
    split
    · exact jump code target
    · exact pure ()
  cases b with
  | ifZero rel => exact bind popInt fun a => hif _ _
  | ifInt rel => exact bind popInt fun b => bind popInt fun a => hif _ _
  | ifRef same => exact bind pop fun b => bind pop fun a => hif _ _
  | goto => exact jump code target

/-- An instruction that throws nothing takes and leaves what is said of it. -/
theorem perform (code : Listing) (ins : Instruction) :
    Shifts (· = none) (h + ins.traffic.1) (h + ins.traffic.2) (perform code ins) := by
  cases ins with
  | plain op arg => exact plain code op arg
  | branch b target => exact bind (takeBranch code b target) fun _ => pure none
  | table dflt lo hi targets =>
    apply bind popInt
    intro key
    dsimp only
    split
    · exact bind (jump code dflt) fun _ => pure none
    · split
      · exact bind (jump code _) fun _ => pure none
      · exact bind (throw _) fun _ => pure none
  | lookup dflt pairs => exact bind popInt fun key => bind (jump code _) fun _ => pure none

end Shifts

variable {code : Listing}

/-- An action that goes on at one of the given labels, whenever it answers. -/
def Lands (code : Listing) (ls : List Label) {α : Type} (a : Action α) : Prop :=
  ∀ m r m', a.run m = .ok r m' → ∃ l ∈ ls, code.place? l = some m'.pc

/-- Where an action leads depends on its last part. -/
theorem Lands.behind {α β : Type} {ls : List Label} {a : Action α} {f : α → Action β}
    (hf : ∀ x, Lands code ls (f x)) : Lands code ls (a >>= f) := by
  intro m r m' hrun
  obtain ⟨x, m₁, _, hrun⟩ := run_bind_ok hrun
  exact hf x m₁ r m' hrun

theorem Lands.jump {β : Type} {ls : List Label} {l : Label} (hl : l ∈ ls) (b : β) :
    Lands code ls (jump code l >>= fun _ => pure b) := by
  intro m r m' hrun
  obtain ⟨_, _, hjump, hrun⟩ := run_bind_ok hrun
  obtain ⟨pc, hpc, rfl⟩ := jump_ok hjump
  cases hrun
  exact ⟨l, hl, hpc⟩

/-- What no run goes on behind leads to a label, or to the end. -/
theorem perform_leads {ins : Instruction} (hins : ins.fallsThrough = false) {m m' : Machine}
    (h : (perform code ins).run m = .ok none m') :
    (∃ l ∈ ins.labels, code.place? l = some m'.pc) ∨ m'.pc = code.code.size := by
  cases ins with
  | plain op arg =>
    cases op with
    | athrow =>
      cases hs : m.stack with
      | nil =>
        simp only [perform, plain, EStateM.run_bind, pop_empty hs] at h
        cases h
      | cons v rest =>
        simp only [perform, plain, EStateM.run_bind, pop_run hs] at h
        cases v with
        | _ => cases h
    | ret =>
      cases h
      exact .inr rfl
    | _ => cases hins
  | branch b target =>
    cases b with
    | goto => exact .inl (Lands.jump (List.mem_singleton.2 rfl) none m none m' h)
    | _ => cases hins
  | table dflt lo hi targets =>
    have hlands : Lands code (dflt :: targets) (perform code (.table dflt lo hi targets)) := by
      apply Lands.behind
      intro key
      dsimp only
      split
      · exact .jump List.mem_cons_self none
      · split
        · rename_i target htarget
          exact .jump (List.mem_cons_of_mem _ (List.mem_of_getElem? htarget)) none
        · intro m r m' hrun
          cases hrun
    exact .inl (hlands m none m' h)
  | lookup dflt pairs =>
    exact .inl (Lands.behind (fun key => .jump (lookupTarget_mem dflt pairs key) none) m none m' h)

end Machine

/-- An instruction at a place that has the operands it takes. What it leaves is the height behind it,
if a run can go on there, and that of the labels it may jump to. -/
def Instruction.Fits (L : Label → Nat) (H : Nat → Nat) (p : Nat) (ins : Instruction) : Prop :=
  ∃ k, H p = k + ins.traffic.1 ∧ (ins.fallsThrough = true → H (p + 1) = k + ins.traffic.2) ∧
    ∀ l ∈ ins.labels, L l = k + ins.traffic.2

/-- An item at a place, with heights for labels and for places. A handler finds the exception alone
on the stack. -/
structure Item.Level (L : Label → Nat) (H : Nat → Nat) (p : Nat) (i : Item) : Prop where
  label : ∀ l, i.placed? = some l → L l = H p
  handler : ∀ k, i.handler? = some k → L k.handler = 1
  instruction : ∀ ins, i.instruction? = some ins → ins.Fits L H p

namespace Code

def Level (L : Label → Nat) (H : Nat → Nat) : Nat → Code → Prop
  | _, [] => True
  | p, i :: rest => i.Level L H p ∧ Level L H (p + i.size) rest

variable {L : Label → Nat} {H : Nat → Nat} {lo p : Nat} {prog : Listing} {a b code : Code}

/-- Heights fit code if they fit its parts. -/
theorem level_append : Level L H lo (a ++ b) ↔ Level L H lo a ∧ Level L H (lo + a.size) b := by
  induction a generalizing lo with
  | nil => simp [Level]
  | cons i a ih => simp [Level, ih, and_assoc, Nat.add_assoc]

/-- The instruction at a place fits the heights. -/
theorem Level.instruction (h : Level L H lo code) (hat : code.At prog lo) (hlo : lo ≤ p)
    (hhi : p < lo + code.size) {ins : Instruction} (hins : prog.code[p]? = some ins) :
    ∃ i ∈ code, i.instruction? = some ins ∧ ins.Fits L H p := by
  obtain ⟨front, i, back, ins', rfl, rfl, hi, hins'⟩ := hat.split hlo hhi
  cases hins.symm.trans hins'
  exact ⟨i, by simp, hi, (level_append.1 h).2.1.instruction ins hi⟩

/-- A label has the height of its place. -/
theorem Level.label (h : Level L H lo code) (hat : code.At prog lo) {l : Label}
    (hl : l ∈ code.placed) (hp : prog.place? l = some p) : L l = H p := by
  induction code generalizing lo with
  | nil => cases hl
  | cons i code ih =>
    obtain ⟨j, hj, hjl⟩ := List.mem_filterMap.1 hl
    rcases List.mem_cons.1 hj with rfl | hj
    · cases j with
      | label l' =>
        cases hjl
        cases hp.symm.trans hat.1
        exact h.1.label l rfl
      | _ => cases hjl
    · exact ih h.2 hat.2 (List.mem_filterMap.2 ⟨j, hj, hjl⟩)

theorem Level.handler (h : Level L H lo code) {k : Handler} (hk : k ∈ code.handlers) :
    L k.handler = 1 := by
  induction code generalizing lo with
  | nil => cases hk
  | cons i code ih =>
    obtain ⟨j, hj, hjk⟩ := List.mem_filterMap.1 hk
    rcases List.mem_cons.1 hj with rfl | hj
    · exact h.1.handler k hjk
    · exact ih h.2 (List.mem_filterMap.2 ⟨j, hj, hjk⟩)

end Code

/-- A listing with heights that fit its code. -/
structure Leveled (prog : Listing) (L : Label → Nat) (H : Nat → Nat) (code : Code) : Prop where
  holds : prog.Holds code
  laid : ∃ n n', Checked.Laid n n' [] [] code
  level : code.Level L H 0

namespace Leveled

variable {prog : Listing} {L : Label → Nat} {H : Nat → Nat} {code : Code} {limit : Nat}
  {m m' : Machine}

theorem lands (h : Leveled prog L H code) {l : Label} (hl : l ∈ code.jumps ∨ l ∈ code.ranges)
    {q : Nat} (hq : prog.place? l = some q) : L l = H q := by
  obtain ⟨n, n', hlaid⟩ := h.laid
  have hbetween : Checked.Between n n' l := by
    rcases hl with hl | hl
    · exact (hlaid.jumps l hl).resolve_right List.not_mem_nil
    · exact (hlaid.ranges l hl).resolve_right List.not_mem_nil
  exact h.level.label h.holds.placed (hlaid.placed hbetween) hq

/-- What an instruction leaves is the height where it leads. -/
theorem performed (h : Leveled prog L H code) (hp : Machine.Performed prog m m')
    (hm : m.stack.length = H m.pc) (hm' : m'.pc < prog.code.size) : m'.stack.length = H m'.pc := by
  obtain ⟨ins, hins, hrun⟩ := hp
  have hlt : m.pc < prog.code.size := (Array.getElem?_eq_some_iff.1 hins).1
  rw [h.holds.size] at hlt
  obtain ⟨i, hi, hi', k, htakes, hfalls, hjumps⟩ :=
    h.level.instruction h.holds.placed (Nat.zero_le _) (by omega) hins
  have hheight : m'.stack.length = k + ins.traffic.2 :=
    Machine.Shifts.perform prog ins _ none m' hrun rfl (hm.trans htakes)
  have hlabel : (∃ l ∈ ins.labels, prog.place? l = some m'.pc) → m'.stack.length = H m'.pc := by
    rintro ⟨l, hl, hplace⟩
    have hjump := List.mem_flatMap.2 ⟨i, hi, i.labels_subset_jumps hi' l hl⟩
    rw [hheight, ← hjumps l hl, h.lands (.inl hjump) hplace]
  cases hnext : ins.fallsThrough with
  | true =>
    rcases (Machine.perform_moves hrun).1 with hpc | hplace | ⟨_, hend⟩
    · rw [hpc, hheight]
      exact (hfalls hnext).symm
    · exact hlabel hplace
    · omega
  | false =>
    rcases Machine.perform_leads hnext hrun with hplace | hend
    · exact hlabel hplace
    · omega

/-- A tick leads from a height that fits to one that fits. -/
theorem step (h : Leveled prog L H code) (htick : Machine.tick prog limit m = .running m')
    (hm : m.pc < prog.code.size → m.stack.length = H m.pc) (hm' : m'.pc < prog.code.size) :
    m'.stack.length = H m'.pc := by
  rcases Machine.tick_running htick with hp | ⟨x, k, hcaught⟩
  · obtain ⟨ins, hins, _⟩ := id hp
    exact h.performed hp (hm (Array.getElem?_eq_some_iff.1 hins).1) hm'
  · obtain ⟨hplace, hstack, hfound⟩ := hcaught.lands
    have hk : k ∈ code.handlers := h.holds.handlers ▸ Machine.handlerFor?_mem hfound
    rw [hstack, ← h.lands (.inr (Code.mem_ranges hk k.handler (by simp))) hplace]
    exact (h.level.handler hk).symm

/-- The stack of a machine that has an instruction to do is as high as its place says. -/
theorem run (h : Leveled prog L H code) (hleads : Machine.Leads prog limit m m')
    (hm : m.pc < prog.code.size → m.stack.length = H m.pc) :
    m'.pc < prog.code.size → m'.stack.length = H m'.pc := by
  induction hleads with
  | refl => exact hm
  | tail _ htick ih => exact h.step htick ih

end Leveled

end Jminus
