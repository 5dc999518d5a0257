import Jminus.Proofs.Layout
import Mathlib

/-!
What has been stored to at every place of some code.

An annotation says for each label which slots have been stored to whenever a run comes to it. Code
flows along an annotation if, from what is known where it starts, every load is of a slot that is
known there, every jump leads to a label that asks for no more than is known, and so does every
handler for whatever it protects.
-/
namespace Jminus

abbrev Annotation := Label → Set Nat

namespace Item

def after (A : Annotation) (K : Set Nat) : Item → Set Nat
  | .label l => A l
  | .plain (.store _) (.const (.slot (.ofNat n))) => insert n K
  | _ => K

def Fits (A : Annotation) (K : Set Nat) : Item → Prop
  | .label l => A l ⊆ K
  | .plain (.load _) (.const (.slot (.ofNat n))) => n ∈ K
  | i => ∀ l ∈ i.jumps, A l ⊆ K

/-- An item that fits wherever the slots in `B` have been stored to, and asks for no others. What it
protects is open to the condition `O`. -/
structure Keeps (A : Annotation) (O : Handler → Prop) (B : Set Nat) (i : Item) : Prop where
  fits : ∀ K, B ⊆ K → i.Fits A K
  after : ∀ K, B ⊆ K → B ⊆ i.after A K
  handler : ∀ h, i.handler? = some h → O h

end Item

section Items

variable {A : Annotation} {O : Handler → Prop} {B : Set Nat}

attribute [local simp] Item.Fits Item.after

/-- An item that is no handler fits at every place where enough has been stored to. -/
theorem Item.Keeps.plain {i : Item} (hnone : i.handler? = none) (fits : ∀ K, B ⊆ K → i.Fits A K)
    (after : ∀ K, B ⊆ K → B ⊆ i.after A K) : i.Keeps A O B :=
  ⟨fits, after, fun h hh => by cases hnone.symm.trans hh⟩

variable {l : Label} {cell : Cell} {n : Nat}

/-- What is known at a label is what its annotation says. -/
@[simp] theorem keeps_label : (Item.label l).Keeps A O B ↔ A l = B := by
  constructor
  · intro h
    exact (h.fits B subset_rfl).antisymm (h.after B subset_rfl)
  · rintro rfl
    exact .plain rfl (fun K hK => hK) fun K _ => subset_rfl

@[simp] theorem keeps_handler {h : Handler} : (Item.handler h).Keeps A O B ↔ O h := by
  refine ⟨fun hkeeps => hkeeps.handler h rfl, fun hO => ⟨?_, fun K hK => hK, ?_⟩⟩
  · simp [Item.jumps]
  · rintro k ⟨⟩
    exact hO

/-- A jump needs what is known where it leads. -/
@[simp] theorem keeps_jump {b : Branch} : (Item.jump b l).Keeps A O B ↔ A l ⊆ B := by
  constructor
  · intro h
    simpa [Item.jumps] using h.fits B subset_rfl
  · intro hl
    refine .plain rfl (fun K hK => ?_) fun K hK => hK
    simpa [Item.jumps] using hl.trans hK

@[simp] theorem keeps_goto : (Code.goto l).Keeps A O B ↔ A l ⊆ B := keeps_jump

theorem keeps_dispatch {line : Nat} {pairs : List (Int32 × Label)} {dflt : Label}
    (hdflt : A dflt ⊆ B) (hpairs : ∀ p ∈ pairs, A p.2 ⊆ B) :
    (Item.dispatch line pairs dflt).Keeps A O B := by
  refine .plain rfl (fun K hK => ?_) fun K hK => hK
  simp only [Item.Fits, Item.jumps, List.forall_mem_cons, List.forall_mem_map]
  exact ⟨hdflt.trans hK, fun p hp => (hpairs p hp).trans hK⟩

@[simp] theorem keeps_load : (Code.load cell n).Keeps A O B ↔ n ∈ B := by
  exact ⟨fun h => h.fits B subset_rfl, fun hn => .plain rfl (fun K hK => hK hn) fun K hK => hK⟩

@[simp] theorem keeps_store : (Code.store cell n).Keeps A O B := by
  refine .plain rfl (fun K _ => ?_) fun K hK => hK.trans (Set.subset_insert n K)
  simp [Code.store, Item.jumps, Instruction.simple, Instruction.labels]

@[simp] theorem keeps_op {o : Opcode} :
    (Code.op o).Keeps A O B ↔ ∀ l ∈ (Instruction.simple o .absent).labels, A l ⊆ B := by
  refine ⟨fun h => ?_, fun h => .plain rfl (fun K hK => ?_) fun K hK => ?_⟩
  · simpa [Code.op, Item.jumps] using h.fits B subset_rfl
  · simpa [Code.op, Item.jumps] using fun l hl => (h l hl).trans hK
  · simpa [Code.op] using hK

@[simp] theorem keeps_ldc {v : Value} : (Code.ldc v).Keeps A O B := by
  refine .plain rfl (fun K _ => ?_) fun K hK => ?_
  · simp [Code.ldc, Item.jumps, Instruction.simple, Instruction.labels]
  · simpa [Code.ldc] using hK

@[simp] theorem keeps_call {m : Method} : (Code.call m).Keeps A O B := by
  refine .plain rfl (fun K _ => ?_) fun K hK => ?_
  · simp [Code.call, Item.jumps, Instruction.simple, Instruction.labels]
  · simpa [Code.call] using hK

end Items

namespace Code

/-- The slots that have been stored to behind some code. -/
def after (A : Annotation) (K : Set Nat) (code : Code) : Set Nat := code.foldl (Item.after A) K

/-- Every item fits what has been stored to before it, which is never less than `B`. -/
def Fits (A : Annotation) (B : Set Nat) : Set Nat → Code → Prop
  | _, [] => True
  | K, i :: rest => B ⊆ K ∧ i.Fits A K ∧ Fits A B (i.after A K) rest

/-- Wherever a range of some code is protected, what the handler asks for has been stored to. -/
def Protects (A : Annotation) (K : Set Nat) (code : Code) (h : Handler) : Prop :=
  ∃ front mid back, code = front ++ mid ++ back ∧ h.start ∈ Code.placed mid ∧
    h.stop ∈ Code.placed mid ∧ Fits A (A h.handler) (after A K front) mid

def Opens (A : Annotation) (B : Set Nat) (labels : List Label) (h : Handler) : Prop :=
  h.start ∈ labels ∧ h.stop ∈ labels ∧ A h.handler ⊆ B

/-- Code that fits wherever the slots in `B` have been stored to. Those stay known in it, and behind
it those in `C` are. The handlers for which `O` holds are left open. -/
structure Flows (A : Annotation) (O : Handler → Prop) (B : Set Nat) (code : Code) (C : Set Nat) :
    Prop where
  fits : ∀ K, B ⊆ K → Fits A B K code
  after : ∀ K, B ⊆ K → C ⊆ after A K code
  handlers : ∀ K, B ⊆ K → ∀ h ∈ code.handlers, O h ∨ Protects A K code h

section

variable {A : Annotation} {O : Handler → Prop} {B C D K : Set Nat} {a b code : Code}

theorem after_append : after A K (a ++ b) = after A (after A K a) b := List.foldl_append

/-- Code fits behind other code if it fits what is known there. -/
theorem fits_append : Fits A B K (a ++ b) ↔ Fits A B K a ∧ Fits A B (after A K a) b := by
  induction a generalizing K with
  | nil => simp [Fits, after]
  | cons i a ih =>
    simp only [List.cons_append, Fits, ih, and_assoc]
    rfl

theorem Fits.weaken (h : Fits A C K code) (hle : B ⊆ C) : Fits A B K code := by
  induction code generalizing K with
  | nil => trivial
  | cons i code ih => exact ⟨hle.trans h.1, h.2.1, ih h.2.2⟩

variable {h : Handler}

theorem Opens.mono {labels labels' : List Label} (hopens : Opens A B labels h)
    (hle : labels ⊆ labels') : Opens A B labels' h :=
  ⟨hle hopens.1, hle hopens.2.1, hopens.2.2⟩

/-- A range is protected in longer code. -/
theorem Protects.left (hp : Protects A K a h) : Protects A K (a ++ b) h := by
  obtain ⟨front, mid, back, rfl, hrest⟩ := hp
  exact ⟨front, mid, back ++ b, by simp, hrest⟩

theorem Protects.right (hp : Protects A (after A K a) b h) : Protects A K (a ++ b) h := by
  obtain ⟨front, mid, back, rfl, hstart, hstop, hfits⟩ := hp
  exact ⟨a ++ front, mid, back, by simp, hstart, hstop, by rwa [after_append]⟩

namespace Flows

theorem nil : Flows A O B [] B :=
  ⟨fun _ _ => trivial, fun _ hK => hK, by simp⟩

/-- Code flows into the code behind it. -/
theorem append (ha : Flows A O B a C) (hb : Flows A O C b D) (hle : B ⊆ C) :
    Flows A O B (a ++ b) D := by
  refine ⟨fun K hK => ?_, fun K hK => ?_, fun K hK h hh => ?_⟩
  · exact fits_append.2 ⟨ha.fits K hK, (hb.fits _ (ha.after K hK)).weaken hle⟩
  · rw [after_append]
    exact hb.after _ (ha.after K hK)
  · rw [handlers_append, List.mem_append] at hh
    rcases hh with hh | hh
    · exact (ha.handlers K hK h hh).imp_right Protects.left
    · exact (hb.handlers _ (ha.after K hK) h hh).imp_right Protects.right

/-- One after the other, where the first adds nothing. -/
theorem seq (ha : Flows A O B a B) (hb : Flows A O B b D) : Flows A O B (a ++ b) D :=
  ha.append hb subset_rfl

theorem weaken (h : Flows A O B code C) (hle : D ⊆ C) : Flows A O B code D :=
  ⟨h.fits, fun K hK => hle.trans (h.after K hK), h.handlers⟩

theorem item {i : Item} (h : i.Keeps A O B) : Flows A O B [i] B := by
  refine ⟨fun K hK => ⟨hK, h.fits K hK, trivial⟩, h.after, fun K _ k hk => .inl (h.handler k ?_)⟩
  simpa [Code.handlers] using hk

/-- Code flows if each of its items keeps what is known. -/
theorem items (h : ∀ i ∈ code, i.Keeps A O B) : Flows A O B code B := by
  induction code with
  | nil => exact nil
  | cons i code ih =>
    obtain ⟨hi, hrest⟩ := List.forall_mem_cons.1 h
    exact (item hi).seq (ih hrest)

theorem label {l : Label} (h : A l ⊆ B) : Flows A O B [.label l] (A l) :=
  ⟨fun _ hK => ⟨hK, h.trans hK, trivial⟩, fun _ _ => subset_rfl, by simp⟩

theorem store (A : Annotation) (O : Handler → Prop) (B : Set Nat) (cell : Cell) (n : Nat) :
    Flows A O B [Code.store cell n] (insert n B) := by
  refine ⟨fun K hK => ⟨hK, (keeps_store (O := O)).fits K hK, trivial⟩,
    fun K hK => Set.insert_subset_insert hK, by simp [Code.store]⟩

/-- The whole of some code is a range for every handler that asks for no more than what is known
throughout, if the range of the handler is in the code. -/
theorem close (h : Flows A (Opens A B code.placed) B code C) : Flows A O B code C := by
  refine ⟨h.fits, h.after, fun K hK k hk => .inr ?_⟩
  rcases h.handlers K hK k hk with ⟨hstart, hstop, hopen⟩ | hprotects
  · exact ⟨[], code, [], by simp, hstart, hstop, (h.fits K hK).weaken hopen⟩
  · exact hprotects

end Flows

end

end Code

namespace Checked

open Code

/-- Whatever is made has a property for annotations that agree with a certain one on the labels that
were used up. -/
def Annotates {α : Type} (P : Annotation → α → Prop) (g : Gen α) : Prop :=
  ∀ ⦃n a n'⦄, g n = .ok (a, n') → n ≤ n' ∧
    ∃ A₀ : Annotation, ∀ A, (∀ l, Between n n' l → A l = A₀ l) → P A a

/-- An annotation on the labels from `n` up to `m`, and another one on the rest. -/
def joined (n m : Nat) (A₁ A₂ : Annotation) : Annotation :=
  fun l => if Between n m l then A₁ l else A₂ l

/-- Joined annotations agree with each of the two on its labels. -/
theorem agrees_of_joined {n m n' : Nat} {A A₁ A₂ : Annotation} (hle : n ≤ m) (hle' : m ≤ n')
    (h : ∀ l, Between n n' l → A l = joined n m A₁ A₂ l) :
    (∀ l, Between n m l → A l = A₁ l) ∧ ∀ l, Between m n' l → A l = A₂ l := by
  refine ⟨fun l hl => ?_, fun l hl => ?_⟩
  · exact (h l (hl.mono (le_refl n) hle')).trans (if_pos hl)
  · have hout : ¬ Between n m l := fun hin => absurd (hin.2.trans_lt hl.1) (lt_irrefl _)
    exact (h l (hl.mono hle (le_refl n'))).trans (if_neg hout)

namespace Annotates

variable {α β : Type} {P : Annotation → α → Prop} {Q : Annotation → β → Prop}

theorem pure {a : α} (h : ∀ A, P A a) : Annotates P (Pure.pure a : Gen α) := by
  intro n b n' hb
  cases pure_ok.1 hb
  exact ⟨le_refl n, fun _ => ∅, fun A _ => h A⟩

theorem throw (f : Fault) : Annotates P (throw f : Gen α) := by
  intro n a n' h
  exact (throw_ok.1 h).elim

/-- The labels of both parts are apart, so each keeps its annotation. -/
theorem bind {g : Gen α} {f : α → Gen β} (hg : Annotates P g)
    (hf : ∀ a, Annotates (fun A b => P A a → Q A b) (f a)) : Annotates Q (g >>= f) := by
  intro n b n' h
  obtain ⟨a, m, ha, hb⟩ := bind_ok.1 h
  obtain ⟨hle, A₁, hA₁⟩ := hg ha
  obtain ⟨hle', A₂, hA₂⟩ := hf a hb
  refine ⟨hle.trans hle', joined n m A₁ A₂, fun A hA => ?_⟩
  obtain ⟨hfirst, hsecond⟩ := agrees_of_joined hle hle' hA
  exact hA₂ A hsecond (hA₁ A hfirst)

/-- What follows from the property may take its place. -/
theorem imp {R : Annotation → α → Prop} {g : Gen α} (h : Annotates P g)
    (himp : ∀ A a, P A a → R A a) : Annotates R g := by
  intro n a n' ha
  obtain ⟨hle, A₀, hA₀⟩ := h ha
  exact ⟨hle, A₀, fun A hA => himp A a (hA₀ A hA)⟩

theorem fresh (B : Set Nat) : Annotates (fun A l => A l = B) Code.fresh := by
  intro n l n' h
  cases fresh_ok.1 h
  exact ⟨Nat.le_succ n, fun _ => B, fun A hA => hA _ (by simp)⟩

/-- So can labels that are kept for later. -/
theorem reserve (B : Set Nat) (k : Nat) {f : Nat → Gen β}
    (hf : ∀ base, Annotates (fun A b => (∀ l, Between base (base + k) l → A l = B) → Q A b)
      (f base)) :
    Annotates Q (get >>= fun base => set (base + k) >>= fun _ => f base) := by
  intro n b n' h
  have hb : f n (n + k) = .ok (b, n') := h
  obtain ⟨hle, A₀, hA₀⟩ := hf n hb
  refine ⟨(Nat.le_add_right n k).trans hle, joined n (n + k) (fun _ => B) A₀, fun A hA => ?_⟩
  obtain ⟨hfirst, hsecond⟩ := agrees_of_joined (Nat.le_add_right n k) hle hA
  exact hA₀ A hsecond hfirst

end Annotates

end Checked

end Jminus
