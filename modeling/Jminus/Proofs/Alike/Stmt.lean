import Jminus.Proofs.Alike
import Mathlib

/-!
Alike statements end alike.

Evaluation of a do loop and of its unrolled form do not count their rounds in the same way, so what
is compared is evaluation for some number of rounds with evaluation for any larger one.
-/
namespace Jminus.Checked

/-- Frames of one tree that a jump may name, by their numbers, each with the one that stands for it in
the other tree. -/
structure FramePairs where
  breaks : List (Nat × Nat) := []
  continues : List (Nat × Nat) := []

namespace FramePairs

structure Adds (φ : FramePairs) (i i' : Nat) : Prop where
  left : ∀ p ∈ φ.breaks ++ φ.continues, p.1 ≠ i
  right : ∀ p ∈ φ.breaks ++ φ.continues, p.2 ≠ i'

def loop (φ : FramePairs) (i i' : Nat) : FramePairs :=
  { breaks := (i, i') :: φ.breaks, continues := (i, i') :: φ.continues }

def switch (φ : FramePairs) (i i' : Nat) : FramePairs := { φ with breaks := (i, i') :: φ.breaks }

def flip (φ : FramePairs) : FramePairs :=
  { breaks := φ.breaks.map Prod.swap, continues := φ.continues.map Prod.swap }

variable {φ : FramePairs} {i i' : Nat}

theorem Adds.flip (h : φ.Adds i i') : φ.flip.Adds i' i := by
  have hmem : ∀ p ∈ φ.flip.breaks ++ φ.flip.continues, p.swap ∈ φ.breaks ++ φ.continues := by
    intro p hp
    simp only [FramePairs.flip, ← List.map_append, List.mem_map] at hp
    obtain ⟨q, hq, rfl⟩ := hp
    exact hq
  exact ⟨fun p hp => h.right _ (hmem p hp), fun p hp => h.left _ (hmem p hp)⟩

/-- A jump that is paired leads to neither of two new frames. -/
theorem Adds.of_break (h : φ.Adds i i') {id id' : Nat} (hid : (id, id') ∈ φ.breaks) :
    id ≠ i ∧ id' ≠ i' :=
  ⟨h.left _ (List.mem_append_left _ hid), h.right _ (List.mem_append_left _ hid)⟩

theorem Adds.of_continue (h : φ.Adds i i') {id id' : Nat} (hid : (id, id') ∈ φ.continues) :
    id ≠ i ∧ id' ≠ i' :=
  ⟨h.left _ (List.mem_append_right _ hid), h.right _ (List.mem_append_right _ hid)⟩

end FramePairs

mutual

/-- Statements that differ in nothing that matters, with the variables in sight before them and
behind them. -/
inductive Stmt.Alike : Pairing → FramePairs → Stmt → Stmt → Pairing → Prop
  | expr {ρ φ e e'} : e.Alike ρ e' → Stmt.Alike ρ φ (.expr e) (.expr e') ρ
  | declare {ρ φ v v'} : ρ.Adds v v' →
    Stmt.Alike ρ φ (.var v none) (.var v' none) ((v, v') :: ρ)
  | declareWith {ρ φ v v' e e'} : ρ.Adds v v' → e.Alike ρ e' →
    Stmt.Alike ρ φ (.var v (some e)) (.var v' (some e')) ((v, v') :: ρ)
  | block {ρ φ ss ss' σ} : Stmt.AllAlike ρ φ ss ss' σ → Stmt.Alike ρ φ (.block ss) (.block ss') ρ
  | ifThen {ρ φ c c' s s' σ} : c.Alike ρ c' → Stmt.Alike ρ φ s s' σ →
    Stmt.Alike ρ φ (.ifElse c s none) (.ifElse c' s' none) ρ
  | ifElse {ρ φ c c' s s' σ t t' τ} : c.Alike ρ c' → Stmt.Alike ρ φ s s' σ →
    Stmt.Alike ρ φ t t' τ → Stmt.Alike ρ φ (.ifElse c s (some t)) (.ifElse c' s' (some t')) ρ
  | whileLoop {ρ φ f f' c c' s s' σ} : φ.Adds f.id f'.id → c.Alike ρ c' →
    Stmt.Alike ρ (φ.loop f.id f'.id) s s' σ →
    Stmt.Alike ρ φ (.whileLoop f c s) (.whileLoop f' c' s') ρ
  | doLoop {ρ φ f f' c c' s s' σ} : φ.Adds f.id f'.id →
    Stmt.Alike ρ (φ.loop f.id f'.id) s s' σ → c.Alike ρ c' →
    Stmt.Alike ρ φ (.doLoop f s c) (.doLoop f' s' c') ρ
  /-- No jump stands at the head of a for loop. -/
  | forLoop {ρ φ f f' is is' σ c c' us us' s s' τ} : φ.Adds f.id f'.id →
    Stmt.AllAlike ρ {} is is' σ → Option.Rel (Expr.Alike σ) c c' → Expr.AllAlike σ us us' →
    Stmt.Alike σ (φ.loop f.id f'.id) s s' τ →
    Stmt.Alike ρ φ (.forLoop f is c us s) (.forLoop f' is' c' us' s') ρ
  | switch {ρ φ line line' f f' e e' gs gs'} : φ.Adds f.id f'.id → e.Alike ρ e' →
    SwitchGroup.AllAlike ρ (φ.switch f.id f'.id) gs gs' →
    Stmt.Alike ρ φ (.switch line f e gs) (.switch line' f' e' gs') ρ
  | brk {ρ φ line line' id id'} : (id, id') ∈ φ.breaks →
    Stmt.Alike ρ φ (.brk line (some id)) (.brk line' (some id')) ρ
  | cont {ρ φ line line' id id'} : (id, id') ∈ φ.continues →
    Stmt.Alike ρ φ (.cont line (some id)) (.cont line' (some id')) ρ
  | ret {ρ φ} : Stmt.Alike ρ φ .ret .ret ρ
  | throw {ρ φ e e'} : e.Alike ρ e' → Stmt.Alike ρ φ (.throw e) (.throw e') ρ
  | tryCatch {ρ φ ss ss' σ cs cs' f f'} : Stmt.AllAlike ρ φ ss ss' σ →
    CatchClause.AllAlike ρ φ cs cs' → Cleanup.Alike ρ φ f f' →
    Stmt.Alike ρ φ (.tryCatch ss cs f) (.tryCatch ss' cs' f') ρ
  | empty {ρ φ} : Stmt.Alike ρ φ .empty .empty ρ
  /-- A do loop that nothing in its body jumps to, with its first round before the others. -/
  | unroll {ρ φ f f' s s₁ σ₁ s₂ σ₂ c c'} : φ.Adds f.id f'.id → Stmt.Alike ρ φ s s₁ σ₁ →
    Stmt.Alike ρ φ s s₂ σ₂ → c.Alike ρ c' →
    Stmt.Alike ρ φ (.doLoop f s c) (.block [s₁, .whileLoop f' c' s₂]) ρ
  | roll {ρ φ f f' s₁ s σ₁ s₂ σ₂ c c'} : φ.Adds f.id f'.id → Stmt.Alike ρ φ s₁ s σ₁ →
    Stmt.Alike ρ φ s₂ s σ₂ → c.Alike ρ c' →
    Stmt.Alike ρ φ (.block [s₁, .whileLoop f c s₂]) (.doLoop f' s c') ρ

inductive Stmt.AllAlike : Pairing → FramePairs → List Stmt → List Stmt → Pairing → Prop
  | nil {ρ φ} : Stmt.AllAlike ρ φ [] [] ρ
  | cons {ρ φ s s' σ ss ss' τ} : Stmt.Alike ρ φ s s' σ → Stmt.AllAlike σ φ ss ss' τ →
    Stmt.AllAlike ρ φ (s :: ss) (s' :: ss') τ

inductive SwitchGroup.AllAlike : Pairing → FramePairs → List SwitchGroup → List SwitchGroup → Prop
  | nil {ρ φ} : SwitchGroup.AllAlike ρ φ [] []
  | cons {ρ φ values isDefault ss ss' σ gs gs'} : Stmt.AllAlike ρ φ ss ss' σ →
    SwitchGroup.AllAlike ρ φ gs gs' →
    SwitchGroup.AllAlike ρ φ (.mk values isDefault ss :: gs) (.mk values isDefault ss' :: gs')

inductive CatchClause.AllAlike : Pairing → FramePairs → List CatchClause → List CatchClause → Prop
  | nil {ρ φ} : CatchClause.AllAlike ρ φ [] []
  | cons {ρ : Pairing} {φ v v' ss ss' σ cs cs'} : ρ.Adds v v' → Stmt.AllAlike ((v, v') :: ρ) φ ss ss' σ →
    CatchClause.AllAlike ρ φ cs cs' →
    CatchClause.AllAlike ρ φ (.mk v ss :: cs) (.mk v' ss' :: cs')

inductive Cleanup.Alike : Pairing → FramePairs → Cleanup → Cleanup → Prop
  | absent {ρ φ} : Cleanup.Alike ρ φ .absent .absent
  | mk {ρ φ slot slot' ss ss' σ} : Stmt.AllAlike ρ φ ss ss' σ →
    Cleanup.Alike ρ φ (.mk slot ss) (.mk slot' ss')

end

mutual

/-- The relation does not depend on which tree comes first. -/
theorem Stmt.Alike.flip : ∀ {ρ φ s s' σ}, Stmt.Alike ρ φ s s' σ →
    Stmt.Alike ρ.flip φ.flip s' s σ.flip
  | _, _, _, _, _, .expr he => .expr he.flip
  | _, _, _, _, _, .declare hv => .declare hv.flip
  | _, _, _, _, _, .declareWith hv he => .declareWith hv.flip he.flip
  | _, _, _, _, _, .block hss => .block hss.flip
  | _, _, _, _, _, .ifThen hc hs => .ifThen hc.flip hs.flip
  | _, _, _, _, _, .ifElse hc hs ht => .ifElse hc.flip hs.flip ht.flip
  | _, _, _, _, _, .whileLoop hf hc hs => .whileLoop hf.flip hc.flip hs.flip
  | _, _, _, _, _, .doLoop hf hs hc => .doLoop hf.flip hs.flip hc.flip
  | _, _, _, _, _, .forLoop hf his hc hus hs => .forLoop hf.flip his.flip (by
      cases hc with
      | none => exact .none
      | some hc => exact .some hc.flip) hus.flip hs.flip
  | _, _, _, _, _, .switch hf he hgs => .switch hf.flip he.flip hgs.flip
  | _, _, _, _, _, .brk h => .brk (List.mem_map_of_mem h)
  | _, _, _, _, _, .cont h => .cont (List.mem_map_of_mem h)
  | _, _, _, _, _, .ret => .ret
  | _, _, _, _, _, .throw he => .throw he.flip
  | _, _, _, _, _, .tryCatch hss hcs hf => .tryCatch hss.flip hcs.flip hf.flip
  | _, _, _, _, _, .empty => .empty
  | _, _, _, _, _, .unroll hf h₁ h₂ hc => .roll hf.flip h₁.flip h₂.flip hc.flip
  | _, _, _, _, _, .roll hf h₁ h₂ hc => .unroll hf.flip h₁.flip h₂.flip hc.flip

theorem Stmt.AllAlike.flip : ∀ {ρ φ ss ss' σ}, Stmt.AllAlike ρ φ ss ss' σ →
    Stmt.AllAlike ρ.flip φ.flip ss' ss σ.flip
  | _, _, _, _, _, .nil => .nil
  | _, _, _, _, _, .cons hs hss => .cons hs.flip hss.flip

theorem SwitchGroup.AllAlike.flip : ∀ {ρ φ gs gs'}, SwitchGroup.AllAlike ρ φ gs gs' →
    SwitchGroup.AllAlike ρ.flip φ.flip gs' gs
  | _, _, _, _, .nil => .nil
  | _, _, _, _, .cons hss hgs => .cons hss.flip hgs.flip

theorem CatchClause.AllAlike.flip : ∀ {ρ φ cs cs'}, CatchClause.AllAlike ρ φ cs cs' →
    CatchClause.AllAlike ρ.flip φ.flip cs' cs
  | _, _, _, _, .nil => .nil
  | _, _, _, _, .cons hv hss hcs => .cons hv.flip hss.flip hcs.flip

theorem Cleanup.Alike.flip : ∀ {ρ φ f f'}, Cleanup.Alike ρ φ f f' →
    Cleanup.Alike ρ.flip φ.flip f' f
  | _, _, _, _, .absent => .absent
  | _, _, _, _, .mk hss => .mk hss.flip

end

/-- Statements keep what is in sight and add to it. -/
theorem Stmt.Alike.grows {ρ σ : Pairing} {φ s s'} (h : Stmt.Alike ρ φ s s' σ) (hρ : ρ.Exact) :
    ρ ⊆ σ ∧ σ.Exact := by
  cases h with
  | declare hv | declareWith hv => exact ⟨List.subset_cons_self _ _, hρ.cons hv⟩
  | _ => exact ⟨List.Subset.refl _, hρ⟩

theorem Stmt.AllAlike.grows : ∀ {ρ φ ss ss'} {σ : Pairing}, Stmt.AllAlike ρ φ ss ss' σ → ρ.Exact →
    ρ ⊆ σ ∧ σ.Exact
  | _, _, _, _, _, .nil, hρ => ⟨List.Subset.refl _, hρ⟩
  | _, _, _, _, _, .cons hs hss, hρ =>
    have hsight := hs.grows hρ
    have hbehind := hss.grows hsight.2
    ⟨List.Subset.trans hsight.1 hbehind.1, hbehind.2⟩

namespace Meaning

/-- One evaluation ends as another does, if it ends. Variables declared on the way are in sight behind
a normal end only. -/
inductive Result.Below (ρ σ : Pairing) (φ : FramePairs) : Result → Result → Prop
  | spent (r) : Below ρ σ φ .spent r
  | stuck (r) : Below ρ σ φ .stuck r
  | normal {w w'} : World.Alike σ w w' → Below ρ σ φ (.done .normal w) (.done .normal w')
  | brk {id id' w w'} : (id, id') ∈ φ.breaks → World.Alike ρ w w' →
    Below ρ σ φ (.done (.brk id) w) (.done (.brk id') w')
  | cont {id id' w w'} : (id, id') ∈ φ.continues → World.Alike ρ w w' →
    Below ρ σ φ (.done (.cont id) w) (.done (.cont id') w')
  | ret {w w'} : World.Alike ρ w w' → Below ρ σ φ (.done .ret w) (.done .ret w')
  | raised (x) {w w'} : World.Alike ρ w w' →
    Below ρ σ φ (.done (.raised x) w) (.done (.raised x) w')

def Round.followed (r : Round) (k : World → Result) : Result :=
  match r with
  | .again w => k w
  | .ended r => r

theorem rounds_succ (round : World → Round) (n : Nat) (w : World) :
    rounds round (n + 1) w = (round w).followed (rounds round n) := rfl

section Results

variable {ρ σ τ : Pairing} {φ : FramePairs} {r r' : Result} {i i' : Nat}

namespace Result.Below

/-- With fewer variables in sight, and more pairs of frames. -/
theorem mono {ρ' σ' : Pairing} {ψ : FramePairs} (h : Below ρ σ φ r r') (hρ : ρ' ⊆ ρ) (hσ : σ' ⊆ σ)
    (hbrk : φ.breaks ⊆ ψ.breaks) (hcont : φ.continues ⊆ ψ.continues) : Below ρ' σ' ψ r r' := by
  cases h with
  | spent => exact .spent _
  | stuck => exact .stuck _
  | normal hw => exact .normal (hw.mono hσ)
  | brk hid hw => exact .brk (hbrk hid) (hw.mono hρ)
  | cont hid hw => exact .cont (hcont hid) (hw.mono hρ)
  | ret hw => exact .ret (hw.mono hρ)
  | raised x hw => exact .raised x (hw.mono hρ)

/-- Out of a scope. -/
theorem outside (h : Below ρ σ φ r r') (hsub : ρ ⊆ σ) : Below ρ ρ φ r r' :=
  h.mono (List.Subset.refl _) hsub (List.Subset.refl _) (List.Subset.refl _)

/-- Where fewer variables were in sight. -/
theorem before (h : Below σ τ φ r r') (hsub : ρ ⊆ σ) : Below ρ τ φ r r' :=
  h.mono hsub (List.Subset.refl _) (List.Subset.refl _) (List.Subset.refl _)

/-- Without jumps it does not matter what they may name. -/
theorem jumpless (h : Below ρ σ {} r r') : Below ρ σ φ r r' :=
  h.mono (List.Subset.refl _) (List.Subset.refl _) (List.nil_subset _) (List.nil_subset _)

variable {k k' : World → Result} {next next' onContinue onContinue' : World → Round}

/-- What is done one after the other stays below. -/
theorem andThen (h : Below ρ σ φ r r') (hsub : ρ ⊆ σ)
    (hk : ∀ {w w'}, World.Alike σ w w' → Below σ τ φ (k w) (k' w')) :
    Below ρ τ φ (r.andThen k) (r'.andThen k') := by
  cases h with
  | spent => exact .spent _
  | stuck => exact .stuck _
  | normal hw => exact (hk hw).before hsub
  | brk hid hw => exact .brk hid hw
  | cont hid hw => exact .cont hid hw
  | ret hw => exact .ret hw
  | raised x hw => exact .raised x hw

/-- A jump out of the frame ends here on both sides. -/
theorem upTo (h : Below ρ ρ (φ.switch i i') r r') (hi : φ.Adds i i') :
    Below ρ ρ φ (r.upTo i) (r'.upTo i') := by
  cases h with
  | spent => exact .spent _
  | stuck => exact .stuck _
  | normal hw => exact .normal hw
  | brk hid hw =>
    rcases List.mem_cons.1 hid with heq | hid
    · cases heq
      simpa only [Result.upTo, if_true] using .normal hw
    · obtain ⟨hne, hne'⟩ := hi.of_break hid
      simpa only [Result.upTo, hne, hne', if_false] using .brk hid hw
  | cont hid hw => exact .cont hid hw
  | ret hw => exact .ret hw
  | raised x hw => exact .raised x hw

theorem inLoop (h : Below ρ ρ (φ.loop i i') r r') (hi : φ.Adds i i')
    (hnext : ∀ {w w'}, World.Alike ρ w w' →
      Below ρ ρ φ ((next w).followed k) ((next' w').followed k'))
    (hcont : ∀ {w w'}, World.Alike ρ w w' →
      Below ρ ρ φ ((onContinue w).followed k) ((onContinue' w').followed k')) :
    Below ρ ρ φ ((r.inLoop i next onContinue).followed k)
      ((r'.inLoop i' next' onContinue').followed k') := by
  cases h with
  | spent => exact .spent _
  | stuck => exact .stuck _
  | normal hw => exact hnext hw
  | brk hid hw => exact upTo (.brk hid hw) hi
  | cont hid hw =>
    rcases List.mem_cons.1 hid with heq | hid
    · cases heq
      simpa only [Result.inLoop, if_true] using hcont hw
    · obtain ⟨hne, hne'⟩ := hi.of_continue hid
      simpa only [Result.inLoop, hne, hne', if_false] using .cont hid hw
  | ret hw => exact .ret hw
  | raised x hw => exact .raised x hw

/-- Without a jump to the loop it does not matter what the loop does on one. -/
theorem inLoop_of_adds (h : Below ρ ρ φ r r') (hi : φ.Adds i i')
    (hnext : ∀ {w w'}, World.Alike ρ w w' →
      Below ρ ρ φ ((next w).followed k) ((next' w').followed k')) :
    Below ρ ρ φ ((r.inLoop i next onContinue).followed k)
      ((r'.inLoop i' next' onContinue').followed k') := by
  cases h with
  | spent => exact .spent _
  | stuck => exact .stuck _
  | normal hw => exact hnext hw
  | brk hid hw => exact upTo (.brk (List.mem_cons_of_mem _ hid) hw) hi
  | cont hid hw =>
    obtain ⟨hne, hne'⟩ := hi.of_continue hid
    simpa only [Result.inLoop, hne, hne', if_false] using .cont hid hw
  | ret hw => exact .ret hw
  | raised x hw => exact .raised x hw

theorem orCatch {k k' : Raised → World → Result} (h : Below ρ ρ φ r r')
    (hk : ∀ x {w w'}, World.Alike ρ w w' → Below ρ ρ φ (k x w) (k' x w')) :
    Below ρ ρ φ (r.orCatch k) (r'.orCatch k') := by
  cases h with
  | spent => exact .spent _
  | stuck => exact .stuck _
  | normal hw => exact .normal hw
  | brk hid hw => exact .brk hid hw
  | cont hid hw => exact .cont hid hw
  | ret hw => exact .ret hw
  | raised x hw => exact hk x hw

theorem withCleanup (h : Below ρ ρ φ r r')
    (hk : ∀ {w w'}, World.Alike ρ w w' → Below ρ ρ φ (k w) (k' w')) :
    Below ρ ρ φ (r.withCleanup k) (r'.withCleanup k') := by
  cases h with
  | spent => exact .spent _
  | stuck => exact .stuck _
  | normal hw => exact hk hw
  | brk hid hw => exact .brk hid hw
  | cont hid hw => exact .cont hid hw
  | ret hw => exact .ret hw
  | raised x hw => exact (hk hw).andThen (List.Subset.refl _) (.raised x)

end Result.Below

/-- What depends on a value depends on the same value on both sides. -/
theorem withValue_below {α : Type} {x x' : Eval α} {k k' : α → World → Result}
    (hx : Eval.Alike ρ x x')
    (hk : ∀ a {w w'}, World.Alike ρ w w' → Result.Below ρ σ φ (k a w) (k' a w'))
    {w w' : World} (hw : World.Alike ρ w w') :
    Result.Below ρ σ φ (withValue x k w) (withValue x' k' w') := by
  unfold withValue
  exact hx.answers hw (.stuck _) (fun a _ _ hw => hk a hw) fun e _ _ hw => .raised e hw

section Rounds

variable {c c' : Expr} {k k' : World → Result}

variable {yes yes' : World → Round} {w w' : World}

/-- A condition decides in the same way which of two ways to go on. -/
theorem test_followed (hρ : ρ.Exact) (hc : c.Alike ρ c') (hyes : ∀ {w w'}, World.Alike ρ w w' →
      Result.Below ρ ρ φ ((yes w).followed k) ((yes' w').followed k')) (hw : World.Alike ρ w w') :
    Result.Below ρ ρ φ ((test c yes w).followed k) ((test c' yes' w').followed k') := by
  unfold test
  refine ((eval_alike hρ hc).bind truth_alike).answers hw (.stuck _) (fun b _ _ hw => ?_)
    fun e _ _ hw => .raised e hw
  cases b with
  | true => exact hyes hw
  | false => exact .normal hw

/-- A test that is missing always holds. -/
theorem testOr_followed (hρ : ρ.Exact) {c c' : Option Expr} (hc : Option.Rel (Expr.Alike ρ) c c')
    (hyes : ∀ {w w'}, World.Alike ρ w w' →
      Result.Below ρ ρ φ ((yes w).followed k) ((yes' w').followed k')) (hw : World.Alike ρ w w') :
    Result.Below ρ ρ φ ((testOr c yes w).followed k) ((testOr c' yes' w').followed k') := by
  cases hc with
  | none => exact hyes hw
  | some hc => exact test_followed hρ hc hyes hw

/-- The updates of a for loop come before its next round. -/
theorem advance_followed (hρ : ρ.Exact) {us us' : List Expr} (hus : Expr.AllAlike ρ us us')
    (hk : ∀ {w w'}, World.Alike ρ w w' → Result.Below ρ ρ φ (k w) (k' w')) (hw : World.Alike ρ w w') :
    Result.Below ρ ρ φ ((advance us w).followed k) ((advance us' w').followed k') := by
  unfold advance
  exact (effects_alike hρ hus).answers hw (.stuck _) (fun _ _ _ hw => hk hw)
    fun e _ _ hw => .raised e hw

/-- Rounds that end alike, whatever follows them, make loops that do. -/
theorem rounds_below {f g : World → Round} (h : ∀ {k k' : World → Result},
      (∀ {w w'}, World.Alike ρ w w' → Result.Below ρ ρ φ (k w) (k' w')) →
      ∀ {w w'}, World.Alike ρ w w' → Result.Below ρ ρ φ ((f w).followed k) ((g w').followed k'))
    {n m : Nat} (hnm : n ≤ m) (hw : World.Alike ρ w w') :
    Result.Below ρ ρ φ (rounds f n w) (rounds g m w') := by
  induction n generalizing m w w' with
  | zero => exact .spent _
  | succ n ih =>
    obtain ⟨m, rfl⟩ := Nat.exists_eq_succ_of_ne_zero (by omega : m ≠ 0)
    rw [rounds_succ, rounds_succ]
    exact h (ih (by omega)) hw

end Rounds

section Unrolling

variable {c c' : Expr} {b b' : World → Result}

/-- Where the bodies of two loops have just ended, a do loop goes on as a while loop does. -/
theorem unrolled_below (hρ : ρ.Exact) (hc : c.Alike ρ c') (hi : φ.Adds i i')
    (hb : ∀ {w w'}, World.Alike ρ w w' → Result.Below ρ ρ φ (b w) (b' w')) {n m : Nat}
    (hnm : n ≤ m) {w : World} (h : Result.Below ρ ρ φ (b w) r') :
    Result.Below ρ ρ φ (rounds (fun w => (b w).inLoop i (test c .again) .again) n w)
      ((r'.inLoop i' .again .again).followed
        (rounds (test c' fun w => (b' w).inLoop i' .again .again) m)) := by
  induction n generalizing m w r' with
  | zero => exact .spent _
  | succ n ih =>
    obtain ⟨m, rfl⟩ := Nat.exists_eq_succ_of_ne_zero (by omega : m ≠ 0)
    rw [rounds_succ]
    refine h.inLoop_of_adds hi fun hw => ?_
    exact test_followed hρ hc (fun hw => ih (by omega) (hb hw)) hw

/-- And a while loop as a do loop does, which is one round behind. -/
theorem rolled_below (hρ : ρ.Exact) (hc : c.Alike ρ c') (hi : φ.Adds i i')
    (hb : ∀ {w w'}, World.Alike ρ w w' → Result.Below ρ ρ φ (b w) (b' w')) {n m : Nat}
    (hnm : n < m) {w' : World} (h : Result.Below ρ ρ φ r (b' w')) :
    Result.Below ρ ρ φ ((r.inLoop i .again .again).followed
        (rounds (test c fun w => (b w).inLoop i .again .again) n))
      (rounds (fun w => (b' w).inLoop i' (test c' .again) .again) m w') := by
  induction m generalizing n w' r with
  | zero => cases hnm
  | succ m ih =>
    rw [rounds_succ]
    refine h.inLoop_of_adds hi fun hw => ?_
    cases n with
    | zero => exact .spent _
    | succ n => exact test_followed hρ hc (fun hw => ih (by omega) (hb hw)) hw

/-- A body that does not jump to the loop may as well stand before it. -/
theorem Result.Below.followed_left (h : Below ρ ρ φ r r') (hi : φ.Adds i i')
    (k : World → Result) : (r.inLoop i .again .again).followed k = r.andThen k := by
  cases h with
  | brk hid =>
    simp only [Result.inLoop, Result.upTo, (hi.of_break hid).1, if_false]
    rfl
  | cont hid =>
    simp only [Result.inLoop, (hi.of_continue hid).1, if_false]
    rfl
  | _ => rfl

theorem Result.Below.followed_right (h : Below ρ ρ φ r r') (hi : φ.Adds i i')
    (k : World → Result) :
    r = .spent ∨ r = .stuck ∨ (r'.inLoop i' .again .again).followed k = r'.andThen k := by
  cases h with
  | spent => exact .inl rfl
  | stuck => exact .inr (.inl rfl)
  | brk hid =>
    simp only [Result.inLoop, Result.upTo, (hi.of_break hid).2, if_false]
    exact .inr (.inr rfl)
  | cont hid =>
    simp only [Result.inLoop, (hi.of_continue hid).2, if_false]
    exact .inr (.inr rfl)
  | _ => exact .inr (.inr rfl)

/-- A loop whose first body does not end does not end. -/
theorem rounds_idle {round : World → Round} {w : World} (n : Nat)
    (h : round w = .ended .spent ∨ round w = .ended .stuck) :
    Result.Below ρ ρ φ (rounds round n w) r := by
  cases n with
  | zero => exact .spent _
  | succ n =>
    rw [rounds_succ]
    rcases h with h | h <;> rw [h]
    · exact .spent _
    · exact .stuck _

/-- Nothing is to be done behind a normal end. -/
theorem andThen_done (r : Result) : r.andThen (.done .normal) = r := by
  cases r with
  | done c w => cases c <;> rfl
  | _ => rfl

variable {n m : Nat} {s s₁ s₂ : Stmt} {f f' : Frame} {w w' : World}

/-- A do loop ends as its body and the loop behind it do. -/
theorem unroll_below (hρ : ρ.Exact) (hc : c.Alike ρ c') (hf : φ.Adds f.id f'.id) (hnm : n ≤ m)
    (h₁ : Result.Below ρ ρ φ (exec n s w) (exec m s₁ w'))
    (h₂ : ∀ {w w'}, World.Alike ρ w w' → Result.Below ρ ρ φ (exec n s w) (exec m s₂ w')) :
    Result.Below ρ ρ φ (exec n (.doLoop f s c) w)
      (exec m (.block [s₁, .whileLoop f' c' s₂]) w') := by
  simp only [exec, execs, andThen_done]
  rcases h₁.followed_right hf (rounds (test c' fun w => (exec m s₂ w).inLoop f'.id .again .again) m)
    with hidle | hidle | heq
  · exact rounds_idle n (.inl (by rw [hidle]; rfl))
  · exact rounds_idle n (.inr (by rw [hidle]; rfl))
  · rw [← heq]
    exact unrolled_below hρ hc hf h₂ hnm h₁

/-- And the other way round, with one round less to count. -/
theorem roll_below (hρ : ρ.Exact) (hc : c.Alike ρ c') (hf : φ.Adds f.id f'.id) (hnm : n < m)
    (h₁ : Result.Below ρ ρ φ (exec n s₁ w) (exec m s w'))
    (h₂ : ∀ {w w'}, World.Alike ρ w w' → Result.Below ρ ρ φ (exec n s₂ w) (exec m s w')) :
    Result.Below ρ ρ φ (exec n (.block [s₁, .whileLoop f c s₂]) w)
      (exec m (.doLoop f' s c') w') := by
  simp only [exec, execs, andThen_done]
  rw [← h₁.followed_left hf]
  exact rolled_below hρ hc hf h₂ hnm h₁

end Unrolling

end Results

variable {ρ σ : Pairing} {φ : FramePairs} {gs gs' : List SwitchGroup} {program program' : List Stmt}

/-- The same group of a switch is found on both sides. -/
theorem findIdx?_alike {p : SwitchGroup → Bool}
    (hp : ∀ values isDefault ss ss', p (.mk values isDefault ss) = p (.mk values isDefault ss'))
    (h : SwitchGroup.AllAlike ρ φ gs gs') :
    gs.findIdx? p = gs'.findIdx? p ∧ gs.length = gs'.length := by
  induction gs generalizing gs' with
  | nil =>
    cases h
    exact ⟨rfl, rfl⟩
  | cons g gs ih =>
    cases h with
    | @cons _ _ values isDefault ss ss' _ _ _ _ hgs =>
      obtain ⟨hfind, hlength⟩ := ih hgs
      simp only [List.findIdx?_cons, hp values isDefault ss ss', hfind, List.length_cons, hlength,
        and_self]

/-- Both trees pass over the same groups. -/
theorem passed_alike (h : SwitchGroup.AllAlike ρ φ gs gs') (key : Int32) :
    passed key gs = passed key gs' := by
  obtain ⟨hkey, hlength⟩ := findIdx?_alike (p := holds key) (fun _ _ _ _ => rfl) h
  obtain ⟨hdefault, _⟩ := findIdx?_alike (p := isDefault) (fun _ _ _ _ => rfl) h
  rw [passed, passed, hkey, hdefault, hlength]

mutual

/-- What is evaluated in fewer rounds ends in the same way in alike statements with more. -/
theorem exec_below {n m : Nat} (hnm : n < m) : ∀ {ρ φ s s' σ}, Stmt.Alike ρ φ s s' σ → ρ.Exact →
    ∀ {w w'}, World.Alike ρ w w' → Result.Below ρ σ φ (exec n s w) (exec m s' w')
  | _, _, _, _, _, .expr he, hρ, _, _, hw =>
    withValue_below (eval_alike hρ he) (fun _ _ _ hw => .normal hw) hw
  | _, _, .var v none, _, _, .declare hv, hρ, _, _, hw => by
    simp only [exec, hv.type]
    exact .normal (hw.declare hv _)
  | _, _, _, _, _, .declareWith hv he, hρ, _, _, hw =>
    withValue_below (eval_alike hρ he) (fun d _ _ hw => .normal (hw.declare hv d)) hw
  | _, _, _, _, _, .block hss, hρ, _, _, hw =>
    (execs_below hnm hss hρ hw).outside (hss.grows hρ).1
  | _, _, _, _, _, .ifThen hc hs, hρ, _, _, hw => by
    refine withValue_below ((eval_alike hρ hc).bind truth_alike) (fun b w w' hw => ?_) hw
    cases b with
    | true => exact (exec_below hnm hs hρ hw).outside (hs.grows hρ).1
    | false => exact .normal hw
  | _, _, _, _, _, .ifElse hc hs ht, hρ, _, _, hw => by
    refine withValue_below ((eval_alike hρ hc).bind truth_alike) (fun b w w' hw => ?_) hw
    cases b with
    | true => exact (exec_below hnm hs hρ hw).outside (hs.grows hρ).1
    | false => exact (exec_below hnm ht hρ hw).outside (ht.grows hρ).1
  | _, _, _, _, _, .whileLoop hf hc hs, hρ, _, _, hw => by
    refine rounds_below (fun hk _ _ hw => test_followed hρ hc (fun hw => ?_) hw) hnm.le hw
    exact ((exec_below hnm hs hρ hw).outside (hs.grows hρ).1).inLoop hf hk hk
  | _, _, _, _, _, .doLoop hf hs hc, hρ, _, _, hw => by
    refine rounds_below (fun hk _ _ hw => ?_) hnm.le hw
    exact ((exec_below hnm hs hρ hw).outside (hs.grows hρ).1).inLoop hf
      (test_followed hρ hc hk) hk
  | _, _, _, _, _, .forLoop hf his hc hus hs, hρ, _, _, hw => by
    obtain ⟨hsub, hσ⟩ := his.grows hρ
    have hinit := execs_below hnm his hρ hw
    refine (hinit.jumpless.andThen hsub fun hw => rounds_below (fun hk _ _ hw => ?_) hnm.le hw).outside hsub
    refine testOr_followed hσ hc (fun hw => ?_) hw
    exact ((exec_below hnm hs hσ hw).outside (hs.grows hσ).1).inLoop hf
      (advance_followed hσ hus hk) (advance_followed hσ hus hk)
  | _, _, _, _, _, .switch hf he hgs, hρ, _, _, hw => by
    refine withValue_below ((eval_alike hρ he).bind number_alike) (fun key w w' hw => ?_) hw
    rw [passed_alike hgs key]
    exact (execGroups_below hnm hgs hρ hw).upTo hf
  | _, _, _, _, _, .brk h, _, _, _, hw => .brk h hw
  | _, _, _, _, _, .cont h, _, _, _, hw => .cont h hw
  | _, _, _, _, _, .ret, _, _, _, hw => .ret hw
  | _, _, _, _, _, .throw he, hρ, _, _, hw => by
    refine withValue_below (eval_alike hρ he) (fun d w w' hw => ?_) hw
    cases d with
    | null =>
      simp only [hw.made]
      exact .raised _ ⟨hw.vars, hw.printed, rfl⟩
    | object id cls => exact .raised _ hw
    | _ => exact .stuck _
  | _, _, _, _, _, .tryCatch hss hcs hf, hρ, _, _, hw =>
    (((execs_below hnm hss hρ hw).outside (hss.grows hρ).1).orCatch
      (execCatches_below hnm hcs hρ)).withCleanup (execCleanup_below hnm hf hρ)
  | _, _, _, _, _, .empty, _, _, _, hw => .normal hw
  | _, _, _, _, _, .unroll hf h₁ h₂ hc, hρ, _, _, hw =>
    unroll_below hρ hc hf hnm.le ((exec_below hnm h₁ hρ hw).outside (h₁.grows hρ).1)
      fun hw => (exec_below hnm h₂ hρ hw).outside (h₂.grows hρ).1
  | _, _, _, _, _, .roll hf h₁ h₂ hc, hρ, _, _, hw =>
    roll_below hρ hc hf hnm ((exec_below hnm h₁ hρ hw).outside (h₁.grows hρ).1)
      fun hw => (exec_below hnm h₂ hρ hw).outside (h₂.grows hρ).1

theorem execs_below {n m : Nat} (hnm : n < m) : ∀ {ρ φ ss ss' σ}, Stmt.AllAlike ρ φ ss ss' σ →
    ρ.Exact → ∀ {w w'}, World.Alike ρ w w' → Result.Below ρ σ φ (execs n ss w) (execs m ss' w')
  | _, _, _, _, _, .nil, _, _, _, hw => .normal hw
  | _, _, _, _, _, .cons hs hss, hρ, _, _, hw =>
    (exec_below hnm hs hρ hw).andThen (hs.grows hρ).1 (execs_below hnm hss (hs.grows hρ).2)

theorem execGroups_below {n m : Nat} (hnm : n < m) : ∀ {ρ φ gs gs'},
    SwitchGroup.AllAlike ρ φ gs gs' → ρ.Exact → ∀ {skip w w'}, World.Alike ρ w w' →
    Result.Below ρ ρ φ (execGroups n gs skip w) (execGroups m gs' skip w')
  | _, _, _, _, .nil, _, _, _, _, hw => .normal hw
  | _, _, _, _, .cons _ hgs, hρ, _ + 1, _, _, hw => execGroups_below hnm hgs hρ hw
  | _, _, _, _, .cons hss hgs, hρ, 0, _, _, hw =>
    ((execs_below hnm hss hρ hw).outside (hss.grows hρ).1).andThen (List.Subset.refl _)
      (execGroups_below hnm hgs hρ)

theorem execCatches_below {n m : Nat} (hnm : n < m) : ∀ {ρ φ cs cs'},
    CatchClause.AllAlike ρ φ cs cs' → ρ.Exact → ∀ x {w w'}, World.Alike ρ w w' →
    Result.Below ρ ρ φ (execCatches n cs x w) (execCatches m cs' x w')
  | _, _, _, _, .nil, _, x, _, _, hw => .raised x hw
  | _, _, _, _, .cons hv hss hcs, hρ, x, _, _, hw => by
    simp only [execCatches, hv.type]
    split
    · have hsight := (hss.grows (hρ.cons hv)).1
      have hbody := execs_below hnm hss (hρ.cons hv) (hw.declare hv x.datum)
      exact (hbody.before (List.subset_cons_self _ _)).outside
        (List.Subset.trans (List.subset_cons_self _ _) hsight)
    · exact execCatches_below hnm hcs hρ x hw

theorem execCleanup_below {n m : Nat} (hnm : n < m) : ∀ {ρ φ f f'}, Cleanup.Alike ρ φ f f' →
    ρ.Exact → ∀ {w w'}, World.Alike ρ w w' →
    Result.Below ρ ρ φ (execCleanup n f w) (execCleanup m f' w')
  | _, _, _, _, .absent, _, _, _, hw => .normal hw
  | _, _, _, _, .mk hss, hρ, _, _, hw => (execs_below hnm hss hρ hw).outside (hss.grows hρ).1

end

/-- Alike programs print the same and end the same way. -/
theorem Evaluates.alike {printed : List String} {outcome : Outcome}
    (h : Stmt.AllAlike [] {} program program' σ) (hends : Evaluates program printed outcome) :
    Evaluates program' printed outcome := by
  obtain ⟨n, c, w, hexec, rfl, hc⟩ := hends
  have hstart : World.Alike [] .start .start := ⟨by simp, rfl, rfl⟩
  have hbelow := execs_below (Nat.lt_succ_self n) h .nil hstart
  rw [hexec] at hbelow
  generalize hexec' : execs (n + 1) program' .start = r at hbelow
  cases hbelow with
  | normal hw | ret hw | raised _ hw => exact ⟨n + 1, _, _, hexec', hw.printed.symm, hc⟩
  | brk hid | cont hid => cases hid

/-- Alike programs print the same and end in the same way, or neither ends. -/
theorem evaluates_iff_alike (h : Stmt.AllAlike [] {} program program' σ) (printed : List String)
    (outcome : Outcome) : Evaluates program printed outcome ↔ Evaluates program' printed outcome :=
  ⟨.alike h, .alike h.flip⟩

end Meaning

end Jminus.Checked
