import Jminus.Scope
import Mathlib

/-!
Names and slots over whole histories.

What is visible in an environment is told by what was done to it. Going back through the history, a
leave hides all up to the enter that it belongs to, and every other declaration is still there. No
name is there twice, and slots are handed out one by one, whatever is left in between.
-/
namespace Jminus.Env

inductive Op where
  | enter
  | leave
  | define (name : String) (type : Ty)
  | get (name : String)
  | allocate
  deriving DecidableEq, Repr

inductive Answer where
  | done
  | declared (v : Local)
  | refused
  | found (v : Option Local)
  | slot (n : Nat)
  deriving DecidableEq, Repr

/-- One operation. The outermost scope cannot be left. -/
def step (env : Env) : Op → Option (Answer × Env)
  | .enter => some (.done, env.enter)
  | .leave => env.leave?.map (.done, ·)
  | .define name type =>
    match env.define name type with
    | some (v, env') => some (.declared v, env')
    | none => some (.refused, env)
  | .get name => some (.found (env.get? name), env)
  | .allocate => some (.slot env.allocate.1, env.allocate.2)

abbrev History := List (Op × Answer)

/-- Histories of a new environment, and what they make of it. -/
inductive Runs : History → Env → Prop
  | start : Runs [] {}
  | step {h : History} {env env' : Env} {op : Op} {a : Answer} (hruns : Runs h env)
      (hstep : env.step op = some (a, env')) : Runs ((op, a) :: h) env'

/-- The declarations in scopes that stay open if `n` of them are left, the latest first. -/
def visible : Nat → History → List Local
  | _, [] => []
  | n, (.leave, _) :: h => visible (n + 1) h
  | 0, (.enter, _) :: h => visible 0 h
  | n + 1, (.enter, _) :: h => visible n h
  | 0, (.define .., .declared v) :: h => v :: visible 0 h
  | n, _ :: h => visible n h

def handed : History → List Nat
  | [] => []
  | (.define .., .declared v) :: h => v.slot :: handed h
  | (.allocate, .slot n) :: h => n :: handed h
  | _ :: h => handed h

inductive Balanced : History → Prop
  | nil : Balanced []
  | plain {op : Op} {a : Answer} {h : History} (henter : op ≠ .enter) (hleave : op ≠ .leave)
      (hrest : Balanced h) : Balanced ((op, a) :: h)
  | nested {a b : Answer} {inner h : History} (hinner : Balanced inner) (hrest : Balanced h) :
      Balanced ((.leave, a) :: (inner ++ (.enter, b) :: h))

section Steps

variable {env env' : Env} {op : Op} {a : Answer} {h h' : History} {n : Nat}

/-- What an operation can do: open a scope, close one that is not the outermost, declare a name that
is not visible, hand out a slot, or nothing. -/
theorem step_cases (hstep : env.step op = some (a, env')) :
    (op = .enter ∧ env' = env.enter) ∨
      (op = .leave ∧ 1 < env.scopes.length ∧ env' = env.leave) ∨
      (∃ name type, op = .define name type ∧ env.get? name = none ∧
        a = .declared (env.add name type).1 ∧ env' = (env.add name type).2) ∨
      (∃ name type v, op = .define name type ∧ env.get? name = some v ∧ a = .refused ∧ env' = env) ∨
      (∃ name, op = .get name ∧ a = .found (env.get? name) ∧ env' = env) ∨
      (op = .allocate ∧ a = .slot env.slots ∧ env' = { env with slots := env.slots + 1 }) := by
  cases op with
  | enter =>
    cases hstep
    exact .inl ⟨rfl, rfl⟩
  | leave =>
    obtain ⟨env₁, hleave, heq⟩ := Option.map_eq_some_iff.1 hstep
    cases heq
    unfold leave? at hleave
    split at hleave
    · cases hleave
    · cases hleave
      exact .inr (.inl ⟨rfl, by omega, rfl⟩)
  | define name type =>
    cases hget : env.get? name with
    | none =>
      simp only [step, define, hget] at hstep
      cases hstep
      exact .inr (.inr (.inl ⟨name, type, rfl, hget, rfl, rfl⟩))
    | some v =>
      simp only [step, define, hget] at hstep
      cases hstep
      exact .inr (.inr (.inr (.inl ⟨name, type, v, rfl, hget, rfl, rfl⟩)))
  | get name =>
    cases hstep
    exact .inr (.inr (.inr (.inr (.inl ⟨name, rfl, rfl, rfl⟩))))
  | allocate =>
    cases hstep
    exact .inr (.inr (.inr (.inr (.inr ⟨rfl, rfl, rfl⟩))))

/-- What is kept between an environment and its history: behind every number of scopes, the visible
declarations are those of the history; no name is visible twice; and the slots are in order. -/
structure Kept (h : History) (env : Env) : Prop where
  scopes : env.scopes ≠ []
  visible : ∀ n < env.scopes.length, (env.scopes.drop n).flatten = visible n h
  names : (env.scopes.flatten.map (·.name)).Nodup
  slots : handed h = (List.range env.slots).reverse

/-- A name that no scope has is not found. -/
theorem get?_eq_none_iff {name : String} :
    env.get? name = none ↔ name ∉ env.scopes.flatten.map (·.name) := by
  simp only [get?, List.find?_eq_none, List.mem_map, beq_iff_eq]
  constructor
  · rintro hno ⟨v, hv, rfl⟩
    exact hno v hv rfl
  · exact fun hno v hv hname => hno ⟨v, hv, hname⟩

theorem Kept.start : Kept [] {} := by
  refine ⟨by simp, fun n hn => ?_, by simp, rfl⟩
  obtain rfl : n = 0 := by simpa using hn
  rfl

/-- It is kept by an operation that leaves scopes and slots alone. -/
theorem Kept.plain (hkept : Kept h env)
    (hvisible : ∀ n, Env.visible n ((op, a) :: h) = Env.visible n h)
    (hhanded : handed ((op, a) :: h) = handed h) : Kept ((op, a) :: h) env :=
  ⟨hkept.scopes, fun n hn => (hkept.visible n hn).trans (hvisible n).symm, hkept.names,
    hhanded.trans hkept.slots⟩

/-- Each operation keeps this. -/
theorem Kept.step (hkept : Kept h env) (hstep : env.step op = some (a, env')) :
    Kept ((op, a) :: h) env' := by
  obtain ⟨hscopes, hvisible, hnames, hslots⟩ := hkept
  rcases step_cases hstep with ⟨rfl, rfl⟩ | ⟨rfl, hlength, rfl⟩ |
    ⟨name, type, rfl, hget, rfl, rfl⟩ | ⟨name, type, v, rfl, _, rfl, rfl⟩ |
    ⟨name, rfl, rfl, rfl⟩ | ⟨rfl, rfl, rfl⟩
  · refine ⟨by simp [enter], fun n hn => ?_, by simpa [enter] using hnames, hslots⟩
    cases n with
    | zero => exact hvisible 0 (List.length_pos_iff.2 hscopes)
    | succ n => exact hvisible n (by simpa [enter] using hn)
  · refine ⟨?_, fun n hn => ?_, ?_, hslots⟩
    · rw [leave, ← List.length_pos_iff, List.length_tail]
      omega
    · simp only [leave, List.length_tail] at hn
      rw [leave, List.drop_tail]
      exact hvisible (n + 1) (by omega)
    · refine hnames.sublist (.map _ ?_)
      obtain ⟨scope, outer, hcons⟩ := List.exists_cons_of_ne_nil hscopes
      simp [leave, hcons]
  · obtain ⟨scope, outer, hcons⟩ := List.exists_cons_of_ne_nil hscopes
    have hadd : (env.add name type).2 =
        { scopes := (⟨name, type, env.slots⟩ :: scope) :: outer, slots := env.slots + 1 } := by
      simp [add, bind, allocate, hcons]
    rw [hadd]
    rw [hcons] at hvisible hnames
    rw [get?_eq_none_iff, hcons] at hget
    refine ⟨by simp, fun n hn => ?_, List.nodup_cons.2 ⟨hget, hnames⟩, ?_⟩
    · cases n with
      | zero => exact congrArg (_ :: ·) (hvisible 0 (by simp))
      | succ n => exact hvisible (n + 1) hn
    · rw [List.range_succ, List.reverse_append, ← hslots]
      rfl
  · exact Kept.plain ⟨hscopes, hvisible, hnames, hslots⟩ (fun n => by cases n <;> rfl) rfl
  · exact Kept.plain ⟨hscopes, hvisible, hnames, hslots⟩ (fun n => by cases n <;> rfl) rfl
  · refine ⟨hscopes, fun n hn => ?_, hnames, ?_⟩
    · rw [hvisible n hn]
      cases n <;> rfl
    · rw [List.range_succ, List.reverse_append, ← hslots]
      rfl

/-- Whatever was done, what is kept between an environment and its history holds. -/
theorem Runs.kept (hruns : Runs h env) : Kept h env := by
  induction hruns with
  | start => exact .start
  | step _ hstep ih => exact ih.step hstep

/-- What is done in scopes that are left again cannot be seen from outside. -/
theorem Balanced.visible (hbalanced : Balanced h) (n : Nat) (h' : History) :
    visible (n + 1) (h ++ h') = Env.visible (n + 1) h' := by
  induction hbalanced generalizing n h' with
  | nil => rfl
  | @plain op a h henter hleave _ ih =>
    rw [List.cons_append, ← ih n h']
    cases op with
    | enter => exact absurd rfl henter
    | leave => exact absurd rfl hleave
    | define => cases a <;> rfl
    | get => cases a <;> rfl
    | allocate => cases a <;> rfl
  | @nested a b inner h _ _ ihinner ih =>
    have hinner := ihinner (n + 1) ((.enter, b) :: (h ++ h'))
    simp only [List.cons_append, List.append_assoc]
    exact hinner.trans (ih n h')

theorem Runs.of_append (hruns : Runs (h' ++ h) env) : ∃ env₀, Runs h env₀ := by
  induction h' generalizing env with
  | nil => exact ⟨env, hruns⟩
  | cons e h' ih =>
    cases hruns with
    | step hruns _ => exact ih hruns

/-- What is visible was declared. -/
theorem mem_of_visible {v : Local} (hv : v ∈ visible n h) :
    ∃ name type, (.define name type, .declared v) ∈ h := by
  fun_induction visible n h with
  | case1 => cases hv
  | case5 name type w h ih =>
    rcases List.mem_cons.1 hv with rfl | hv
    · exact ⟨name, type, List.mem_cons_self⟩
    · obtain ⟨name', type', hmem⟩ := ih hv
      exact ⟨name', type', List.mem_cons_of_mem _ hmem⟩
  | case2 _ _ _ ih | case3 _ _ ih | case4 _ _ _ ih | case6 _ _ _ _ _ _ _ ih =>
    obtain ⟨name, type, hmem⟩ := ih hv
    exact ⟨name, type, List.mem_cons_of_mem _ hmem⟩

/-- A declaration answers with the name and the type that were asked for. -/
theorem Runs.declared (hruns : Runs h env) {name : String} {type : Ty} {v : Local}
    (hmem : (.define name type, .declared v) ∈ h) : v.name = name ∧ v.type = type := by
  induction hruns with
  | start => cases hmem
  | step _ hstep ih =>
    rcases List.mem_cons.1 hmem with heq | hmem
    · cases heq
      rcases step_cases hstep with ⟨hop, _⟩ | ⟨hop, _⟩ | ⟨_, _, hop, _, ha, _⟩ |
        ⟨_, _, _, _, _, ha, _⟩ | ⟨_, hop, _⟩ | ⟨hop, _⟩
      · cases hop
      · cases hop
      · cases hop
        cases ha
        exact ⟨rfl, rfl⟩
      · cases ha
      · cases hop
      · cases hop
    · exact ih hmem

/-- A look-up finds the one declaration of the name that is visible. -/
theorem Kept.get?_eq_some_iff (hkept : Kept h env) {name : String} {v : Local} :
    env.get? name = some v ↔ v ∈ Env.visible 0 h ∧ v.name = name := by
  have hvisible := hkept.visible 0 (List.length_pos_iff.2 hkept.scopes)
  rw [List.drop_zero] at hvisible
  have hnames := hkept.names
  rw [hvisible] at hnames
  rw [get?, hvisible]
  constructor
  · intro hfound
    exact ⟨List.mem_of_find?_eq_some hfound, by simpa using List.find?_some hfound⟩
  · rintro ⟨hv, rfl⟩
    obtain ⟨w, hw⟩ : ∃ w, (Env.visible 0 h).find? (·.name == v.name) = some w :=
      Option.isSome_iff_exists.1 (List.find?_isSome.2 ⟨v, hv, by simp⟩)
    have hname : w.name = v.name := by simpa using List.find?_some hw
    rw [hw, List.inj_on_of_nodup_map hnames (List.mem_of_find?_eq_some hw) hv hname]

end Steps

/-- Histories decide what an environment answers. A look-up finds what was declared for its name in
a scope that is still open, if there is such a declaration. Exactly in that case the name cannot be
declared, and trying it changes nothing; otherwise it gets the next slot. The slots that were handed
out are all numbers in order, as many as are counted, whatever was left in between. And when a scope
is left, exactly what was visible before it was entered is visible again. -/
theorem history_decides {h : History} {env : Env} (hruns : Runs h env) :
    (∀ name, ∃ found, env.step (.get name) = some (.found found, env) ∧
      ∀ v, found = some v ↔ v ∈ visible 0 h ∧ v.name = name) ∧
    (∀ v ∈ visible 0 h, (.define v.name v.type, .declared v) ∈ h) ∧
    (∀ name type, (∃ v ∈ visible 0 h, v.name = name) →
      env.step (.define name type) = some (.refused, env)) ∧
    (∀ name type, (¬ ∃ v ∈ visible 0 h, v.name = name) → ∃ env',
      env.step (.define name type) = some (.declared ⟨name, type, env.slots⟩, env') ∧
        env'.slots = env.slots + 1) ∧
    (∃ env', env.step .allocate = some (.slot env.slots, env') ∧ env'.slots = env.slots + 1) ∧
    (handed h).reverse = List.range env.slots ∧ env.slots = (handed h).length ∧
    ∀ a b inner before, h = (.leave, a) :: (inner ++ (.enter, b) :: before) → Balanced inner →
      ∃ env₀, Runs before env₀ ∧ visible 0 h = visible 0 before ∧
        ∀ name, env.get? name = env₀.get? name := by
  have hkept := hruns.kept
  refine ⟨fun name => ⟨_, rfl, fun v => hkept.get?_eq_some_iff⟩, fun v hv => ?_, ?_, ?_,
    ⟨_, rfl, rfl⟩, ?_, ?_, ?_⟩
  · obtain ⟨name, type, hmem⟩ := mem_of_visible hv
    obtain ⟨rfl, rfl⟩ := hruns.declared hmem
    exact hmem
  · rintro name type ⟨v, hv⟩
    have hget := hkept.get?_eq_some_iff.2 hv
    simp [step, define, hget]
  · intro name type hno
    have hget : env.get? name = none := by
      rw [Option.eq_none_iff_forall_ne_some]
      exact fun v hv => hno ⟨v, hkept.get?_eq_some_iff.1 hv⟩
    refine ⟨(env.add name type).2, ?_, rfl⟩
    simp [step, define, hget, add]
  · rw [hkept.slots, List.reverse_reverse]
  · simp [hkept.slots]
  · rintro a b inner before rfl hbalanced
    have hsame : visible 0 ((.leave, a) :: (inner ++ (.enter, b) :: before)) = visible 0 before :=
      hbalanced.visible 0 _
    have hsplit : Runs (((.leave, a) :: (inner ++ [(.enter, b)])) ++ before) env := by
      simpa using hruns
    obtain ⟨env₀, hbefore⟩ := hsplit.of_append
    refine ⟨env₀, hbefore, hsame, fun name => Option.ext fun v => ?_⟩
    rw [hkept.get?_eq_some_iff, hbefore.kept.get?_eq_some_iff, hsame]

/-- A name declared twice, with a slot and a scope in between. -/
def redeclaring : History :=
  [(.define "x" .long, .declared ⟨"x", .long, 2⟩), (.leave, .done), (.allocate, .slot 1),
    (.define "x" .int, .refused), (.define "x" .int, .declared ⟨"x", .int, 0⟩), (.enter, .done)]

theorem history_decides_redeclaring : ∃ env, Runs redeclaring env ∧
    visible 0 redeclaring = [⟨"x", .long, 2⟩] ∧ (handed redeclaring).reverse = List.range 3 ∧
    env.step (.define "x" .int) = some (.refused, env) := by
  have hruns : Runs redeclaring ⟨[[⟨"x", .long, 2⟩]], 3⟩ :=
    .step (.step (.step (.step (.step (.step .start rfl) rfl) rfl) rfl) rfl) rfl
  obtain ⟨_, _, hrefused, _, _, hslots, _⟩ := history_decides hruns
  exact ⟨_, hruns, rfl, hslots, hrefused "x" .int ⟨_, List.mem_singleton.2 rfl, rfl⟩⟩

end Jminus.Env
