import Jminus.Proofs.Typing.Operators
import Mathlib

/-!
Evaluation of sound expressions: it is never stuck, its value is of the type of the expression, and
what it throws is throwable.

A world keeps the types of its slots: what a slot holds fits the type of the slot, once something
was stored there.
-/
namespace Jminus.Checked.Meaning

/-- A value of a type. -/
def Datum.Fits : Datum → Ty → Prop
  | .void, .void | .int _, .int | .long _, .long | .double _, .double => True
  | .boolean _, .boolean | .char _, .char | .null, .null | .null, .ref _ => True
  | .string _, .ref c => Class.string.isSubclassOf c = true
  | .object _ k, .ref c => k.isSubclassOf c = true
  | _, _ => False

namespace Datum.Fits

/-- A value of a number type is a number of its kind. -/
theorem int {d : Datum} (h : d.Fits .int) : ∃ n, d = .int n := by
  cases d with
  | int n => exact ⟨n, rfl⟩
  | _ => cases h

theorem long {d : Datum} (h : d.Fits .long) : ∃ n, d = .long n := by
  cases d with
  | long n => exact ⟨n, rfl⟩
  | _ => cases h

theorem double {d : Datum} (h : d.Fits .double) : ∃ x, d = .double x := by
  cases d with
  | double x => exact ⟨x, rfl⟩
  | _ => cases h

theorem boolean {d : Datum} (h : d.Fits .boolean) : ∃ b, d = .boolean b := by
  cases d with
  | boolean b => exact ⟨b, rfl⟩
  | _ => cases h

theorem char {d : Datum} (h : d.Fits .char) : ∃ c, d = .char c := by
  cases d with
  | char c => exact ⟨c, rfl⟩
  | _ => cases h

/-- What is thrown is null or an object of a throwable class. -/
theorem thrown {d : Datum} {t : Ty} (h : d.Fits t) (ht : t = .null ∨ t.isThrowable = true) :
    d = .null ∨ ∃ id k, d = .object id k ∧ k.isSubclassOf .throwable = true := by
  rcases ht with rfl | ht
  · cases d with
    | null => exact .inl rfl
    | _ => cases h
  · cases t with
    | ref c =>
      cases d with
      | null => exact .inl rfl
      | object id k => exact .inr ⟨id, k, rfl, Class.isSubclassOf_trans h ht⟩
      | string s =>
        have hstring : Class.string.isSubclassOf .throwable = true := Class.isSubclassOf_trans h ht
        cases hstring
      | _ => cases h
    | _ => cases ht

/-- References are null, texts or objects. -/
theorem reference {d : Datum} {t : Ty} (h : d.Fits t) (ht : t.isReference = true) :
    d = .null ∨ (∃ s, d = .string s) ∨ ∃ id k, d = .object id k := by
  cases t with
  | ref c =>
    cases d with
    | null => exact .inl rfl
    | string s => exact .inr (.inl ⟨s, rfl⟩)
    | object id k => exact .inr (.inr ⟨id, k, rfl⟩)
    | _ => cases h
  | null =>
    cases d with
    | null => exact .inl rfl
    | _ => cases h
  | _ => cases ht

/-- A value of a type is one of every type that it may be stored as. -/
theorem assignable {d : Datum} {s t : Ty} (h : d.Fits s) (hst : s.assignableTo t = true)
    (hs : s ≠ .any) (ht : t ≠ .any) : d.Fits t := by
  simp only [Ty.assignableTo, hs, ht, decide_false, Bool.false_or, Bool.or_eq_true,
    decide_eq_true_eq] at hst
  rcases hst with rfl | hst
  · exact h
  · split at hst
    · cases d with
      | null => trivial
      | _ => cases h
    · rename_i c k
      cases d with
      | null => trivial
      | string s => exact Class.isSubclassOf_trans h hst
      | object id k => exact Class.isSubclassOf_trans h hst
      | _ => cases h
    · cases hst

/-- Either part of a conditional has a value of its type. -/
theorem conditional_then {d : Datum} {s t u : Ty} (h : d.Fits s) (hs : s ≠ .any) (ht : t ≠ .any)
    (htype : Ty.conditional s t = some u) : d.Fits u := by
  unfold Ty.conditional at htype
  split at htype
  · cases htype
    exact h
  · split at htype
    · rename_i hassign
      cases htype
      exact h.assignable hassign hs ht
    · cases htype

theorem conditional_else {d : Datum} {s t u : Ty} (h : d.Fits t) (hs : s ≠ .any) (ht : t ≠ .any)
    (htype : Ty.conditional s t = some u) : d.Fits u := by
  unfold Ty.conditional at htype
  split at htype
  · rename_i hassign
    cases htype
    rw [Bool.and_eq_true] at hassign
    exact h.assignable hassign.1 ht hs
  · split at htype
    · cases htype
      exact h
    · cases htype

/-- Everything but void has a text. -/
theorem text {d : Datum} {t : Ty} (h : d.Fits t) (ht : t ≠ .void) : ∃ s, d.text? = some s := by
  cases d with
  | void =>
    cases t with
    | void => exact absurd rfl ht
    | _ => cases h
  | _ => exact ⟨_, rfl⟩

end Datum.Fits

/-- A new variable has a value of its type. -/
theorem zero_fits {t : Ty} (h : t.isStorable = true) : (zero t).Fits t := by
  cases t with
  | void | null | any => cases h
  | _ => trivial

def World.Typed (vs : List Local) (w : World) : Prop := ∀ v ∈ vs, (w.vars v.slot).Fits v.type

/-- What held a value of its type still does. -/
def World.Keeps (slots : Slots) (w w' : World) : Prop :=
  ∀ i t, slots[i]? = some (some t) → (w.vars i).Fits t → (w'.vars i).Fits t

namespace World

theorem Keeps.refl (slots : Slots) (w : World) : w.Keeps slots w := fun _ _ _ h => h

theorem Keeps.trans {slots : Slots} {a b c : World} (hab : a.Keeps slots b)
    (hbc : b.Keeps slots c) : a.Keeps slots c :=
  fun i t hi h => hbc i t hi (hab i t hi h)

/-- A value of the right type may be stored. -/
theorem Keeps.set {slots : Slots} {v : Local} (hv : slots.Holds v) {d : Datum}
    (hd : d.Fits v.type) (w : World) : w.Keeps slots (w.set v.slot d) := by
  intro i t hi h
  by_cases hiv : i = v.slot
  · subst hiv
    cases hi.symm.trans hv.1
    simpa [World.set] using hd
  · simpa [World.set, hiv] using h

/-- Where types are kept the variables stay typed. -/
theorem Typed.keeps {slots : Slots} {vs : List Local} {w w' : World} (h : w.Typed vs)
    (hvs : ∀ v ∈ vs, slots.Holds v) (hw : w.Keeps slots w') : w'.Typed vs :=
  fun v hv => hw v.slot v.type (hvs v hv).1 (h v hv)

end World

variable {α β : Type} {slots : Slots} {w : World}

/-- Evaluation ends in a value with a property or in a throwable object, and keeps types. -/
def Ends (slots : Slots) (x : Eval α) (w : World) (P : α → Prop) : Prop :=
  ∃ r w', x w = some (r, w') ∧ w.Keeps slots w' ∧
    match r with
    | .ok a => P a
    | .error e => e.cls.isSubclassOf .throwable = true

namespace Ends

theorem pure {P : α → Prop} {a : α} (h : P a) : Ends slots (Pure.pure a) w P :=
  ⟨.ok a, w, rfl, .refl slots w, h⟩

/-- Evaluation ends if both of its parts do, and the second may count on what the first has shown.
-/
theorem bind {P : α → Prop} {Q : β → Prop} {x : Eval α} {f : α → Eval β} (hx : Ends slots x w P)
    (hf : ∀ a w', P a → w.Keeps slots w' → Ends slots (f a) w' Q) : Ends slots (x >>= f) w Q := by
  obtain ⟨r, w', heq, hkeeps, hr⟩ := hx
  cases r with
  | ok a =>
    obtain ⟨s, w'', heq', hkeeps', hs⟩ := hf a w' hr hkeeps
    refine ⟨s, w'', ?_, hkeeps.trans hkeeps', hs⟩
    change (x w >>= _) = _
    rw [heq]
    exact heq'
  | error e =>
    refine ⟨.error e, w', ?_, hkeeps, hr⟩
    change (x w >>= _) = _
    rw [heq]
    rfl

/-- The value that evaluation ends in. -/
theorem value {P : α → Prop} {x : Eval α} (hx : Ends slots x w P) {a : α} {w' : World}
    (heq : x w = some (.ok a, w')) : w.Keeps slots w' ∧ P a := by
  obtain ⟨r, w'', heq', hkeeps, hr⟩ := hx
  cases heq.symm.trans heq'
  exact ⟨hkeeps, hr⟩

theorem imp {P Q : α → Prop} {x : Eval α} (hx : Ends slots x w P) (h : ∀ a, P a → Q a) :
    Ends slots x w Q := by
  obtain ⟨r, w', heq, hkeeps, hr⟩ := hx
  refine ⟨r, w', heq, hkeeps, ?_⟩
  cases r with
  | ok a => exact h a hr
  | error e => exact hr

theorem read (slot : Nat) : Ends slots (Eval.read slot) w (· = w.vars slot) :=
  ⟨_, w, rfl, .refl slots w, rfl⟩

/-- What is written has to be of the type of the variable. -/
theorem write {v : Local} (hv : slots.Holds v) {d : Datum} (hd : d.Fits v.type) :
    Ends slots (Eval.write v.slot d) w fun _ => True :=
  ⟨_, _, rfl, .set hv hd w, trivial⟩

theorem print (text : String) : Ends slots (Eval.print text) w fun _ => True :=
  ⟨_, _, rfl, fun _ _ _ h => h, trivial⟩

theorem create (cls : Class) : Ends slots (Eval.create cls) w (·.cls = cls) :=
  ⟨_, _, rfl, fun _ _ _ h => h, rfl⟩

/-- Only throwable objects are raised. -/
theorem raise {P : α → Prop} {cls : Class} (h : cls.isSubclassOf .throwable = true) :
    Ends slots (Eval.raise cls) w P :=
  ⟨.error ⟨w.made, cls⟩, _, rfl, fun _ _ _ h => h, h⟩

theorem ofOption {P : α → Prop} {a : Option α} (h : ∃ b, a = some b ∧ P b) :
    Ends slots (Eval.ofOption a) w P := by
  obtain ⟨b, rfl, hb⟩ := h
  exact pure hb

theorem slotOf {v : Option Local} {x : Local} (h : v = some x) :
    Ends slots (Meaning.slotOf v) w (· = x.slot) :=
  ofOption ⟨x.slot, by rw [h]; rfl, rfl⟩

theorem truth {d : Datum} (h : d.Fits .boolean) :
    Ends slots (Meaning.truth d) w (d = .boolean ·) := by
  obtain ⟨b, rfl⟩ := h.boolean
  exact pure rfl

theorem number {d : Datum} (h : d.Fits .int) : Ends slots (Meaning.number d) w (d = .int ·) := by
  obtain ⟨n, rfl⟩ := h.int
  exact pure rfl

theorem text {d : Datum} {t : Ty} (h : d.Fits t) (ht : t ≠ .void) :
    Ends slots (Eval.ofOption d.text?) w fun _ => True := by
  obtain ⟨s, hs⟩ := h.text ht
  exact ofOption ⟨s, hs, trivial⟩

end Ends

/-- Arithmetic on numbers of one type is of that type. -/
theorem arith_ends (op : ArithOp) {a b : Datum} {t : Ty} (ht : t.isNumeric = true)
    (ha : a.Fits t) (hb : b.Fits t) : Ends slots (arith op a b) w (·.Fits t) := by
  cases t with
  | int =>
    obtain ⟨m, rfl⟩ := ha.int
    obtain ⟨n, rfl⟩ := hb.int
    cases op with
    | add | sub | mul => exact .pure trivial
    | div | rem =>
      simp only [arith]
      split
      · exact .raise rfl
      · exact .pure trivial
  | long =>
    obtain ⟨m, rfl⟩ := ha.long
    obtain ⟨n, rfl⟩ := hb.long
    cases op with
    | add | sub | mul => exact .pure trivial
    | div | rem =>
      simp only [arith]
      split
      · exact .raise rfl
      · exact .pure trivial
  | double =>
    obtain ⟨x, rfl⟩ := ha.double
    obtain ⟨y, rfl⟩ := hb.double
    cases op <;> exact .pure trivial
  | _ => cases ht

/-- An operator that analysis accepts is never stuck on values of its types. -/
theorem compute_ends {o : Operator} {left right t : Ty} (h : Computes o left right t)
    {a b : Datum} (ha : a.Fits left) (hb : b.Fits right) :
    Ends slots (combine o left right a b) w (·.Fits t) := by
  cases h with
  | join hjoin hleft hright =>
    simp only [combine, hjoin, if_true]
    refine (Ends.text ha hleft).bind fun s _ _ _ => (Ends.text hb hright).bind fun t _ _ _ => ?_
    exact .pure (by decide : Class.string.isSubclassOf .string = true)
  | arith op ht =>
    simp only [combine, joins_arith op ht, Bool.false_eq_true, if_false]
    exact arith_ends op ht ha hb
  | bit op ht =>
    cases left with
    | int =>
      obtain ⟨m, rfl⟩ := ha.int
      obtain ⟨n, rfl⟩ := hb.int
      cases op <;> exact .pure trivial
    | long =>
      obtain ⟨m, rfl⟩ := ha.long
      obtain ⟨n, rfl⟩ := hb.long
      cases op <;> exact .pure trivial
    | _ => cases ht
  | truthBit op =>
    obtain ⟨p, rfl⟩ := ha.boolean
    obtain ⟨q, rfl⟩ := hb.boolean
    cases op <;> exact .pure trivial
  | shift op ht =>
    obtain ⟨n, rfl⟩ := hb.int
    cases left with
    | int =>
      obtain ⟨m, rfl⟩ := ha.int
      cases op <;> exact .pure trivial
    | long =>
      obtain ⟨m, rfl⟩ := ha.long
      cases op <;> exact .pure trivial
    | _ => cases ht

/-- Values that may be compared are compared. -/
theorem relate?_isSome {rel : Relation} {left right operand : Ty}
    (h : Compares rel left right operand) {a b : Datum} (ha : a.Fits left) (hb : b.Fits right) :
    ∃ p, relate? rel a b = some p := by
  cases h with
  | ordered ht =>
    cases left with
    | int =>
      obtain ⟨m, rfl⟩ := ha.int
      obtain ⟨n, rfl⟩ := hb.int
      exact ⟨_, rfl⟩
    | long =>
      obtain ⟨m, rfl⟩ := ha.long
      obtain ⟨n, rfl⟩ := hb.long
      exact ⟨_, rfl⟩
    | double =>
      obtain ⟨x, rfl⟩ := ha.double
      obtain ⟨y, rfl⟩ := hb.double
      exact ⟨_, rfl⟩
    | char =>
      obtain ⟨c, rfl⟩ := ha.char
      obtain ⟨d, rfl⟩ := hb.char
      exact ⟨_, rfl⟩
    | _ => cases ht
  | truth hrel =>
    obtain ⟨p, rfl⟩ := ha.boolean
    obtain ⟨q, rfl⟩ := hb.boolean
    rcases hrel with rfl | rfl <;> exact ⟨_, rfl⟩
  | reference hrel hleft hright =>
    rcases ha.reference hleft with rfl | ⟨s, rfl⟩ | ⟨id, k, rfl⟩ <;>
      rcases hb.reference hright with rfl | ⟨s', rfl⟩ | ⟨id', k', rfl⟩ <;>
      rcases hrel with rfl | rfl <;> exact ⟨_, rfl⟩

/-- A literal is of the type that analysis has found. -/
theorem literal_ends {t : Ty} {value : Option Constant} (h : Constant.Fits t value) :
    Ends slots (literal t value) w (·.Fits t) := by
  match t, value with
  | .int, some (.int _) | .long, some (.long _) | .double, some (.double _) => exact .pure trivial
  | .boolean, some (.bool _) | .char, some (.int _) | .null, none => exact .pure trivial
  | .ref .string, some (.string _) =>
    exact .pure (by decide : Class.string.isSubclassOf .string = true)

theorem negative_ends {d : Datum} {t : Ty} (h : d.Fits t) (ht : t.isNumeric = true) :
    Ends slots (negative d) w (·.Fits t) := by
  cases t with
  | int =>
    obtain ⟨n, rfl⟩ := h.int
    exact .pure trivial
  | long =>
    obtain ⟨n, rfl⟩ := h.long
    exact .pure trivial
  | double =>
    obtain ⟨x, rfl⟩ := h.double
    exact .pure trivial
  | _ => cases ht

theorem complement_ends {d : Datum} {t : Ty} (h : d.Fits t) (ht : t.isIntegral = true) :
    Ends slots (complement d) w (·.Fits t) := by
  cases t with
  | int =>
    obtain ⟨n, rfl⟩ := h.int
    exact .pure trivial
  | long =>
    obtain ⟨n, rfl⟩ := h.long
    exact .pure trivial
  | _ => cases ht

theorem changed_ends (op : IncrementOp) {d : Datum} {t : Ty} (h : d.Fits t)
    (ht : t.isNumeric = true) : Ends slots (changed op d) w (·.Fits t) := by
  cases t with
  | int =>
    obtain ⟨n, rfl⟩ := h.int
    cases op <;> exact .pure trivial
  | long =>
    obtain ⟨n, rfl⟩ := h.long
    cases op <;> exact .pure trivial
  | double =>
    obtain ⟨x, rfl⟩ := h.double
    cases op <;> exact .pure trivial
  | _ => cases ht

theorem new_ends {t : Ty} (h : t = .ref .object ∨ t.isThrowable = true) :
    Ends slots (new t) w (·.Fits t) := by
  cases t with
  | ref c =>
    refine (Ends.create c).bind fun x _ hx _ => .pure ?_
    subst hx
    exact Class.isSubclassOf_refl _
  | _ => rcases h with h | h <;> cases h

/-- What a call may mean: printing nothing but the end of a line, or one value. -/
theorem resolve_cases {name : String} {args : List Ty} {m : Method}
    (h : Method.resolve name args = .ok m) :
    m = Method.printing name args ∧
      ((name = "println" ∧ args = []) ∨
        (name = "println" ∨ name = "print") ∧ ∃ t, args = [t] ∧ t ≠ .void) := by
  have hprinting : ∀ {m}, Method.resolve.unlessVoid name args = .ok m →
      m = Method.printing name args ∧
        .void ∉ args := by
    intro m h
    unfold Method.resolve.unlessVoid at h
    split at h
    · cases h
    · rename_i hvoid
      cases h
      exact ⟨rfl, by simpa using hvoid⟩
  unfold Method.resolve at h
  split at h
  · rename_i hname
    split at h
    · rename_i hlen
      obtain ⟨rfl, hvoid⟩ := hprinting h
      refine ⟨rfl, ?_⟩
      match args, hlen, hvoid with
      | [], _, _ => exact .inl ⟨hname, rfl⟩
      | [t], _, hvoid => exact .inr ⟨.inl hname, t, rfl, fun ht => hvoid (by simp [ht])⟩
    · cases h
  · split at h
    · rename_i hname
      split at h
      · rename_i hlen
        obtain ⟨rfl, hvoid⟩ := hprinting h
        obtain ⟨t, rfl⟩ := List.length_eq_one_iff.1 hlen
        exact ⟨rfl, .inr ⟨.inr hname, t, rfl, fun ht => hvoid (by simp [ht])⟩⟩
      · cases h
    · cases h

/-- A call that analysis resolves is never stuck. -/
theorem call_ends {name : String} {args : List Ty} {m : Method}
    (h : Method.resolve name args = .ok m) {ds : List Datum}
    (hds : List.Forall₂ Datum.Fits ds args) : Ends slots (call m.name ds) w (·.Fits .void) := by
  obtain ⟨rfl, ⟨rfl, rfl⟩ | ⟨hname, t, rfl, ht⟩⟩ := resolve_cases h
  · cases hds
    exact (Ends.print _).bind fun _ _ _ _ => .pure trivial
  · cases hds with
    | cons hd hnil =>
      cases hnil
      rcases hname with rfl | rfl <;>
        exact (Ends.text hd ht).bind fun _ _ _ _ =>
          (Ends.print _).bind fun _ _ _ _ => .pure trivial

mutual

/-- A sound expression comes to a value of its type, or it throws. -/
theorem eval_ends {vs : List Local} (hvs : ∀ v ∈ vs, slots.Holds v) :
    ∀ {e : Expr}, e.Sound vs → ∀ {w : World}, w.Typed vs → Ends slots (eval e) w (·.Fits e.type)
  | .literal _ _, h, _, _ => literal_ends h
  | .var v, ⟨x, hx, hv⟩, w, hw => by
    subst hv
    refine (Ends.slotOf rfl).bind fun s w' hs hkeeps => ?_
    subst hs
    exact (Ends.read _).imp fun d hd => hd ▸ hw.keeps hvs hkeeps x hx
  | .assign .plain target value, ⟨hvalue, x, hx, ht, hassign⟩, w, hw => by
    subst ht
    refine (eval_ends hvs hvalue hw).bind fun d w' hd hkeeps =>
      (Ends.slotOf rfl).bind fun s w'' hs hkeeps' => ?_
    subst hs
    have hfits : d.Fits x.type := hd.assignable hassign
      (hvalue.type_ne_any (storable_of_holds hvs)) (ne_any_of_storable (hvs x hx).2)
    exact (Ends.write (hvs x hx) hfits).bind fun _ _ _ _ => .pure hfits
  | .assign (.compound o) target value, ⟨hvalue, x, hx, ht, t, operand, hbin, hassign⟩, w, hw => by
    subst ht
    have hx' := ne_any_of_storable (hvs x hx).2
    have hcomputes := computes_of_binary hx' (hvalue.type_ne_any (storable_of_holds hvs)) hbin
    refine (Ends.slotOf rfl).bind fun s w₁ hs hk₁ => (Ends.read s).bind fun old w₂ hold hk₂ =>
      (eval_ends hvs hvalue ((hw.keeps hvs hk₁).keeps hvs hk₂)).bind fun d w₃ hd hk₃ => ?_
    subst hs hold
    have hold : (w₁.vars x.slot).Fits x.type := hw.keeps hvs hk₁ x hx
    refine (compute_ends hcomputes hold hd).bind fun d' w₄ hd' hk₄ =>
      (Ends.slotOf rfl).bind fun s w₅ hs hk₅ => ?_
    subst hs
    have hfits : d'.Fits x.type := hd'.assignable hassign
      (ne_any_of_binary hx' (hvalue.type_ne_any (storable_of_holds hvs)) hbin) hx'
    exact (Ends.write (hvs x hx) hfits).bind fun _ _ _ _ => .pure hfits
  | .binary (.compute o) _ _ left right, ⟨hl, hr, operand, _, hbin⟩, w, hw =>
    (eval_ends hvs hl hw).bind fun _ _ ha hk => (eval_ends hvs hr (hw.keeps hvs hk)).bind
      fun _ _ hb _ => compute_ends (computes_of_binary (hl.type_ne_any (storable_of_holds hvs))
        (hr.type_ne_any (storable_of_holds hvs)) hbin) ha hb
  | .binary (.compare rel) _ _ left right, ⟨hl, hr, operand, _, hbin⟩, w, hw => by
    obtain ⟨hcompares, rfl⟩ := compares_of_binary (hl.type_ne_any (storable_of_holds hvs))
      (hr.type_ne_any (storable_of_holds hvs)) hbin
    refine (eval_ends hvs hl hw).bind fun a _ ha hk =>
      (eval_ends hvs hr (hw.keeps hvs hk)).bind fun b _ hb _ => ?_
    obtain ⟨p, hp⟩ := relate?_isSome hcompares ha hb
    exact (Ends.ofOption ⟨p, hp, trivial⟩).bind (P := fun _ => True) fun _ _ _ _ => .pure trivial
  | .logical .and left right, ⟨hl, hlt, hr, hrt⟩, w, hw => by
    refine (eval_ends hvs hl hw).bind fun a _ ha hk => (Ends.truth (hlt ▸ ha)).bind
      fun p _ _ hk' => ?_
    split
    · exact (eval_ends hvs hr ((hw.keeps hvs hk).keeps hvs hk')).bind fun b _ hb _ =>
        (Ends.truth (hrt ▸ hb)).bind fun _ _ _ _ => .pure trivial
    · exact .pure trivial
  | .logical .or left right, ⟨hl, hlt, hr, hrt⟩, w, hw => by
    refine (eval_ends hvs hl hw).bind fun a _ ha hk => (Ends.truth (hlt ▸ ha)).bind
      fun p _ _ hk' => ?_
    split
    · exact .pure trivial
    · exact (eval_ends hvs hr ((hw.keeps hvs hk).keeps hvs hk')).bind fun b _ hb _ =>
        (Ends.truth (hrt ▸ hb)).bind fun _ _ _ _ => .pure trivial
  | .unary .neg type operand, ⟨h, ht, hop⟩, w, hw => by
    subst ht
    exact (eval_ends hvs h hw).bind fun d _ hd _ => negative_ends hd hop
  | .unary .not type operand, ⟨h, ht, hop⟩, w, hw => by
    subst ht
    have hbool : operand.type = .boolean := by simpa [Ty.unary] using hop
    refine (eval_ends hvs h hw).bind fun d _ hd _ => (Ends.truth (hbool ▸ hd)).bind
      fun _ _ _ _ => .pure ?_
    rw [Expr.type, hbool]
    trivial
  | .unary .complement type operand, ⟨h, ht, hop⟩, w, hw => by
    subst ht
    exact (eval_ends hvs h hw).bind fun d _ hd _ => complement_ends hd hop
  | .increment op side target, ⟨x, hx, ht, hnum⟩, w, hw => by
    subst ht
    refine (Ends.slotOf rfl).bind fun s w₁ hs hk₁ => (Ends.read s).bind fun old w₂ hold hk₂ => ?_
    subst hs hold
    have hold : (w₁.vars x.slot).Fits x.type := hw.keeps hvs hk₁ x hx
    refine (changed_ends op hold hnum).bind fun d _ hd _ =>
      (Ends.slotOf rfl).bind fun s _ hs _ => ?_
    subst hs
    refine (Ends.write (hvs x hx) hd).bind fun _ _ _ _ => .pure ?_
    cases side with
    | before => exact hd
    | after => exact hold
  | .conditional type cond thenPart elsePart, ⟨hc, hct, ht, he, htype⟩, w, hw => by
    refine (eval_ends hvs hc hw).bind fun a _ ha hk => (Ends.truth (hct ▸ ha)).bind
      fun p _ _ hk' => ?_
    have hw' := (hw.keeps hvs hk).keeps hvs hk'
    have hthen := ht.type_ne_any (storable_of_holds hvs)
    have helse := he.type_ne_any (storable_of_holds hvs)
    split
    · exact (eval_ends hvs ht hw').imp fun d hd => hd.conditional_then hthen helse htype
    · exact (eval_ends hvs he hw').imp fun d hd => hd.conditional_else hthen helse htype
  | .new _, h, _, _ => new_ends h
  | .call method args, ⟨hargs, m, name, hm, hresolve⟩, w, hw => by
    subst hm
    exact (Ends.ofOption ⟨m, rfl, rfl⟩).bind fun _ _ hm hk => (evals_ends hvs hargs
      (hw.keeps hvs hk)).bind fun ds _ hds _ => hm ▸ call_ends hresolve hds
  | .group inner, h, _, hw => eval_ends hvs (e := inner) h hw

theorem evals_ends {vs : List Local} (hvs : ∀ v ∈ vs, slots.Holds v) :
    ∀ {es : List Expr}, Expr.AllSound vs es → ∀ {w : World}, w.Typed vs →
      Ends slots (evals es) w fun ds => List.Forall₂ Datum.Fits ds (es.map Expr.type)
  | [], _, _, _ => .pure .nil
  | _ :: _, ⟨he, hes⟩, _, hw =>
    (eval_ends hvs he hw).bind fun _ _ hd hkeeps =>
      (evals_ends hvs hes (hw.keeps hvs hkeeps)).bind fun _ _ hds _ => .pure (.cons hd hds)

end

end Jminus.Checked.Meaning
