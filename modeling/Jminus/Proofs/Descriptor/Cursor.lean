import Jminus.Proofs.Descriptor
import Mathlib

/-!
How far a descriptor is read.

The reader stands at a place of the text and goes on by one type at a time. Whatever the text is, it
comes to the type of the result or to a place where no type stands, and no place that it comes to is
behind the end of the text.
-/
namespace Jminus.Method

/-- A text spells a type: some letters do, and so does the name of a class between its marks. -/
inductive Spells : List Char → Ty → Prop
  | letter {c : Char} {t : Ty} (h : Ty.ofLetter? c = some t) : Spells [c] t
  | name {name : List Char} {k : Class} (hname : ';' ∉ name) (hk : Class.ofPath? name = some k) :
      Spells ('L' :: name ++ [';']) (.ref k)

/-- Why no type stands at the front of a text. -/
inductive Stuck : List Char → Fault → Prop
  | atEnd : Stuck [] .truncatedDescriptor
  | letter {c : Char} {cs : List Char} (hc : c ≠ 'L') (h : Ty.ofLetter? c = none) :
      Stuck (c :: cs) (.malformedDescriptor (String.ofList (c :: cs)))
  | openName {cs : List Char} (h : ';' ∉ cs) :
      Stuck ('L' :: cs) (.malformedDescriptor (String.ofList ('L' :: cs)))
  | unknown {name cs : List Char} (hname : ';' ∉ name) (hk : Class.ofPath? name = none) :
      Stuck ('L' :: name ++ ';' :: cs)
        (.unknownClassInDescriptor (String.ofList ('L' :: name ++ ';' :: cs)))

theorem Spells.length_pos {w : List Char} {t : Ty} (h : Spells w t) : 0 < w.length := by
  cases h with
  | letter => exact Nat.one_pos
  | name => exact Nat.succ_pos _

/-- A fault of the reader is a broken rule with a message of its own, never a missing value. -/
theorem Stuck.message {cs : List Char} {f : Fault} (h : Stuck cs f) :
    ∃ message, f.message? = some message := by
  cases h with
  | atEnd | letter | openName | unknown => exact ⟨_, rfl⟩

/-- At the front of every text a type is read as it is spelled, or there is none. -/
theorem firstType_reads (cs : List Char) :
    (∃ w t rest, cs = w ++ rest ∧ Spells w t ∧ firstType cs = .ok (t, rest)) ∨
      ∃ f, Stuck cs f ∧ firstType cs = .error f := by
  cases cs with
  | nil => exact .inr ⟨_, .atEnd, rfl⟩
  | cons c cs =>
    by_cases hc : c = 'L'
    · subst hc
      have hname : ';' ∉ cs.takeWhile (· != ';') := by
        intro hmem
        simpa using List.mem_takeWhile_imp hmem
      have hsplit := List.takeWhile_append_dropWhile (p := (· != ';')) (l := cs)
      simp only [firstType, if_true]
      cases hdrop : cs.dropWhile (· != ';') with
      | nil =>
        rw [hdrop, List.append_nil] at hsplit
        rw [hsplit] at hname
        exact .inr ⟨_, .openName hname, rfl⟩
      | cons d behind =>
        obtain rfl : d = ';' := by
          have hd := List.head?_dropWhile_not (· != ';') cs
          simpa [hdrop] using hd
        rw [hdrop] at hsplit
        cases hk : Class.ofPath? (cs.takeWhile (· != ';')) with
        | some k =>
          refine .inl ⟨_, _, behind, ?_, .name hname hk, rfl⟩
          simp [hsplit]
        | none =>
          have hstuck := @Stuck.unknown _ behind hname hk
          rw [List.cons_append, hsplit] at hstuck
          exact .inr ⟨_, hstuck, rfl⟩
    · simp only [firstType, hc, if_false]
      cases ht : Ty.ofLetter? c with
      | some t => exact .inl ⟨[c], t, cs, rfl, .letter ht, rfl⟩
      | none => exact .inr ⟨_, .letter hc ht, rfl⟩

inductive Reaches (text : List Char) : List Ty → Nat → Prop
  | opened (h : text.head? = some '(') : Reaches text [] 1
  | passed {ts : List Ty} {n : Nat} {w : List Char} {t : Ty} (h : Reaches text ts n)
      (hw : w <+: text.drop n) (ht : Spells w t) : Reaches text (ts ++ [t]) (n + w.length)

/-- No place is behind the end, and each type has moved the reader on. -/
theorem Reaches.bounds {text : List Char} {ts : List Ty} {n : Nat} (h : Reaches text ts n) :
    ts.length < n ∧ n ≤ text.length := by
  induction h with
  | opened h =>
    obtain ⟨cs, rfl⟩ := List.head?_eq_some_iff.1 h
    exact ⟨Nat.one_pos, Nat.succ_le_succ (Nat.zero_le _)⟩
  | passed _ hw ht ih =>
    have hle := hw.length_le
    have hpos := ht.length_pos
    simp only [List.length_drop, List.length_append, List.length_singleton] at hle ⊢
    omega

/-- The ways for the reading of a text to end. -/
inductive Reading (text : List Char) : Except Fault (List Ty × Ty) → Prop
  | unopened (h : text.head? ≠ some '(') :
      Reading text (.error (.malformedDescriptor (String.ofList text)))
  | stuckInParams {ts : List Ty} {n : Nat} {f : Fault} (h : Reaches text ts n)
      (hle : n ≤ text.length) (hopen : text[n]? ≠ some ')') (hf : Stuck (text.drop n) f) :
      Reading text (.error f)
  | stuckInResult {ts : List Ty} {n : Nat} {f : Fault} (h : Reaches text ts n)
      (hlt : n < text.length) (hclose : text[n]? = some ')') (hf : Stuck (text.drop (n + 1)) f) :
      Reading text (.error f)
  | complete {ts : List Ty} {n : Nat} {w : List Char} {t : Ty} (h : Reaches text ts n)
      (hlt : n < text.length) (hclose : text[n]? = some ')') (hw : w <+: text.drop (n + 1))
      (ht : Spells w t) : Reading text (.ok (ts, t))

/-- From every place the reader comes to the end of the parameters or to what is no type. -/
theorem paramTypes_reaches {text cs : List Char} {ts : List Ty} {n : Nat}
    (h : Reaches text ts n) (hcs : text.drop n = cs) :
    (∃ us m, paramTypes cs = .ok (us, text.drop (m + 1)) ∧ Reaches text (ts ++ us) m ∧
        text[m]? = some ')') ∨
      ∃ us m f, paramTypes cs = .error f ∧ Reaches text (ts ++ us) m ∧ text[m]? ≠ some ')' ∧
        Stuck (text.drop m) f := by
  have hhead : text[n]? = cs.head? := by rw [← hcs, List.head?_drop]
  by_cases hclose : cs.head? = some ')'
  · obtain ⟨rest, rfl⟩ := List.head?_eq_some_iff.1 hclose
    refine .inl ⟨[], n, ?_, by rwa [List.append_nil], hhead.trans hclose⟩
    rw [paramTypes, ← List.tail_drop, hcs, List.tail_cons]
  · have hopen : ∀ rest, cs ≠ ')' :: rest := by
      rintro rest rfl
      exact hclose rfl
    obtain ⟨w, t, rest, hsplit, hw, hfirst⟩ | ⟨f, hstuck, hfirst⟩ := firstType_reads cs
    · have hpos := hw.length_pos
      have hrest : text.drop (n + w.length) = rest := by
        rw [← List.drop_drop, hcs, hsplit, List.drop_left]
      have hpassed := h.passed ⟨rest, hsplit.symm.trans hcs.symm⟩ hw
      have hstep : paramTypes cs = (paramTypes rest).map fun more => (t :: more.1, more.2) := by
        rw [paramTypes]
        · split
          · rename_i heq
            cases hfirst.symm.trans heq
          · rename_i heq
            cases hfirst.symm.trans heq
            cases paramTypes rest <;> rfl
        · exact hopen
      obtain ⟨us, m, hus, hreach, hend⟩ | ⟨us, m, f, hus, hreach, hend, hstuck⟩ :=
        paramTypes_reaches hpassed hrest
      · rw [List.append_assoc] at hreach
        exact .inl ⟨t :: us, m, by rw [hstep, hus]; rfl, hreach, hend⟩
      · rw [List.append_assoc] at hreach
        exact .inr ⟨t :: us, m, f, by rw [hstep, hus]; rfl, hreach, hend, hstuck⟩
    · refine .inr ⟨[], n, f, ?_, by rwa [List.append_nil], hhead ▸ hclose, hcs ▸ hstuck⟩
      rw [paramTypes]
      · split
        · rename_i heq
          cases hfirst.symm.trans heq
          rfl
        · rename_i heq
          cases hfirst.symm.trans heq
      · exact hopen
termination_by cs.length
decreasing_by
  subst hsplit
  simp only [List.length_append]
  omega

/-- Behind the opening parenthesis the parameters are read, and then the result. -/
theorem parseDescriptor_opened {text : String} {cs : List Char} (h : text.toList = '(' :: cs) :
    parseDescriptor text =
      (paramTypes cs).bind fun read => (firstType read.2).map fun found => (read.1, found.1) := by
  simp only [parseDescriptor, h]
  cases paramTypes cs with
  | error f => rfl
  | ok read =>
    simp only [bind, Except.bind]
    cases firstType read.2 with
    | error f => rfl
    | ok found => rfl

/-- Every text is read in one of the ways. -/
theorem parseDescriptor_reading (text : String) : Reading text.toList (parseDescriptor text) := by
  by_cases hopen : text.toList.head? = some '('
  · obtain ⟨cs, hcs⟩ := List.head?_eq_some_iff.1 hopen
    have hdrop : text.toList.drop 1 = cs := by rw [hcs, List.drop_one, List.tail_cons]
    rw [parseDescriptor_opened hcs]
    obtain ⟨ts, n, hts, hreach, hclose⟩ | ⟨ts, n, f, hts, hreach, hend, hstuck⟩ :=
      paramTypes_reaches (.opened hopen) hdrop
    · rw [List.nil_append] at hreach
      have hlt : n < text.toList.length := (List.getElem?_eq_some_iff.1 hclose).1
      obtain ⟨w, t, rest, hsplit, hw, hfirst⟩ | ⟨f, hstuck, hfirst⟩ :=
        firstType_reads (text.toList.drop (n + 1))
      · simp only [hts, hfirst, Except.bind, Except.map]
        exact .complete hreach hlt hclose ⟨rest, hsplit.symm⟩ hw
      · simp only [hts, hfirst, Except.bind, Except.map]
        exact .stuckInResult hreach hlt hclose hstuck
    · simp only [hts, Except.bind]
      exact .stuckInParams hreach hreach.bounds.2 hend hstuck
  · have hparse : parseDescriptor text = .error (.malformedDescriptor text) := by
      rw [parseDescriptor]
      split
      · rename_i heq
        exact absurd (congrArg List.head? heq) hopen
      · rfl
    have hreading := Reading.unopened hopen
    rw [String.ofList_toList] at hreading
    rw [hparse]
    exact hreading

theorem Reading.message {text : List Char} {f : Fault} (h : Reading text (.error f)) :
    ∃ message, f.message? = some message := by
  cases h with
  | unopened => exact ⟨_, rfl⟩
  | stuckInParams _ _ _ hf => exact hf.message
  | stuckInResult _ _ _ hf => exact hf.message

/-- Descriptors say what they were made from: the types of the parameters in order and the type of
the result, with objects for what has no spelling of its own. And every text is read to an end: from
place to place inside the text, to the types that it spells or to a fault, which is an internal error
with a message and tells where no type stands. -/
theorem descriptor_round_trip :
    (∀ params result, parseDescriptor (describe params result) =
      .ok (params.map Ty.described, result.described)) ∧
    ∀ text : String, Reading text.toList (parseDescriptor text) ∧
      ((∃ params result, parseDescriptor text = .ok (params, result)) ∨
        ∃ fault message, parseDescriptor text = .error fault ∧ fault.message? = some message) := by
  refine ⟨parseDescriptor_describe, fun text => ?_⟩
  have hreading := parseDescriptor_reading text
  refine ⟨hreading, ?_⟩
  cases hparse : parseDescriptor text with
  | ok types => exact .inl ⟨types.1, types.2, rfl⟩
  | error fault =>
    rw [hparse] at hreading
    obtain ⟨message, hmessage⟩ := hreading.message
    exact .inr ⟨fault, message, rfl, hmessage⟩

end Jminus.Method
