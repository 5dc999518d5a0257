import Jminus.Proofs.Rescanning
import Mathlib

/-!
Outlines: nested parentheses as text.

An outline is a word, or outlines in parentheses with single spaces between. Words end in two
ways: a plain one where a space, a parenthesis or a line end follows, and a quoted one with its own
quote, so that anything may stand inside. The text of an outline made of such words determines the
outline, whatever stands behind it.
-/
namespace Jminus

inductive Outline where
  | word (text : String)
  | node (items : List Outline)

namespace Outline

mutual

def text : Outline → List Char
  | word w => w.toList
  | node items => '(' :: spaced items ++ [')']

def spaced : List Outline → List Char
  | [] => []
  | f :: fs => f.text ++ behindSpaces fs

def behindSpaces : List Outline → List Char
  | [] => []
  | f :: fs => ' ' :: f.text ++ behindSpaces fs

end

theorem behindSpaces_append (fs gs : List Outline) :
    behindSpaces (fs ++ gs) = behindSpaces fs ++ behindSpaces gs := by
  induction fs with
  | nil => rfl
  | cons f fs ih => simp [behindSpaces, ih]

/-- What may stand behind an outline. -/
def Delimited (u : List Char) : Prop := ∀ c ∈ u.head?, c = ' ' ∨ c = ')' ∨ c = '\n'

def isPlain (c : Char) : Bool := [' ', '(', ')', '\n', '\'', '"'].all (· ≠ c)

/-- No plain word goes on into what stands behind an outline. -/
theorem Delimited.stops {u : List Char} (h : Delimited u) : ∀ c ∈ u.head?, isPlain c = false := by
  intro c hc
  rcases h c hc with rfl | rfl | rfl <;> decide

/-- The texts of words. A quoted word is one that is read as a literal whatever follows. -/
inductive WordText : List Char → Prop
  | plain {w : List Char} (hne : w ≠ []) (h : ∀ c ∈ w, isPlain c = true) : WordText w
  | quoted {c : Char} {w : List Char} (hc : c = '\'' ∨ c = '"')
      (h : ∀ ds, ∃ l, Lexer.lexeme c (w ++ ds) = some l ∧ l.text = c :: w) : WordText (c :: w)

theorem not_plain_of_quote {c : Char} (hc : c = '\'' ∨ c = '"') : isPlain c = false := by
  rcases hc with rfl | rfl <;> rfl

/-- No word starts with a parenthesis. -/
theorem WordText.head {w : List Char} (h : WordText w) :
    ∃ c cs, w = c :: cs ∧ c ≠ '(' ∧ c ≠ ')' := by
  cases h with
  | plain hne h =>
    cases w with
    | nil => exact absurd rfl hne
    | cons c cs =>
      refine ⟨c, cs, rfl, ?_, ?_⟩
      · rintro rfl
        cases h _ List.mem_cons_self
      · rintro rfl
        cases h _ List.mem_cons_self
  | @quoted c cs hc _ =>
    refine ⟨c, cs, rfl, ?_, ?_⟩
    · rintro rfl
      simp at hc
    · rintro rfl
      simp at hc

/-- Two words at the front of one text are the same word. -/
theorem WordText.unique {w w' u v : List Char} (hw : WordText w) (hw' : WordText w')
    (h : w ++ u = w' ++ v) (hu : Delimited u) (hv : Delimited v) : w = w' ∧ u = v := by
  suffices hsame : w = w' by
    subst hsame
    exact ⟨rfl, List.append_cancel_left h⟩
  cases hw with
  | plain hne hplain =>
    cases hw' with
    | plain _ hplain' =>
      rw [← (Lexer.run_stops hplain hu.stops).1, h, (Lexer.run_stops hplain' hv.stops).1]
    | quoted hc _ =>
      cases w with
      | nil => exact absurd rfl hne
      | cons d ds =>
        obtain rfl := (List.cons.inj h).1
        cases (not_plain_of_quote hc).symm.trans (hplain _ List.mem_cons_self)
  | @quoted c _ hc hread =>
    cases hw' with
    | plain hne hplain =>
      cases w' with
      | nil => exact absurd rfl hne
      | cons d ds =>
        obtain rfl := (List.cons.inj h).1
        cases (not_plain_of_quote hc).symm.trans (hplain _ List.mem_cons_self)
    | quoted _ hread' =>
      rw [List.cons_append, List.cons_append, List.cons.injEq] at h
      obtain ⟨rfl, hbehind⟩ := h
      obtain ⟨l, hl, htext⟩ := hread u
      obtain ⟨l', hl', htext'⟩ := hread' v
      rw [hbehind, hl', Option.some.injEq] at hl
      rw [← htext, ← htext', hl]

/-- Every word in it has the text of a word. -/
inductive Sound : Outline → Prop
  | word {w : String} (h : WordText w.toList) : Sound (.word w)
  | node {items : List Outline} (h : ∀ f ∈ items, f.Sound) : Sound (.node items)

/-- The text of an outline starts with a character, and not with the closing parenthesis. -/
theorem Sound.head {f : Outline} (h : f.Sound) : ∃ c cs, f.text = c :: cs ∧ c ≠ ')' := by
  cases h with
  | word h =>
    obtain ⟨c, cs, hw, _, hc⟩ := h.head
    exact ⟨c, cs, hw, hc⟩
  | node => exact ⟨'(', _, rfl, by decide⟩

/-- It can be told from any other, whatever stands behind the two. -/
def Unique (f : Outline) : Prop :=
  ∀ {g : Outline} {u v : List Char}, g.Sound → f.text ++ u = g.text ++ v → Delimited u →
    Delimited v → f = g ∧ u = v

theorem delimited_behindSpaces (fs : List Outline) (u : List Char) :
    Delimited (behindSpaces fs ++ ')' :: u) := by
  intro c hc
  cases fs with
  | nil =>
    cases hc
    exact .inr (.inl rfl)
  | cons f fs =>
    cases hc
    exact .inl rfl

/-- Where a parenthesis closes two lists with the same text, the lists are the same. -/
theorem behindSpaces_unique {fs gs : List Outline} {u v : List Char} (hfs : ∀ f ∈ fs, f.Unique)
    (hgs : ∀ g ∈ gs, g.Sound) (h : behindSpaces fs ++ ')' :: u = behindSpaces gs ++ ')' :: v) :
    fs = gs ∧ u = v := by
  induction fs generalizing gs with
  | nil =>
    cases gs with
    | nil => exact ⟨rfl, (List.cons.inj h).2⟩
    | cons g gs => cases (List.cons.inj h).1
  | cons f fs ih =>
    cases gs with
    | nil => cases (List.cons.inj h).1
    | cons g gs =>
      obtain ⟨hf, hfs⟩ := List.forall_mem_cons.1 hfs
      obtain ⟨hg, hgs'⟩ := List.forall_mem_cons.1 hgs
      simp only [behindSpaces, List.cons_append, List.append_assoc, List.cons.injEq, true_and] at h
      obtain ⟨rfl, hmore⟩ :=
        hf hg h (delimited_behindSpaces fs u) (delimited_behindSpaces gs v)
      obtain ⟨rfl, hbehind⟩ := ih hfs hgs' hmore
      exact ⟨rfl, hbehind⟩

theorem spaced_unique {fs gs : List Outline} {u v : List Char} (hsound : ∀ f ∈ fs, f.Sound)
    (hfs : ∀ f ∈ fs, f.Unique) (hgs : ∀ g ∈ gs, g.Sound)
    (h : spaced fs ++ ')' :: u = spaced gs ++ ')' :: v) : fs = gs ∧ u = v := by
  cases fs with
  | nil =>
    cases gs with
    | nil => exact ⟨rfl, (List.cons.inj h).2⟩
    | cons g gs =>
      obtain ⟨c, cs, hc, hclose⟩ := (hgs g List.mem_cons_self).head
      rw [spaced, spaced, hc] at h
      exact absurd (List.cons.inj h).1.symm hclose
  | cons f fs =>
    cases gs with
    | nil =>
      obtain ⟨c, cs, hc, hclose⟩ := (hsound f List.mem_cons_self).head
      rw [spaced, spaced, hc] at h
      exact absurd (List.cons.inj h).1 hclose
    | cons g gs =>
      refine behindSpaces_unique hfs hgs ?_
      simpa [spaced, behindSpaces] using h

/-- The text of an outline determines the outline and where it ends. -/
theorem Sound.unique {f : Outline} (h : f.Sound) : f.Unique := by
  induction h with
  | word hw =>
    intro g u v hg htext hu hv
    cases hg with
    | word hw' =>
      obtain ⟨hsame, hbehind⟩ := hw.unique hw' htext hu hv
      exact ⟨congrArg Outline.word (String.toList_inj.1 hsame), hbehind⟩
    | node =>
      obtain ⟨c, cs, hc, hopen, _⟩ := hw.head
      rw [text, hc] at htext
      exact absurd (List.cons.inj htext).1 hopen
  | @node items hitems ih =>
    intro g u v hg htext hu hv
    cases hg with
    | word hw' =>
      obtain ⟨c, cs, hc, hopen, _⟩ := hw'.head
      rw [text, text, hc] at htext
      exact absurd (List.cons.inj htext).1.symm hopen
    | node hitems' =>
      simp only [text, List.cons_append, List.append_assoc, List.cons.injEq, true_and]
        at htext
      obtain ⟨rfl, hbehind⟩ := spaced_unique hitems ih hitems' htext
      exact ⟨rfl, hbehind⟩

/-- One outline to a line. -/
def lines (fs : List Outline) : List Char := fs.flatMap fun f => f.text ++ ['\n']

/-- The text of outlines on lines of their own determines them. -/
theorem lines_injective {fs gs : List Outline} (hfs : ∀ f ∈ fs, f.Sound) (hgs : ∀ g ∈ gs, g.Sound)
    (h : lines fs = lines gs) : fs = gs := by
  have hnonempty : ∀ {f : Outline} {fs : List Outline}, lines (f :: fs) ≠ [] := by simp [lines]
  have hline : ∀ fs : List Outline, Delimited ('\n' :: lines fs) := by simp [Delimited]
  induction fs generalizing gs with
  | nil =>
    cases gs with
    | nil => rfl
    | cons g gs => exact absurd h.symm hnonempty
  | cons f fs ih =>
    cases gs with
    | nil => exact absurd h hnonempty
    | cons g gs =>
      obtain ⟨hf, hfs⟩ := List.forall_mem_cons.1 hfs
      obtain ⟨hg, hgs'⟩ := List.forall_mem_cons.1 hgs
      have hfront : f.text ++ '\n' :: lines fs = g.text ++ '\n' :: lines gs := by
        simpa [lines] using h
      obtain ⟨rfl, hmore⟩ := hf.unique hg hfront (hline fs) (hline gs)
      rw [ih hfs hgs' (List.cons.inj hmore).2]

end Outline

end Jminus
