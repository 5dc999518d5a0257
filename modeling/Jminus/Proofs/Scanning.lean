import Jminus.Token.Lexer
import Mathlib

/-!
What scanning makes of a text: a cover of all its characters.

A text is cut into stretches, each of them a token or something that may stand between tokens.
Nothing is left out, nothing is taken twice, and the line of a token is counted from the line breaks
before it. A character that belongs nowhere makes a stretch of its own, and each such stretch has
one diagnostic.
-/
namespace Jminus.Lexer

inductive Stretch where
  | token (t : Token)
  | blank (c : Char)
  /-- What stands behind the two slashes. -/
  | lineComment (body : List Char)
  /-- What stands between the marks. -/
  | blockComment (body : List Char)
  /-- A block comment that is never closed. -/
  | openComment (body : List Char)
  | illegal (c : Char)

namespace Stretch

def text : Stretch → List Char
  | .token t => t.lexeme.toList
  | .blank c => [c]
  | .lineComment body => '/' :: '/' :: body
  | .blockComment body => '/' :: '*' :: body ++ ['*', '/']
  | .openComment body => '/' :: '*' :: body
  | .illegal c => [c]

def token? : Stretch → Option Token
  | .token t => some t
  | _ => none

/-- What is reported about a stretch that starts on a line and is no token. -/
def reports (line : Nat) : Stretch → List Diagnostic
  | .openComment _ =>
    [{ phase := .lexical, severity := .warning, problem := { cause := .unclosedComment }, line }]
  | .illegal c => [report line (Cause.illegalChar.on ("'" ++ c.toString ++ "'"))]
  | _ => []

end Stretch

def startsToken (c : Char) : Bool :=
  c = '\'' || c = '"' || c.isDigit || isNameStart c ||
    (Kind.separators ++ Kind.operators).any (·.image.toList.head? == some c)

/-- A stretch may start on a line before the rest of a text; tokens are as `P` says. -/
def Stretch.Fits (P : Token → List Char → Prop) (line : Nat) (rest : List Char) : Stretch → Prop
  | .token t => P t rest ∧ t.line = line
  | .blank c => isBlank c = true
  | .lineComment body => '\n' ∉ body ∧ ∀ c ∈ rest.head?, c = '\n'
  | .blockComment body => ¬ ['*', '/'] <:+: body ++ ['*']
  | .openComment body => ¬ ['*', '/'] <:+: body ∧ rest = []
  | .illegal c => isBlank c = false ∧ startsToken c = false

def text (ss : List Stretch) : List Char := ss.flatMap Stretch.text

def tokens (ss : List Stretch) : List Token := ss.filterMap Stretch.token?

/-- What is reported about stretches, the first of which starts on a line. -/
def reports (line : Nat) : List Stretch → List Diagnostic
  | [] => []
  | s :: ss => s.reports line ++ reports (line + s.text.count '\n') ss

/-- Stretches that may follow one another from a line on, before the rest of a text. -/
def Covers (P : Token → List Char → Prop) (rest : List Char) (line : Nat) : List Stretch → Prop
  | [] => True
  | s :: ss => s.Fits P line (text ss ++ rest) ∧ Covers P rest (line + s.text.count '\n') ss

section Stretches

variable {P : Token → List Char → Prop} {rest : List Char} {line : Nat}

@[simp] theorem text_nil : text [] = [] := rfl

@[simp] theorem text_cons (s : Stretch) (ss : List Stretch) : text (s :: ss) = s.text ++ text ss :=
  List.flatMap_cons

@[simp] theorem text_append (ss rr : List Stretch) : text (ss ++ rr) = text ss ++ text rr :=
  List.flatMap_append

@[simp] theorem tokens_append (ss rr : List Stretch) :
    tokens (ss ++ rr) = tokens ss ++ tokens rr := List.filterMap_append

/-- What is reported further on depends on the line breaks before. -/
theorem reports_append (ss rr : List Stretch) (line : Nat) :
    reports line (ss ++ rr) = reports line ss ++ reports (line + (text ss).count '\n') rr := by
  induction ss generalizing line with
  | nil => rfl
  | cons s ss ih => simp [reports, ih, Nat.add_assoc]

/-- Stretches may follow on others that end where they start. -/
theorem Covers.append {ss rr : List Stretch} (hs : Covers P (text rr ++ rest) line ss)
    (hr : Covers P rest (line + (text ss).count '\n') rr) : Covers P rest line (ss ++ rr) := by
  induction ss generalizing line with
  | nil => simpa using hr
  | cons s ss ih =>
    refine ⟨by simpa using hs.1, ih hs.2 ?_⟩
    simpa [Nat.add_assoc] using hr

/-- In a cover every stretch fits where it stands. -/
theorem Covers.fits {ss : List Stretch} (h : Covers P rest line ss) {before after : List Stretch}
    {s : Stretch} (hss : ss = before ++ s :: after) :
    s.Fits P (line + (text before).count '\n') (text after ++ rest) := by
  induction before generalizing ss line with
  | nil =>
    subst hss
    exact h.1
  | cons b before ih =>
    subst hss
    have hfits := ih h.2 rfl
    simpa [Nat.add_assoc] using hfits

end Stretches

theorem infix_cons_iff {c : Char} {cs : List Char} :
    ['*', '/'] <:+: c :: cs ↔ (c = '*' ∧ cs.head? = some '/') ∨ ['*', '/'] <:+: cs := by
  rw [List.infix_cons_iff, List.cons_prefix_cons]
  cases cs with
  | nil => simp
  | cons d ds => simp [List.cons_prefix_cons, eq_comm]

/-- A comment is closed by the first mark that can close it. -/
theorem closeComment_some {line line' : Nat} {cs rest : List Char}
    (h : closeComment line cs = some (rest, line')) :
    ∃ body, cs = body ++ '*' :: '/' :: rest ∧ ¬ ['*', '/'] <:+: body ++ ['*'] ∧
      line' = line + body.count '\n' := by
  fun_induction closeComment line cs with
  | case1 line cs =>
    cases h
    exact ⟨[], rfl, by simp [infix_cons_iff], by simp⟩
  | case2 line c cs hopen ih =>
    obtain ⟨body, rfl, hbody, rfl⟩ := ih h
    refine ⟨c :: body, rfl, ?_, ?_⟩
    · rw [List.cons_append, infix_cons_iff]
      rintro (⟨rfl, hhead⟩ | hin)
      · cases body with
        | nil => simp at hhead
        | cons d ds =>
          obtain rfl : d = '/' := by simpa using hhead
          exact hopen _ rfl rfl
      · exact hbody hin
    · by_cases hc : c = '\n'
      · simp [lineAfter, hc]
        omega
      · simp [lineAfter, hc]
  | case3 => cases h

/-- A comment that nothing closes has no end in it. -/
theorem closeComment_none {line : Nat} {cs : List Char} (h : closeComment line cs = none) :
    ¬ ['*', '/'] <:+: cs := by
  fun_induction closeComment line cs with
  | case1 => cases h
  | case2 line c cs hopen ih =>
    rw [infix_cons_iff]
    rintro (⟨rfl, hhead⟩ | hin)
    · cases cs with
      | nil => simp at hhead
      | cons d ds =>
        obtain rfl : d = '/' := by simpa using hhead
        exact hopen _ rfl rfl
    · exact ih h hin
  | case3 => simp

theorem head?_dropWhile {p : Char → Bool} {cs : List Char} :
    ∀ c ∈ (cs.dropWhile p).head?, p c = false := by
  intro c hc
  have hnot := List.head?_dropWhile_not p cs
  rw [Option.mem_def.1 hc] at hnot
  simpa using hnot

/-- What a test refuses is not among what it takes. -/
theorem not_mem_takeWhile {p : Char → Bool} {c : Char} (hc : p c = false) (cs : List Char) :
    c ∉ cs.takeWhile p := by
  intro hmem
  have := List.mem_takeWhile_imp hmem
  simp [hc] at this

/-- A gap is covered by blanks and comments. What stands behind it is no blank. -/
theorem skipGap_covers (P : Token → List Char → Prop) (line : Nat) (cs : List Char) :
    ∃ ss, cs = text ss ++ (skipGap line cs).rest ∧ Covers P (skipGap line cs).rest line ss ∧
      tokens ss = [] ∧ (skipGap line cs).line = line + (text ss).count '\n' ∧
      (skipGap line cs).warnings = reports line ss ∧
      ∀ c ∈ (skipGap line cs).rest.head?, isBlank c = false := by
  fun_induction skipGap line cs with
  | case1 line cs ih =>
    obtain ⟨ss, hcs, hcovers, htokens, hline, hreports, hhead⟩ := ih
    have hbody : '\n' ∉ cs.takeWhile (· != '\n') := not_mem_takeWhile (by simp) cs
    have hcount : (cs.takeWhile (· != '\n')).count '\n' = 0 := List.count_eq_zero.2 hbody
    refine ⟨.lineComment (cs.takeWhile (· != '\n')) :: ss, ?_, ⟨⟨hbody, ?_⟩, ?_⟩, htokens, ?_, ?_,
      hhead⟩
    · simp [Stretch.text, ← hcs]
    · rw [← hcs]
      intro c hc
      simpa using head?_dropWhile c hc
    · simpa [Stretch.text, hcount] using hcovers
    · simpa [Stretch.text, hcount] using hline
    · simpa [reports, Stretch.reports, Stretch.text, hcount] using hreports
  | case2 line cs rest line' h ih =>
    obtain ⟨ss, hcs, hcovers, htokens, hline, hreports, hhead⟩ := ih
    obtain ⟨body, rfl, hbody, rfl⟩ := closeComment_some h
    refine ⟨.blockComment body :: ss, ?_, ⟨hbody, ?_⟩, htokens, ?_, ?_, hhead⟩
    · simp [Stretch.text, ← hcs]
    · simpa [Stretch.text] using hcovers
    · simpa [Stretch.text, Nat.add_assoc] using hline
    · simpa [reports, Stretch.reports, Stretch.text] using hreports
  | case3 line cs h =>
    refine ⟨[.openComment cs], ?_, ⟨⟨closeComment_none h, rfl⟩, trivial⟩, rfl, ?_, rfl, by simp⟩
    · simp [Stretch.text]
    · simp [Stretch.text]
  | case4 line c cs _ _ hblank ih =>
    obtain ⟨ss, hcs, hcovers, htokens, hline, hreports, hhead⟩ := ih
    have hcount : lineAfter line c = line + [c].count '\n' := by
      by_cases hc : c = '\n' <;> simp [lineAfter, hc]
    rw [hcount] at hcs hcovers hline hreports hhead ⊢
    refine ⟨.blank c :: ss, ?_, ⟨hblank, hcovers⟩, htokens, ?_, hreports, hhead⟩
    · simp [Stretch.text, ← hcs]
    · simpa only [text_cons, Stretch.text, List.count_append, Nat.add_assoc] using hline
  | case5 line c cs _ _ hblank =>
    exact ⟨[], rfl, trivial, rfl, rfl, rfl, by simpa using hblank⟩
  | case6 line => exact ⟨[], rfl, trivial, rfl, rfl, rfl, by simp⟩

/-- The ways for a lexeme to start. -/
theorem lexeme_cases {c : Char} {cs : List Char} {l : Lexeme} (h : lexeme c cs = some l) :
    (c = '\'' ∧ l = charLiteral cs) ∨ (c = '"' ∧ l = stringLiteral cs) ∨
      (c.isDigit = true ∧ l = number c cs) ∨ (isNameStart c = true ∧ l = word c cs) ∨
      (c = '.' ∧ cs.head?.any Char.isDigit = true ∧ l = fraction cs) ∨
      ∃ k, Kind.symbolAt (c :: cs) = some k ∧
        l = { kind := k, text := k.image.toList, rest := (c :: cs).drop k.image.length } := by
  unfold lexeme at h
  split_ifs at h with hchar hstring hdigit hname hpoint
  · exact .inl ⟨hchar, by simpa using h.symm⟩
  · exact .inr (.inl ⟨hstring, by simpa using h.symm⟩)
  · exact .inr (.inr (.inl ⟨hdigit, by simpa using h.symm⟩))
  · exact .inr (.inr (.inr (.inl ⟨hname, by simpa using h.symm⟩)))
  · simp only [Bool.and_eq_true, decide_eq_true_eq] at hpoint
    exact .inr (.inr (.inr (.inr (.inl ⟨hpoint.1, hpoint.2, by simpa using h.symm⟩))))
  · obtain ⟨k, hk, rfl⟩ := Option.map_eq_some_iff.1 h
    exact .inr (.inr (.inr (.inr (.inr ⟨k, hk, rfl⟩))))

theorem symbol_of_head : ∀ k ∈ Kind.separators ++ Kind.operators,
    ∃ k' ∈ Kind.symbols, k'.image.toList = k.image.toList.take 1 := by
  decide

/-- Where there is no lexeme, no token can start. -/
theorem startsToken_of_lexeme {c : Char} {cs : List Char} (h : lexeme c cs = none) :
    startsToken c = false := by
  unfold lexeme at h
  split_ifs at h with hchar hstring hdigit hname hpoint
  have hsymbol := List.find?_eq_none.1 (Option.map_eq_none_iff.1 h)
  have hno : ∀ k ∈ Kind.separators ++ Kind.operators, k.image.toList.head? ≠ some c := by
    intro k hk hhead
    obtain ⟨k', hk', himage⟩ := symbol_of_head k hk
    obtain ⟨more, hmore⟩ := List.head?_eq_some_iff.1 hhead
    exact hsymbol k' hk' (by simp [himage, hmore])
  simpa [startsToken, hchar, hstring, hdigit, hname, or_imp, forall_and] using hno

/-- What holds of the problems, the kind and the characters of every lexeme. -/
structure Lexeme.Regular (l : Lexeme) : Prop where
  line : '\n' ∉ l.text
  kind : l.kind ≠ .eof
  problems : ∀ p ∈ l.problems, p.cause ≠ .illegalChar

/-- A mark behind a number adds no line break. -/
theorem suffix_regular {kind : Kind} {text rest : List Char} {ps : List Problem}
    (htext : '\n' ∉ text) (hkind : kind ≠ .eof) (hps : ∀ p ∈ ps, p.cause ≠ .illegalChar) :
    (scale.suffix kind text rest ps).Regular := by
  unfold scale.suffix
  split
  · rename_i d cs
    split
    · rename_i hd
      refine ⟨?_, by simp, hps⟩
      have hne : '\n' ≠ d := by
        rintro rfl
        simp [isDoubleSuffix] at hd
      simp [htext, hne]
    · exact ⟨htext, hkind, hps⟩
  · exact ⟨htext, hkind, hps⟩

theorem not_mem_digits (cs : List Char) : '\n' ∉ cs.takeWhile Char.isDigit :=
  not_mem_takeWhile (by decide) cs

theorem not_mem_sign (cs : List Char) : '\n' ∉ sign cs := by
  unfold sign
  split <;> simp

theorem scale_regular {whole : Kind} {text rest : List Char} (htext : '\n' ∉ text)
    (hkind : whole ≠ .eof) : (scale whole text rest).Regular := by
  unfold scale
  split
  · rename_i e cs
    split
    · rename_i he
      have hne : '\n' ≠ e := by
        rintro rfl
        simp at he
      refine suffix_regular ?_ (by simp) ?_
      · simp [htext, hne, not_mem_sign, not_mem_digits]
      · intro p hp
        split at hp
        · obtain rfl := List.mem_singleton.1 hp
          simp [Cause.on]
        · simp at hp
    · exact suffix_regular htext hkind (by simp)
  · exact suffix_regular htext hkind (by simp)

theorem ne_newline_of_digit {c : Char} (hc : c.isDigit = true) : '\n' ≠ c := by
  rintro rfl
  exact absurd hc (by decide)

/-- A number keeps to its line, whatever is wrong with it. -/
theorem number_regular {c : Char} {cs : List Char} (hc : c.isDigit = true) :
    (number c cs).Regular := by
  have hne := ne_newline_of_digit hc
  unfold number
  split
  · exact scale_regular (by simp [hne, not_mem_digits]) (by simp)
  · rename_i s rest _ _
    split
    · rename_i hs
      have hns : '\n' ≠ s := by
        rintro rfl
        simp [isLongSuffix] at hs
      exact ⟨by simp [hne, hns, not_mem_digits], by simp, by simp⟩
    · exact scale_regular (by simp [hne, not_mem_digits]) (by simp)
  · exact scale_regular (by simp [hne, not_mem_digits]) (by simp)

theorem keyword?_ne_eof (s : String) : (Kind.keyword? s).getD .identifier ≠ .eof := by
  cases h : Kind.keyword? s with
  | none => simp
  | some k =>
    have hmem := List.mem_of_find?_eq_some h
    rintro rfl
    exact absurd hmem (by decide)

theorem word_regular {c : Char} {cs : List Char} (hc : isNameStart c = true) :
    (word c cs).Regular := by
  have hne : '\n' ≠ c := by
    rintro rfl
    exact absurd hc (by decide)
  refine ⟨?_, keyword?_ne_eof _, by simp [word]⟩
  simp [word, hne, not_mem_takeWhile (show isNamePart '\n' = false by decide)]

/-- The body of a character has no line break and complains of no illegal character. -/
theorem charBody_regular (cs : List Char) :
    '\n' ∉ (charBody cs).1 ∧ ∀ p ∈ (charBody cs).2.2.2, p.cause ≠ .illegalChar := by
  unfold charBody
  split
  · simp
  · simp
  · split
    · simp [badEscape, Cause.on]
    · simp [badEscape, Cause.on]
    · rename_i c cs hne
      have hc : '\n' ≠ c := fun h => hne h.symm
      split <;> simp [badEscape, Cause.on, hc]
  · rename_i c cs hne _
    have hc : '\n' ≠ c := fun h => hne h.symm
    simp [hc]

theorem charLiteral_regular (cs : List Char) : (charLiteral cs).Regular := by
  obtain ⟨hbody, hproblems⟩ := charBody_regular cs
  unfold charLiteral
  generalize charBody cs = body at hbody hproblems ⊢
  obtain ⟨body, value, rest, problems⟩ := body
  have hskip : '\n' ∉ rest.takeWhile (!endsChar ·) := not_mem_takeWhile (by decide) rest
  have hmore : ∀ p ∈ problems ++ [Cause.unclosedChar.on ("found " ++ describe rest)],
      p.cause ≠ .illegalChar := by
    intro p hp
    rcases List.mem_append.1 hp with hp | hp
    · exact hproblems p hp
    · obtain rfl := List.mem_singleton.1 hp
      simp [Cause.on]
  dsimp only at hbody hproblems ⊢
  split
  · exact ⟨by simp [hbody], by simp, hproblems⟩
  · split
    · exact ⟨by simp [hbody, hskip], by simp, hmore⟩
    · exact ⟨by simp [hbody, hskip], by simp, hmore⟩

theorem stringBody_regular (cs : List Char) :
    '\n' ∉ (stringBody cs).1 ∧ ∀ p ∈ (stringBody cs).2.2.2, p.cause ≠ .illegalChar := by
  fun_induction stringBody cs with
  | case1 | case2 | case3 | case4 | case5 => simp [badEscape, Cause.on]
  | case6 c cs hne text decoded rest problems heq value hvalue ih =>
    rw [heq] at ih
    have hc : '\n' ≠ c := fun h => hne h.symm
    simpa [hc] using ih
  | case7 c cs hne text decoded rest problems heq hvalue ih =>
    rw [heq] at ih
    have hc : '\n' ≠ c := fun h => hne h.symm
    simpa [hc, badEscape, Cause.on] using ih
  | case8 c cs _ hne _ _ _ text decoded rest problems heq ih =>
    rw [heq] at ih
    have hc : '\n' ≠ c := fun h => hne h.symm
    simpa [hc] using ih

theorem symbols_regular : ∀ k ∈ Kind.symbols, '\n' ∉ k.image.toList ∧ k ≠ .eof := by decide

/-- Every lexeme stays on its line, is not the end, and reports no illegal character. -/
theorem lexeme_regular {c : Char} {cs : List Char} {l : Lexeme} (h : lexeme c cs = some l) :
    l.Regular := by
  obtain ⟨rfl, rfl⟩ | ⟨rfl, rfl⟩ | ⟨hc, rfl⟩ | ⟨hc, rfl⟩ | ⟨rfl, _, rfl⟩ | ⟨k, hk, rfl⟩ :=
    lexeme_cases h
  · exact charLiteral_regular cs
  · obtain ⟨hline, hproblems⟩ := stringBody_regular cs
    exact ⟨by simp [stringLiteral, hline], by simp [stringLiteral], hproblems⟩
  · exact number_regular hc
  · exact word_regular hc
  · exact scale_regular (by simp [not_mem_digits]) (by simp)
  · obtain ⟨hline, hkind⟩ := symbols_regular k (List.mem_of_find?_eq_some hk)
    exact ⟨hline, hkind, by simp⟩

/-- What is reported about text that belongs to no token. -/
def ofGap (d : Diagnostic) : Bool := d.severity = .warning || d.problem.cause = .illegalChar

theorem filter_warnings (gap : Gap) : gap.warnings.filter ofGap = gap.warnings := by
  refine List.filter_eq_self.2 fun d hd => ?_
  obtain ⟨line, _, rfl⟩ := List.mem_map.1 hd
  rfl

/-- What is reported of a lexeme is reported of no gap. -/
theorem filter_problems {l : Lexeme} (h : l.Regular) (line : Nat) :
    (l.problems.map (report line)).filter ofGap = [] := by
  refine List.filter_eq_nil_iff.2 fun d hd => ?_
  obtain ⟨p, hp, rfl⟩ := List.mem_map.1 hd
  simp [ofGap, report, h.problems p hp]

def endOfText (line : Nat) : Token := { kind := .eof, lexeme := "", line }

def Lexeme.token (l : Lexeme) (line : Nat) : Token :=
  { kind := l.kind, lexeme := String.ofList l.text, line, decoded := l.decoded }

/-- `P` holds of every token that some lexeme makes whose problems are among the diagnostics, in
front of the rest of the text. -/
def Grants (ds : List Diagnostic) (P : Token → List Char → Prop) : Prop :=
  ∀ c cs l line, lexeme c cs = some l → (∀ p ∈ l.problems, report line p ∈ ds) →
    P (l.token line) l.rest

section Tokens

variable {P : Token → List Char → Prop} {ds : List Diagnostic}

/-- One step: either the text is over, or a token was found. All that was read is covered. -/
theorem next_covers (hP : Grants ds P) (cur : Cursor) (hds : (next cur).diagnostics ⊆ ds) :
    ∃ ss, cur.rest = text ss ++ (next cur).next.rest ∧
      Covers P (next cur).next.rest cur.line ss ∧
      (next cur).next.line = cur.line + (text ss).count '\n' ∧
      (next cur).diagnostics.filter ofGap = reports cur.line ss ∧
      (((next cur).token = endOfText (next cur).next.line ∧ (next cur).next.rest = [] ∧
          tokens ss = []) ∨
        ((next cur).token.kind ≠ .eof ∧ tokens ss = [(next cur).token])) := by
  fun_induction next cur with
  | case1 cur gap hrest =>
    obtain ⟨ss, hcs, hcovers, htokens, hline, hreports, _⟩ := skipGap_covers P cur.line cur.rest
    have hrest' : (skipGap cur.line cur.rest).rest = [] := hrest
    rw [hrest'] at hcs hcovers
    exact ⟨ss, hcs, hcovers, hline, (filter_warnings gap).trans hreports, .inl ⟨rfl, rfl, htokens⟩⟩
  | case2 cur gap c cs hrest l hl =>
    obtain ⟨ss, hcs, hcovers, htokens, hline, hreports, _⟩ := skipGap_covers P cur.line cur.rest
    have hrest' : (skipGap cur.line cur.rest).rest = c :: cs := hrest
    have hregular := lexeme_regular hl
    obtain ⟨more, htext, hmore⟩ := lexeme_split hl
    have hcount : l.text.count '\n' = 0 := List.count_eq_zero.2 hregular.line
    have hwhole : c :: cs = l.text ++ l.rest := by rw [htext, List.cons_append, hmore]
    have hgap : gap.line = cur.line + (text ss).count '\n' := hline
    rw [hrest', hwhole] at hcs hcovers
    have hproblems : ∀ p ∈ l.problems, report gap.line p ∈ ds := fun p hp =>
      hds (List.mem_append_right _ (List.mem_map_of_mem hp))
    refine ⟨ss ++ [.token (l.token gap.line)], ?_, ?_, ?_, ?_, .inr ⟨hregular.kind, ?_⟩⟩
    · simpa [Stretch.text, Lexeme.token] using hcs
    · refine .append (by simpa [Stretch.text, Lexeme.token] using hcovers) ⟨⟨?_, hgap⟩, trivial⟩
      exact hP c cs l gap.line hl hproblems
    · simpa [Stretch.text, Lexeme.token, hcount] using hgap
    · rw [List.filter_append, filter_warnings, filter_problems hregular, reports_append,
        List.append_nil]
      simpa [reports, Stretch.reports] using hreports
    · rw [tokens_append, htokens]
      rfl
  | case3 cur gap c cs hrest hl found ih =>
    obtain ⟨ss, hcs, hcovers, htokens, hline, hreports, hhead⟩ :=
      skipGap_covers P cur.line cur.rest
    obtain ⟨rr, hcs', hcovers', hline', hreports', hfound⟩ := ih fun d hd =>
      hds (List.mem_append_right _ (List.mem_cons_of_mem _ hd))
    have hrest' : (skipGap cur.line cur.rest).rest = c :: cs := hrest
    have hblank : isBlank c = false := hhead c (by simp [hrest'])
    have hcount : [c].count '\n' = 0 := by
      rw [List.count_eq_zero, List.mem_singleton]
      rintro rfl
      exact absurd hblank (by decide)
    have hgap : gap.line = cur.line + (text ss).count '\n' := hline
    rw [hrest'] at hcs hcovers
    have hillegal : (Stretch.illegal c).text.count '\n' = 0 := hcount
    refine ⟨ss ++ .illegal c :: rr, ?_, ?_, ?_, ?_, ?_⟩
    · simp [Stretch.text, ← hcs', ← hcs, found]
    · refine .append (by simpa [Stretch.text, ← hcs', found] using hcovers) ⟨⟨hblank, ?_⟩, ?_⟩
      · exact startsToken_of_lexeme hl
      · rw [hillegal, ← hgap]
        exact hcovers'
    · rw [text_append, text_cons, List.count_append, List.count_append, hillegal, Nat.zero_add,
        ← Nat.add_assoc, ← hgap]
      exact hline'
    · have hfirst : (report gap.line (Cause.illegalChar.on ("'" ++ c.toString ++ "'")) ::
          found.diagnostics).filter ofGap =
            report gap.line (Cause.illegalChar.on ("'" ++ c.toString ++ "'")) ::
              found.diagnostics.filter ofGap := List.filter_cons_of_pos rfl
      rw [List.filter_append, filter_warnings, hfirst, reports_append, reports, hillegal,
        ← hgap]
      exact congrArg₂ _ hreports (congrArg _ hreports')
    · have htokens' : tokens (ss ++ .illegal c :: rr) = tokens rr := by
        rw [tokens_append, htokens]
        rfl
      rw [htokens']
      exact hfound

/-- A whole scan covers its text. -/
theorem scanFrom_covers (hP : Grants ds P) (cur : Cursor)
    (hds : (scanFrom cur).diagnostics ⊆ ds) :
    ∃ ss, cur.rest = text ss ∧ Covers P [] cur.line ss ∧
      (scanFrom cur).tokens = tokens ss ++ [endOfText (scanFrom cur).last.line] ∧
      (scanFrom cur).last.rest = [] ∧
      (scanFrom cur).diagnostics.filter ofGap = reports cur.line ss := by
  fun_induction scanFrom cur with
  | case1 cur found heof =>
    obtain ⟨ss, hcs, hcovers, _, hreports, ⟨htoken, hrest, htokens⟩ | ⟨hkind, _⟩⟩ :=
      next_covers hP cur hds
    · rw [hrest] at hcs hcovers
      refine ⟨ss, by simpa using hcs, hcovers, ?_, hrest, hreports⟩
      simp [htokens, found, ← htoken]
    · exact absurd heof hkind
  | case2 cur found hkind more ih =>
    obtain ⟨rr, hcs', hcovers', htokens', hlast, hreports'⟩ := ih fun d hd =>
      hds (List.mem_append_right _ hd)
    obtain ⟨ss, hcs, hcovers, hline, hreports, ⟨htoken, _⟩ | ⟨_, htokens⟩⟩ :=
      next_covers hP cur fun d hd => hds (List.mem_append_left _ hd)
    · exact absurd (congrArg Token.kind htoken) hkind
    · have hline' : found.next.line = cur.line + (text ss).count '\n' := hline
      rw [hline'] at hcovers' hreports'
      rw [show (next cur).next.rest = text rr from hcs'] at hcs hcovers
      refine ⟨ss ++ rr, by simpa using hcs, .append (by simpa using hcovers) hcovers', ?_, hlast, ?_⟩
      · simp [htokens, htokens', found, more]
      · rw [List.filter_append, reports_append]
        exact congrArg₂ _ hreports hreports'

end Tokens

theorem Gap.warnings_phase (gap : Gap) :
    ∀ d ∈ gap.warnings, d.phase = .lexical ∧ d.severity = .warning := by
  intro d hd
  obtain ⟨line, _, rfl⟩ := List.mem_map.1 hd
  exact ⟨rfl, rfl⟩

/-- One token is reported on in the lexical phase only. -/
theorem next_phase (cur : Cursor) : ∀ d ∈ (next cur).diagnostics, d.phase = .lexical := by
  fun_induction next cur with
  | case1 cur gap => exact fun d hd => (gap.warnings_phase d hd).1
  | case2 cur gap c cs _ l =>
    intro d hd
    rcases List.mem_append.1 hd with hd | hd
    · exact (gap.warnings_phase d hd).1
    · obtain ⟨p, _, rfl⟩ := List.mem_map.1 hd
      rfl
  | case3 cur gap c cs _ _ found ih =>
    intro d hd
    rcases List.mem_append.1 hd with hd | hd
    · exact (gap.warnings_phase d hd).1
    · rcases List.mem_cons.1 hd with rfl | hd
      · rfl
      · exact ih d hd

/-- Scanning reports lexical problems only. -/
theorem scanFrom_phase (cur : Cursor) :
    ∀ d ∈ (scanFrom cur).diagnostics, d.phase = .lexical := by
  fun_induction scanFrom cur with
  | case1 cur found => exact next_phase cur
  | case2 cur found _ more ih =>
    intro d hd
    rcases List.mem_append.1 hd with hd | hd
    · exact next_phase cur d hd
    · exact ih d hd

/-- A comment that is left open is warned about, and that is no error. -/
theorem Gap.warnings_quiet (gap : Gap) : gap.warnings.any (·.isError) = false := by
  cases h : gap.unclosed <;> simp [Gap.warnings, h, Diagnostic.isError]

/-- The flag is set by the errors that are reported and by nothing else. -/
theorem next_failed (cur : Cursor) :
    (next cur).failed = (next cur).diagnostics.any (·.isError) := by
  fun_induction next cur with
  | case1 cur gap => exact gap.warnings_quiet.symm
  | case2 cur gap c cs _ l _ =>
    rw [List.any_append, gap.warnings_quiet, Bool.false_or]
    cases l.problems <;> simp [report, Diagnostic.isError]
  | case3 cur gap c cs _ _ found ih => simp [report, Diagnostic.isError]

/-- The flag of a scan is set by its errors. -/
theorem scanFrom_failed (cur : Cursor) :
    (scanFrom cur).failed = (scanFrom cur).diagnostics.any (·.isError) := by
  fun_induction scanFrom cur with
  | case1 cur found => exact next_failed cur
  | case2 cur found _ more ih => rw [List.any_append, ← ih, ← next_failed cur]

/-- A scan has failed exactly if it has reported an error. -/
theorem scan_failed (source : String) :
    (scan source).failed = (scan source).diagnostics.any (·.isError) :=
  scanFrom_failed _

/-- At the end of a text there is nothing but its end, however often it is asked for. -/
theorem more_of_end {cur : Cursor} (h : cur.rest = []) (n : Nat) :
    more n cur = List.replicate n (endOfText cur.line) := by
  obtain ⟨rest, line⟩ := cur
  obtain rfl : rest = [] := h
  have hnext : next ⟨[], line⟩ = ⟨endOfText line, [], ⟨[], line⟩, false⟩ := by
    rw [next]
    split
    · simp [skipGap, Gap.warnings, endOfText]
    · rename_i h
      simp [skipGap] at h
  induction n with
  | zero => rfl
  | succ n ih => rw [more, hnext, ih, List.replicate_succ]

/-- A token has characters, all of them on one line, and is not the end. -/
def Whole (t : Token) (_ : List Char) : Prop :=
  t.kind ≠ .eof ∧ t.lexeme ≠ "" ∧ '\n' ∉ t.lexeme.toList

/-- Every lexeme makes a whole token. -/
theorem whole_granted (ds : List Diagnostic) : Grants ds Whole := by
  intro c cs l line hl _
  have hregular := lexeme_regular hl
  obtain ⟨more, htext, _⟩ := lexeme_split hl
  refine ⟨hregular.kind, ?_, by simpa [Lexeme.token] using hregular.line⟩
  simp [Lexeme.token, htext]

/-- No character is lost and none is read twice. Every text is a sequence of stretches; those that
are tokens make up the scan, with one `eof` behind them that stays. A stretch starts on the line
that the line breaks before it count. Of the others each illegal character and each comment that is
left open has its diagnostic, and there are no more of these. -/
theorem scan_covers (source : String) :
    ∃ ss eof, text ss = source.toList ∧ (scan source).tokens = tokens ss ++ [eof] ∧
      eof.kind = .eof ∧ eof.lexeme = "" ∧
      (∀ before s after, ss = before ++ s :: after →
        s.Fits Whole (1 + (text before).count '\n') (text after)) ∧
      (scan source).diagnostics.filter ofGap = reports 1 ss ∧
      (∀ n, more n (scan source).last = List.replicate n eof) ∧
      ((scan source).failed = true ↔
        ∃ d ∈ (scan source).diagnostics, d.phase = .lexical ∧ d.severity = .error) := by
  obtain ⟨ss, htext, hcovers, htokens, hlast, hreports⟩ :=
    scanFrom_covers (whole_granted _) (.start source.toList) (List.Subset.refl _)
  refine ⟨ss, endOfText (scan source).last.line, htext.symm, htokens, rfl, rfl, ?_, hreports,
    more_of_end hlast, ?_⟩
  · intro before s after hss
    have hfits := hcovers.fits hss
    rw [List.append_nil] at hfits
    exact hfits
  · have hphase := scanFrom_phase (.start source.toList)
    rw [scan_failed]
    constructor
    · intro hfailed
      obtain ⟨d, hd, herror⟩ := List.any_eq_true.1 hfailed
      exact ⟨d, hd, hphase d hd, by simpa [Diagnostic.isError] using herror⟩
    · rintro ⟨d, hd, _, herror⟩
      exact List.any_eq_true.2 ⟨d, hd, by simp [Diagnostic.isError, herror]⟩

end Jminus.Lexer
