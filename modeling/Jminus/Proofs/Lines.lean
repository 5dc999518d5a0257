import Jminus.Proofs.Scanning
import Mathlib

/-!
A line break separates: what is scanned before it and what is scanned behind it do not depend on each
other, whatever is wrong with either.

No lexeme takes a line break, so at a line break every way of reading one stops just as it stops at
the end of a text. Only a block comment goes on behind the line; where none is left open, scanning
two texts with a line break between is scanning one and then the other, further down.
-/
namespace Jminus

def Token.shift (t : Token) (k : Nat) : Token := { t with line := t.line + k }

/-- All of a diagnostic but its wording. -/
def Diagnostic.place (d : Diagnostic) : Phase × Severity × Int := (d.phase, d.severity, d.line)

/-- The same diagnostic some lines further down. -/
def Diagnostic.shift (d : Diagnostic) (k : Nat) : Diagnostic := { d with line := d.line + k }

namespace Lexer

section Stops

variable {p : Char → Bool} (hp : p '\n' = false) (cs ds : List Char)

include hp

/-- What stops at a line break does not see what is behind it. -/
theorem takeWhile_line : (cs ++ '\n' :: ds).takeWhile p = cs.takeWhile p := by
  induction cs with
  | nil => simp [hp]
  | cons c cs ih => cases hc : p c <;> simp [hc, ih]

theorem dropWhile_line : (cs ++ '\n' :: ds).dropWhile p = cs.dropWhile p ++ '\n' :: ds := by
  induction cs with
  | nil => simp [hp]
  | cons c cs ih => cases hc : p c <;> simp [hc, ih]

end Stops

/-- A lexeme at the end of a text, and one where a line break and more follow instead. Their wording
of problems may differ. -/
structure Lexeme.Before (ds : List Char) (l l' : Lexeme) : Prop where
  kind : l'.kind = l.kind
  text : l'.text = l.text
  rest : l'.rest = l.rest ++ '\n' :: ds
  decoded : l'.decoded = l.decoded
  problems : l'.problems.length = l.problems.length

theorem suffix_before (kind : Kind) (text rest ds : List Char) (ps : List Problem) :
    (scale.suffix kind text rest ps).Before ds
      (scale.suffix kind text (rest ++ '\n' :: ds) ps) := by
  cases rest with
  | nil =>
    have hline : isDoubleSuffix '\n' = false := by decide
    simp only [scale.suffix, List.nil_append, hline, Bool.false_eq_true, if_false]
    exact ⟨rfl, rfl, rfl, rfl, rfl⟩
  | cons d cs =>
    cases hd : isDoubleSuffix d <;>
      (simp only [scale.suffix, List.cons_append, hd, Bool.false_eq_true, if_true, if_false]
       exact ⟨rfl, rfl, rfl, rfl, rfl⟩)

theorem sign_before (cs ds : List Char) : sign (cs ++ '\n' :: ds) = sign cs := by
  cases cs with
  | nil => simp [sign]
  | cons c cs =>
    rw [List.cons_append]
    unfold sign
    split <;> split <;> simp_all

theorem drop_sign_before (cs ds : List Char) :
    (cs ++ '\n' :: ds).drop (sign cs).length = cs.drop (sign cs).length ++ '\n' :: ds := by
  have hlen := congrArg List.length (sign_append_drop cs)
  rw [List.length_append] at hlen
  exact List.drop_append_of_le_length (by omega)

/-- An exponent and a mark end at the line. -/
theorem scale_before (whole : Kind) (text rest ds : List Char) :
    (scale whole text rest).Before ds (scale whole text (rest ++ '\n' :: ds)) := by
  cases rest with
  | nil => exact suffix_before whole text [] ds []
  | cons e cs =>
    by_cases he : (decide (e = 'e') || decide (e = 'E')) = true
    · simp only [scale, List.cons_append, he, if_true, sign_before, drop_sign_before,
        takeWhile_line (show Char.isDigit '\n' = false by decide),
        dropWhile_line (show Char.isDigit '\n' = false by decide)]
      exact suffix_before ..
    · simp only [scale, List.cons_append, he, Bool.false_eq_true, if_false]
      exact suffix_before whole text (e :: cs) ds []

theorem number_before (c : Char) (cs ds : List Char) :
    (number c cs).Before ds (number c (cs ++ '\n' :: ds)) := by
  have hdigit : Char.isDigit '\n' = false := by decide
  unfold number
  rw [takeWhile_line hdigit, dropWhile_line hdigit]
  generalize cs.dropWhile Char.isDigit = rest
  match rest with
  | [] => exact scale_before .intLiteral _ [] ds
  | s :: rest =>
    by_cases hs : s = '.'
    · subst hs
      simp only [List.cons_append, takeWhile_line hdigit, dropWhile_line hdigit]
      exact scale_before ..
    · simp only [List.cons_append]
      split
      · exact ⟨rfl, rfl, rfl, rfl, rfl⟩
      · exact scale_before .intLiteral _ (s :: rest) ds

theorem fraction_before (cs ds : List Char) :
    (fraction cs).Before ds (fraction (cs ++ '\n' :: ds)) := by
  have hdigit : Char.isDigit '\n' = false := by decide
  unfold fraction
  rw [takeWhile_line hdigit, dropWhile_line hdigit]
  exact scale_before ..

theorem word_before (c : Char) (cs ds : List Char) :
    (word c cs).Before ds (word c (cs ++ '\n' :: ds)) := by
  have hpart : isNamePart '\n' = false := by decide
  unfold word
  rw [takeWhile_line hpart, dropWhile_line hpart]
  exact ⟨rfl, rfl, rfl, rfl, rfl⟩

/-- The body of a character ends at the line; where a quote is missing the wording may differ. -/
theorem charBody_before (cs ds : List Char) :
    (charBody (cs ++ '\n' :: ds)).1 = (charBody cs).1 ∧
      (charBody (cs ++ '\n' :: ds)).2.1 = (charBody cs).2.1 ∧
      (charBody (cs ++ '\n' :: ds)).2.2.1 = (charBody cs).2.2.1 ++ '\n' :: ds ∧
      (charBody (cs ++ '\n' :: ds)).2.2.2.length = (charBody cs).2.2.2.length := by
  fun_cases charBody cs <;> simp_all [charBody]

def quote : List Char → List Char
  | '\'' :: _ => ['\'']
  | _ => []

theorem quote_before (cs ds : List Char) :
    quote (cs ++ '\n' :: ds) = quote cs ∧
      (cs ++ '\n' :: ds).drop (quote cs).length = cs.drop (quote cs).length ++ '\n' :: ds := by
  fun_cases quote cs with
  | case1 => exact ⟨rfl, rfl⟩
  | case2 cs hcs =>
    refine ⟨?_, rfl⟩
    cases cs with
    | nil => rfl
    | cons c cs =>
      rw [List.cons_append, quote]
      rintro rest heq
      exact hcs cs (by rw [(List.cons.inj heq).1])

section CharLiteral

variable {cs body rest : List Char} {value : Char} {problems : List Problem}

theorem charLiteral_closed (h : charBody cs = (body, value, '\'' :: rest, problems)) :
    charLiteral cs =
      { kind := .charLiteral, text := '\'' :: body ++ ['\''], rest, decoded := .char value, problems
      } := by
  simp [charLiteral, h]

/-- Where the quote is not due yet, all up to the next quote or semicolon of the line is skipped. -/
theorem charLiteral_unclosed (h : charBody cs = (body, value, rest, problems))
    (hrest : quote rest = []) :
    charLiteral cs =
      { kind := .charLiteral
        text := '\'' :: body ++ rest.takeWhile (!endsChar ·) ++ quote (rest.dropWhile (!endsChar ·))
        rest := (rest.dropWhile (!endsChar ·)).drop (quote (rest.dropWhile (!endsChar ·))).length
        decoded := .char value
        problems := problems ++ [Cause.unclosedChar.on ("found " ++ describe rest)] } := by
  unfold charLiteral
  simp only [h]
  split
  · cases hrest
  · generalize rest.dropWhile (!endsChar ·) = dropped
    fun_cases quote dropped <;> simp

end CharLiteral

/-- A missing quote is not looked for behind the line. -/
theorem charLiteral_before (cs ds : List Char) :
    (charLiteral cs).Before ds (charLiteral (cs ++ '\n' :: ds)) := by
  obtain ⟨hbody, hvalue, hrest, hproblems⟩ := charBody_before cs ds
  rcases h : charBody cs with ⟨body, value, rest, problems⟩
  rcases h' : charBody (cs ++ '\n' :: ds) with ⟨body', value', rest', problems'⟩
  rw [h, h'] at hbody hvalue hrest hproblems
  dsimp only at hbody hvalue hrest hproblems
  subst hbody hvalue hrest
  by_cases hquote : quote rest = []
  · have hends : (fun c => !endsChar c) '\n' = false := by decide
    have hquote' : quote (rest ++ '\n' :: ds) = [] := by rw [(quote_before rest ds).1, hquote]
    obtain ⟨hclose, hdrop⟩ := quote_before (rest.dropWhile (!endsChar ·)) ds
    rw [charLiteral_unclosed h hquote, charLiteral_unclosed h' hquote', takeWhile_line hends,
      dropWhile_line hends, hclose, hdrop]
    exact ⟨rfl, rfl, rfl, rfl, by simp [hproblems]⟩
  · obtain ⟨rest, rfl⟩ : ∃ more, rest = '\'' :: more := by
      revert hquote
      fun_cases quote rest with
      | case1 more => exact fun _ => ⟨more, rfl⟩
      | case2 => exact fun hquote => absurd rfl hquote
    rw [charLiteral_closed h, charLiteral_closed h']
    exact ⟨rfl, rfl, rfl, rfl, hproblems⟩

theorem stringBody_before (cs ds : List Char) :
    (stringBody (cs ++ '\n' :: ds)).1 = (stringBody cs).1 ∧
      (stringBody (cs ++ '\n' :: ds)).2.1 = (stringBody cs).2.1 ∧
      (stringBody (cs ++ '\n' :: ds)).2.2.1 = (stringBody cs).2.2.1 ++ '\n' :: ds ∧
      (stringBody (cs ++ '\n' :: ds)).2.2.2.length = (stringBody cs).2.2.2.length := by
  fun_induction stringBody cs with
  | case8 c cs hquote hline hlast _ hback text decoded rest problems heq ih =>
    have hback : c ≠ '\\' := by
      rintro rfl
      cases cs with
      | nil => exact hlast rfl rfl
      | cons d cs => exact hback d cs rfl rfl
    rw [heq] at ih
    simp_all [stringBody]
  | _ => simp_all [stringBody]

theorem stringLiteral_before (cs ds : List Char) :
    (stringLiteral cs).Before ds (stringLiteral (cs ++ '\n' :: ds)) := by
  obtain ⟨htext, hdecoded, hrest, hproblems⟩ := stringBody_before cs ds
  exact ⟨rfl, congrArg ('"' :: ·) htext, hrest, congrArg (Decoded.text <| String.ofList ·) hdecoded,
    hproblems⟩

/-- A text without line breaks starts with the same words, whatever follows its line. -/
theorem prefix_line {xs cs : List Char} (hxs : '\n' ∉ xs) (ds : List Char) :
    xs <+: cs ++ '\n' :: ds ↔ xs <+: cs := by
  induction xs generalizing cs with
  | nil => simp
  | cons x xs ih =>
    rw [List.mem_cons, not_or] at hxs
    cases cs with
    | nil => simp [List.cons_prefix_cons, Ne.symm hxs.1]
    | cons c cs => rw [List.cons_append, List.cons_prefix_cons, List.cons_prefix_cons, ih hxs.2]

/-- A symbol is found without looking behind the line. -/
theorem symbolAt_before (cs ds : List Char) :
    Kind.symbolAt (cs ++ '\n' :: ds) = Kind.symbolAt cs := by
  unfold Kind.symbolAt
  refine List.find?_congr fun k hk => ?_
  rw [Bool.eq_iff_iff, List.isPrefixOf_iff_prefix, List.isPrefixOf_iff_prefix]
  exact prefix_line (symbols_regular k hk).1 ds

/-- Every lexeme is read before a line break as at the end of the text, and what is no lexeme there
is none here. -/
theorem lexeme_before (c : Char) (cs ds : List Char) :
    (lexeme c cs = none ∧ lexeme c (cs ++ '\n' :: ds) = none) ∨
      ∃ l l', lexeme c cs = some l ∧ lexeme c (cs ++ '\n' :: ds) = some l' ∧ l.Before ds l' := by
  have hhead : (cs ++ '\n' :: ds).head?.any Char.isDigit = cs.head?.any Char.isDigit := by
    cases cs <;> rfl
  unfold lexeme
  rw [hhead]
  split_ifs
  · exact .inr ⟨_, _, rfl, rfl, charLiteral_before cs ds⟩
  · exact .inr ⟨_, _, rfl, rfl, stringLiteral_before cs ds⟩
  · exact .inr ⟨_, _, rfl, rfl, number_before c cs ds⟩
  · exact .inr ⟨_, _, rfl, rfl, word_before c cs ds⟩
  · exact .inr ⟨_, _, rfl, rfl, fraction_before cs ds⟩
  · rw [← List.cons_append, symbolAt_before]
    cases hk : Kind.symbolAt (c :: cs) with
    | none => exact .inl ⟨rfl, rfl⟩
    | some k =>
      have hlen := congrArg List.length (symbolAt_image hk)
      rw [List.length_append, String.length_toList] at hlen
      refine .inr ⟨_, _, rfl, rfl, rfl, rfl, ?_, rfl, rfl⟩
      exact List.drop_append_of_le_length (by omega)

variable {line : Nat} {gap : Gap} {cur : Cursor}

/-- A comment that is closed stays closed with more behind it. -/
theorem closeComment_before {line' : Nat} {cs rest : List Char}
    (h : closeComment line cs = some (rest, line')) (ds : List Char) :
    closeComment line (cs ++ ds) = some (rest ++ ds, line') := by
  fun_induction closeComment line cs with
  | case1 line cs =>
    cases h
    rfl
  | case2 line c cs hopen ih =>
    rw [List.cons_append, closeComment]
    · exact ih h
    · intro cs' hc hcs
      cases cs with
      | nil => cases h
      | cons d cs => exact hopen cs hc (by rw [(List.cons.inj hcs).1])
  | case3 => cases h

/-- A gap that a line break and more follow. Where the gap reached to the end of its text, it goes on
behind the line. -/
def Gap.before (gap : Gap) (ds : List Char) : Gap :=
  match gap.rest with
  | [] => skipGap (gap.line + 1) ds
  | c :: cs => { gap with rest := c :: cs ++ '\n' :: ds }

/-- A line break behind a character makes no mark that was not there. -/
theorem not_line_cons {c : Char} {cs ds cs' : List Char} (h : ∀ rest, cs = c :: rest → False)
    (hc : c ≠ '\n') : cs ++ '\n' :: ds = c :: cs' → False := by
  intro heq
  cases cs with
  | nil => exact hc (List.cons.inj heq).1.symm
  | cons d cs => exact h cs (by rw [(List.cons.inj heq).1])

theorem skipGap_line (line : Nat) (ds : List Char) :
    skipGap line ('\n' :: ds) = skipGap (line + 1) ds := by
  rw [skipGap] <;> simp [isBlank, lineAfter]

/-- A gap without an open comment ends where it did, or goes on behind the line break. -/
theorem skipGap_before {cs : List Char} (ds : List Char) (h : (skipGap line cs).unclosed = none) :
    skipGap line (cs ++ '\n' :: ds) = (skipGap line cs).before ds := by
  fun_induction skipGap line cs with
  | case1 line cs ih =>
    rw [List.cons_append, List.cons_append, skipGap, dropWhile_line (by decide)]
    exact ih h
  | case2 line cs rest line' hclose ih =>
    have hclose' := closeComment_before hclose ('\n' :: ds)
    rw [List.cons_append, List.cons_append, skipGap]
    split
    · rename_i heq
      rw [hclose'] at heq
      cases heq
      exact ih h
    · rename_i heq
      rw [hclose'] at heq
      cases heq
  | case3 => cases h
  | case4 line c cs hslash hstar hblank ih =>
    rw [List.cons_append, skipGap]
    · rw [if_pos hblank]
      exact ih h
    · exact fun cs' hc => not_line_cons (hslash · hc) (by decide)
    · exact fun cs' hc => not_line_cons (hstar · hc) (by decide)
  | case5 line c cs hslash hstar hblank =>
    rw [List.cons_append, skipGap]
    · rw [if_neg hblank]
      rfl
    · exact fun cs' hc => not_line_cons (hslash · hc) (by decide)
    · exact fun cs' hc => not_line_cons (hstar · hc) (by decide)
  | case6 line => exact skipGap_line line ds

def Closed (ds : List Diagnostic) : Prop := ∀ d ∈ ds, d.problem.cause ≠ .unclosedComment

theorem Gap.unclosed_of_closed (h : Closed gap.warnings) : gap.unclosed = none := by
  cases hline : gap.unclosed with
  | none => rfl
  | some line => exact absurd rfl (h _ (by simp [Gap.warnings, hline]; rfl))

theorem Gap.warnings_nil (h : gap.unclosed = none) : gap.warnings = [] := by
  simp [Gap.warnings, h]

section Next

variable {cur : Cursor} {c : Char} {cs : List Char}

theorem next_end (h : (skipGap cur.line cur.rest).rest = []) :
    next cur =
      { token := endOfText (skipGap cur.line cur.rest).line
        diagnostics := (skipGap cur.line cur.rest).warnings
        next := ⟨[], (skipGap cur.line cur.rest).line⟩
        failed := false } := by
  rw [next]
  split
  · rfl
  · rename_i heq
    rw [h] at heq
    cases heq

/-- The next token is the lexeme behind the gap. -/
theorem next_lexeme {l : Lexeme} (h : (skipGap cur.line cur.rest).rest = c :: cs)
    (hl : lexeme c cs = some l) :
    next cur =
      { token := l.token (skipGap cur.line cur.rest).line
        diagnostics := (skipGap cur.line cur.rest).warnings ++
          l.problems.map (report (skipGap cur.line cur.rest).line)
        next := ⟨l.rest, (skipGap cur.line cur.rest).line⟩
        failed := !l.problems.isEmpty } := by
  rw [next]
  split
  · rename_i heq
    rw [h] at heq
    cases heq
  · rename_i heq
    rw [h] at heq
    cases heq
    simp only [hl]
    rfl

/-- A character that starts no token is reported, and the token behind it is the next. -/
theorem next_illegal (h : (skipGap cur.line cur.rest).rest = c :: cs) (hl : lexeme c cs = none) :
    next cur =
      { next ⟨cs, (skipGap cur.line cur.rest).line⟩ with
        diagnostics := (skipGap cur.line cur.rest).warnings ++
          report (skipGap cur.line cur.rest).line (Cause.illegalChar.on ("'" ++ c.toString ++ "'")) ::
            (next ⟨cs, (skipGap cur.line cur.rest).line⟩).diagnostics
        failed := true } := by
  rw [next]
  split
  · rename_i heq
    rw [h] at heq
    cases heq
  · rename_i heq
    rw [h] at heq
    cases heq
    simp only [hl]

/-- Only what stands behind the gap matters. -/
theorem next_congr {cur' : Cursor}
    (h : skipGap cur.line cur.rest = skipGap cur'.line cur'.rest) : next cur = next cur' := by
  cases hrest : (skipGap cur'.line cur'.rest).rest with
  | nil => rw [next_end (by rw [h, hrest]), next_end hrest, h]
  | cons c cs =>
    cases hl : lexeme c cs with
    | none => rw [next_illegal (by rw [h, hrest]) hl, next_illegal hrest hl, h]
    | some l => rw [next_lexeme (by rw [h, hrest]) hl, next_lexeme hrest hl, h]

end Next

/-- The same place where a line break and more follow the text. -/
def Cursor.before (cur : Cursor) (ds : List Char) : Cursor := ⟨cur.rest ++ '\n' :: ds, cur.line⟩

def Cursor.below (cur : Cursor) (ds : List Char) : Cursor := ⟨ds, cur.line + 1⟩

def places (ds : List Diagnostic) : List (Phase × Severity × Int) := ds.map Diagnostic.place

@[simp] theorem places_append (ds ds' : List Diagnostic) :
    places (ds ++ ds') = places ds ++ places ds' := List.map_append

/-- Problems that differ in wording are at the same place. -/
theorem places_reports {ps ps' : List Problem} (h : ps'.length = ps.length) (line : Nat) :
    places (ps'.map (report line)) = places (ps.map (report line)) := by
  have hplaces : ∀ qs : List Problem, places (qs.map (report line)) =
      List.replicate qs.length (.lexical, .error, (line : Int)) := by
    intro qs
    simp [places, List.map_eq_replicate_iff, report, Diagnostic.place]
  rw [hplaces, hplaces, h]

theorem gap_before {c : Char} {cs : List Char} (ds : List Char)
    (h : (skipGap cur.line cur.rest).unclosed = none)
    (hrest : (skipGap cur.line cur.rest).rest = c :: cs) :
    (skipGap (cur.before ds).line (cur.before ds).rest).rest = c :: (cs ++ '\n' :: ds) ∧
      (skipGap (cur.before ds).line (cur.before ds).rest).line = (skipGap cur.line cur.rest).line ∧
      (skipGap (cur.before ds).line (cur.before ds).rest).warnings = [] := by
  have hgap : skipGap (cur.before ds).line (cur.before ds).rest =
      { skipGap cur.line cur.rest with rest := c :: cs ++ '\n' :: ds } := by
    refine (skipGap_before ds h).trans ?_
    rw [Gap.before, hrest]
  rw [hgap]
  exact ⟨rfl, rfl, Gap.warnings_nil h⟩

/-- One step before a line break: the token is the same, or the text before the line break is over
and the token is the first one behind. -/
theorem next_before (cur : Cursor) (ds : List Char) (h : Closed (next cur).diagnostics) :
    ((next cur).token.kind ≠ .eof ∧ (next (cur.before ds)).token = (next cur).token ∧
      (next (cur.before ds)).next = (next cur).next.before ds ∧
      places (next (cur.before ds)).diagnostics = places (next cur).diagnostics) ∨
    ((next cur).token.kind = .eof ∧
      (next (cur.before ds)).token = (next ((next cur).next.below ds)).token ∧
      (next (cur.before ds)).next = (next ((next cur).next.below ds)).next ∧
      places (next (cur.before ds)).diagnostics =
        places (next cur).diagnostics ++ places (next ((next cur).next.below ds)).diagnostics) := by
  fun_induction next cur with
  | case1 cur gap hrest =>
    have hunclosed : gap.unclosed = none := Gap.unclosed_of_closed h
    have hnext : next (cur.before ds) = next ⟨ds, gap.line + 1⟩ := by
      refine next_congr ((skipGap_before ds hunclosed).trans ?_)
      rw [Gap.before, hrest]
    rw [hnext, Gap.warnings_nil hunclosed]
    exact .inr ⟨rfl, rfl, rfl, rfl⟩
  | case2 cur gap c cs hrest l hl =>
    have hunclosed : gap.unclosed = none :=
      Gap.unclosed_of_closed fun d hd => h d (List.mem_append_left _ hd)
    obtain ⟨hrest', hline, hwarnings⟩ := gap_before ds hunclosed hrest
    obtain ⟨hnone, _⟩ | ⟨_, l', hsome, hl', hbefore⟩ := lexeme_before c cs ds
    · rw [hl] at hnone
      cases hnone
    rw [hl] at hsome
    cases hsome
    have hnext : next (cur.before ds) = _ := next_lexeme hrest' hl'
    rw [hline, hwarnings, hbefore.rest] at hnext
    rw [hnext, Gap.warnings_nil hunclosed]
    refine .inl ⟨(lexeme_regular hl).kind, ?_, rfl, places_reports hbefore.problems gap.line⟩
    simp only [Lexeme.token, hbefore.kind, hbefore.text, hbefore.decoded]
    rfl
  | case3 cur gap c cs hrest hl found ih =>
    have hunclosed : gap.unclosed = none :=
      Gap.unclosed_of_closed fun d hd => h d (List.mem_append_left _ hd)
    have hfound : Closed found.diagnostics := fun d hd =>
      h d (List.mem_append_right _ (List.mem_cons_of_mem _ hd))
    obtain ⟨hrest', hline, hwarnings⟩ := gap_before ds hunclosed hrest
    have hl' : lexeme c (cs ++ '\n' :: ds) = none := by
      obtain ⟨_, hl'⟩ | ⟨_, _, hsome, _⟩ := lexeme_before c cs ds
      · exact hl'
      · rw [hl] at hsome
        cases hsome
    have hnext : next (cur.before ds) = _ := next_illegal hrest' hl'
    rw [hline, hwarnings] at hnext
    rw [hnext, Gap.warnings_nil hunclosed]
    rcases ih hfound with ⟨hkind, htoken, hcursor, hplaces⟩ | ⟨hkind, htoken, hcursor, hplaces⟩
    · exact .inl ⟨hkind, htoken, hcursor, congrArg (_ :: ·) hplaces⟩
    · exact .inr ⟨hkind, htoken, hcursor, congrArg (_ :: ·) hplaces⟩

theorem scanFrom_end (h : (next cur).token.kind = .eof) :
    scanFrom cur =
      ⟨[(next cur).token], (next cur).diagnostics, (next cur).next, (next cur).failed⟩ := by
  rw [scanFrom]
  simp [h]

/-- A scan is its first token and the scan behind it. -/
theorem scanFrom_token (h : (next cur).token.kind ≠ .eof) :
    scanFrom cur = ⟨(next cur).token :: (scanFrom (next cur).next).tokens,
      (next cur).diagnostics ++ (scanFrom (next cur).next).diagnostics,
      (scanFrom (next cur).next).last, (next cur).failed || (scanFrom (next cur).next).failed⟩ := by
  rw [scanFrom]
  simp [h]

/-- Scanning goes on from the token that was found and the place behind it. -/
theorem scanFrom_congr {cur' : Cursor} (htoken : (next cur').token = (next cur).token)
    (hnext : (next cur').next = (next cur).next) :
    (scanFrom cur').tokens = (scanFrom cur).tokens ∧
      ∃ more, (scanFrom cur).diagnostics = (next cur).diagnostics ++ more ∧
        (scanFrom cur').diagnostics = (next cur').diagnostics ++ more := by
  by_cases hkind : (next cur).token.kind = .eof
  · rw [scanFrom_end hkind, scanFrom_end (by rw [htoken, hkind]), htoken]
    exact ⟨rfl, [], by simp, by simp⟩
  · rw [scanFrom_token hkind, scanFrom_token (by rw [htoken]; exact hkind), htoken, hnext]
    exact ⟨rfl, _, rfl, rfl⟩

/-- The tokens before a line break and those behind it, which starts one line below the last
line. -/
theorem scanFrom_before (cur : Cursor) (ds : List Char) (h : Closed (scanFrom cur).diagnostics) :
    ∃ ts eof, (scanFrom cur).tokens = ts ++ [eof] ∧ eof.kind = .eof ∧ (∀ t ∈ ts, t.kind ≠ .eof) ∧
      (scanFrom (cur.before ds)).tokens =
        ts ++ (scanFrom ((scanFrom cur).last.below ds)).tokens ∧
      places (scanFrom (cur.before ds)).diagnostics = places (scanFrom cur).diagnostics ++
        places (scanFrom ((scanFrom cur).last.below ds)).diagnostics := by
  fun_induction scanFrom cur with
  | case1 cur found hkind =>
    obtain ⟨hkind', _⟩ | ⟨_, htoken, hnext, hplaces⟩ := next_before cur ds h
    · exact absurd hkind hkind'
    obtain ⟨htokens, more, hmore, hmore'⟩ := scanFrom_congr htoken hnext
    refine ⟨[], found.token, rfl, hkind, by simp, htokens, ?_⟩
    rw [hmore', places_append, hplaces, List.append_assoc, ← places_append, ← hmore]
  | case2 cur found hkind more ih =>
    obtain ⟨_, htoken, hnext, hplaces⟩ | ⟨hkind', _⟩ :=
      next_before cur ds fun d hd => h d (List.mem_append_left _ hd)
    · obtain ⟨ts, eof, hts, heof, hkinds, htokens, hmore⟩ :=
        ih fun d hd => h d (List.mem_append_right _ hd)
      have hkind' : (next (cur.before ds)).token.kind ≠ .eof := by
        rw [htoken]
        exact hkind
      rw [scanFrom_token hkind', htoken, hnext]
      refine ⟨found.token :: ts, eof, congrArg (_ :: ·) hts, heof, ?_, congrArg (_ :: ·) htokens, ?_⟩
      · rintro t (_ | ⟨_, ht⟩)
        · exact hkind
        · exact hkinds t ht
      · rw [places_append, hplaces, hmore, places_append, List.append_assoc]
    · exact absurd hkind' hkind

/-- The line at the end counts the line breaks of the text. -/
theorem scanFrom_last_line (cur : Cursor) :
    (scanFrom cur).last.line = cur.line + cur.rest.count '\n' := by
  have hcovers : ∀ cur, ∃ cs, cur.rest = cs ++ (next cur).next.rest ∧
      (next cur).next.line = cur.line + cs.count '\n' ∧
      ((next cur).token.kind = .eof → (next cur).next.rest = []) := by
    intro cur
    obtain ⟨ss, hrest, _, hline, _, hkind⟩ :=
      next_covers (whole_granted _) cur (List.Subset.refl _)
    refine ⟨text ss, hrest, hline, fun heof => ?_⟩
    rcases hkind with ⟨_, hnil, _⟩ | ⟨hkind, _⟩
    · exact hnil
    · exact absurd heof hkind
  fun_induction scanFrom cur with
  | case1 cur found hkind =>
    obtain ⟨cs, hrest, hline, hend⟩ := hcovers cur
    rw [hend hkind, List.append_nil] at hrest
    rw [hrest]
    exact hline
  | case2 cur found hkind more ih =>
    obtain ⟨cs, hrest, hline, _⟩ := hcovers cur
    rw [hrest, List.count_append, ← Nat.add_assoc, ← hline]
    exact ih

theorem lineAfter_shift (line k : Nat) (c : Char) :
    lineAfter (line + k) c = lineAfter line c + k := by
  unfold lineAfter
  split <;> omega

theorem closeComment_shift (line k : Nat) (cs : List Char) :
    closeComment (line + k) cs =
      (closeComment line cs).map fun (rest, line') => (rest, line' + k) := by
  fun_induction closeComment line cs with
  | case1 line cs => rfl
  | case2 line c cs hopen ih =>
    rw [closeComment, lineAfter_shift, ih]
    exact hopen
  | case3 => rfl

def Gap.shift (gap : Gap) (k : Nat) : Gap :=
  { rest := gap.rest, line := gap.line + k, unclosed := gap.unclosed.map (· + k) }

theorem skipGap_shift (line k : Nat) (cs : List Char) :
    skipGap (line + k) cs = (skipGap line cs).shift k := by
  fun_induction skipGap line cs with
  | case1 line cs ih =>
    rw [skipGap]
    exact ih
  | case2 line cs rest line' h ih =>
    have hclose : closeComment (line + k) cs = some (rest, line' + k) := by
      rw [closeComment_shift, h]
      rfl
    rw [skipGap]
    split
    · rename_i heq
      rw [hclose] at heq
      cases heq
      exact ih
    · rename_i heq
      rw [hclose] at heq
      cases heq
  | case3 line cs h =>
    have hclose : closeComment (line + k) cs = none := by
      rw [closeComment_shift, h]
      rfl
    rw [skipGap]
    split
    · rename_i heq
      rw [hclose] at heq
      cases heq
    · simp only [Gap.shift, Option.map_some, Gap.mk.injEq, and_true, true_and]
      omega
  | case4 line c cs hslash hstar hblank ih =>
    rw [skipGap, if_pos hblank, lineAfter_shift]
    · exact ih
    · exact hslash
    · exact hstar
  | case5 line c cs hslash hstar hblank =>
    rw [skipGap, if_neg hblank]
    · rfl
    · exact hslash
    · exact hstar
  | case6 line => simp [skipGap, Gap.shift]

theorem Gap.warnings_shift (gap : Gap) (k : Nat) :
    (gap.shift k).warnings = gap.warnings.map (·.shift k) := by
  cases h : gap.unclosed <;> simp [Gap.warnings, Gap.shift, h, Diagnostic.shift]

theorem report_shift (line k : Nat) (p : Problem) :
    report (line + k) p = (report line p).shift k := by
  simp [report, Diagnostic.shift]

def Scanned.shift (found : Scanned) (k : Nat) : Scanned :=
  { token := found.token.shift k
    diagnostics := found.diagnostics.map (·.shift k)
    next := ⟨found.next.rest, found.next.line + k⟩
    failed := found.failed }

/-- Where scanning starts changes lines only. -/
theorem next_shift (cur : Cursor) (k : Nat) :
    next ⟨cur.rest, cur.line + k⟩ = (next cur).shift k := by
  have hgap : ∀ cur : Cursor,
      skipGap (cur.line + k) cur.rest = (skipGap cur.line cur.rest).shift k :=
    fun cur => skipGap_shift cur.line k cur.rest
  fun_induction next cur with
  | case1 cur gap hrest =>
    have hrest' : (skipGap (cur.line + k) cur.rest).rest = [] := by rw [hgap]; exact hrest
    have hnext : next ⟨cur.rest, cur.line + k⟩ = _ := next_end hrest'
    rw [hnext, hgap, Gap.warnings_shift]
    rfl
  | case2 cur gap c cs hrest l hl =>
    have hrest' : (skipGap (cur.line + k) cur.rest).rest = c :: cs := by rw [hgap]; exact hrest
    have hnext : next ⟨cur.rest, cur.line + k⟩ = _ := next_lexeme hrest' hl
    have hproblems : l.problems.map (report (gap.line + k)) =
        (l.problems.map (report gap.line)).map (·.shift k) := by
      rw [List.map_map]
      exact List.map_congr_left fun p _ => report_shift gap.line k p
    rw [hnext, hgap, Gap.warnings_shift, Scanned.shift, List.map_append, ← hproblems]
    rfl
  | case3 cur gap c cs hrest hl found ih =>
    have hrest' : (skipGap (cur.line + k) cur.rest).rest = c :: cs := by rw [hgap]; exact hrest
    have hnext : next ⟨cur.rest, cur.line + k⟩ = _ := next_illegal hrest' hl
    have hbehind : next ⟨cs, (gap.shift k).line⟩ = found.shift k := ih
    rw [hnext, hgap, Gap.warnings_shift, hbehind]
    simp only [Scanned.shift, List.map_append, List.map_cons, ← report_shift]
    rfl

def Scan.shift (s : Scan) (k : Nat) : Scan :=
  { tokens := s.tokens.map (·.shift k)
    diagnostics := s.diagnostics.map (·.shift k)
    last := ⟨s.last.rest, s.last.line + k⟩
    failed := s.failed }

theorem scanFrom_shift (cur : Cursor) (k : Nat) :
    scanFrom ⟨cur.rest, cur.line + k⟩ = (scanFrom cur).shift k := by
  fun_induction scanFrom cur with
  | case1 cur found hkind =>
    have hkind' : (next ⟨cur.rest, cur.line + k⟩).token.kind = .eof := by
      rw [next_shift]
      exact hkind
    rw [scanFrom_end hkind', next_shift]
    rfl
  | case2 cur found hkind more ih =>
    have hkind' : (next ⟨cur.rest, cur.line + k⟩).token.kind ≠ .eof := by
      rw [next_shift]
      exact hkind
    have hmore : scanFrom ((next cur).shift k).next = more.shift k := ih
    rw [scanFrom_token hkind', next_shift, hmore]
    simp only [Scan.shift, Scanned.shift, List.map_append, List.map_cons]
    rfl

/-- Problems stay on their line. A text, a line break and another text are scanned as the first text,
without its end, and then the second one, further down by one line and the lines of the first.
Tokens are the same in all but their lines, and there are as many diagnostics, alike in all but
wording. Nothing is asked of either text but that the first leaves no comment open. -/
theorem scan_newline (s₁ s₂ : String)
    (h : ∀ d ∈ (scan s₁).diagnostics, d.problem.cause ≠ .unclosedComment) :
    ∃ ts eof, (scan s₁).tokens = ts ++ [eof] ∧ eof.kind = .eof ∧ (∀ t ∈ ts, t.kind ≠ .eof) ∧
      (scan (s₁ ++ "\n" ++ s₂)).tokens =
        ts ++ (scan s₂).tokens.map (·.shift (1 + s₁.toList.count '\n')) ∧
      (scan (s₁ ++ "\n" ++ s₂)).diagnostics.map (·.place) =
        (scan s₁).diagnostics.map (·.place) ++
          (scan s₂).diagnostics.map fun d => (d.shift (1 + s₁.toList.count '\n')).place := by
  obtain ⟨ts, eof, hts, heof, hkinds, htokens, hplaces⟩ :=
    scanFrom_before (.start s₁.toList) s₂.toList h
  have hwhole : scan (s₁ ++ "\n" ++ s₂) =
      scanFrom (Cursor.before (.start s₁.toList) s₂.toList) := by
    simp [scan, Cursor.before, Cursor.start]
  have hbelow : scanFrom ((scanFrom (.start s₁.toList)).last.below s₂.toList) =
      (scan s₂).shift (1 + s₁.toList.count '\n') := by
    rw [Cursor.below, scanFrom_last_line, Nat.add_assoc, Nat.add_comm (List.count _ _)]
    exact scanFrom_shift (.start s₂.toList) _
  rw [hbelow] at htokens hplaces
  refine ⟨ts, eof, hts, heof, hkinds, by rw [hwhole, htokens]; rfl, ?_⟩
  rw [hwhole]
  refine hplaces.trans (congrArg (_ ++ ·) ?_)
  simp [Scan.shift, places]

/-- An open string, an open character and an open comment, each on a line of its own. -/
theorem scan_newline_open :
    (scan ("int s = \"a" ++ "\n" ++ "'b /* c")).tokens.map (fun t => (t.kind, t.line)) =
      [(.kwInt, 1), (.identifier, 1), (.assign, 1), (.stringLiteral, 1), (.charLiteral, 2),
        (.eof, 2)] := by
  obtain ⟨ts, eof, hts, _, _, htokens, _⟩ := scan_newline "int s = \"a" "'b /* c" (by decide +kernel)
  have hfirst : ts = (scan "int s = \"a").tokens.dropLast := by rw [hts, List.dropLast_concat]
  rw [htokens, hfirst]
  decide +kernel

end Lexer

end Jminus
