import Jminus.Proofs.Rescanning
import Mathlib

/-!
What stands between tokens does not matter.

The lexemes of a text without lexical errors are put together again with something else between
them: a blank, and then as many blanks and comments as one likes. Each lexeme is read again from its
own text, since a blank or the end of the text follows it, and every separator is skipped to its end,
since a comment ends where its mark first stands.
-/
namespace Jminus

def Token.content (t : Token) : Kind × String × Decoded := (t.kind, t.lexeme, t.decoded)

namespace Lexer

/-- What may stand between tokens: blanks, comments up to a line break and comments with their
closing mark. -/
inductive Filler where
  | blank (c : Char) (h : isBlank c = true)
  | lineComment (body : List Char) (h : '\n' ∉ body)
  | blockComment (body : List Char) (h : ¬ ['*', '/'] <:+: body)

def Filler.text : Filler → List Char
  | .blank c _ => [c]
  | .lineComment body _ => '/' :: '/' :: body ++ ['\n']
  | .blockComment body _ => '/' :: '*' :: body ++ ['*', '/']

structure Separator where
  first : Char
  isBlank : isBlank first = true
  more : List Filler

def Separator.text (s : Separator) : List Char := s.first :: s.more.flatMap Filler.text

def Separator.space : Separator := ⟨' ', rfl, []⟩

/-- Words with separators between them; `sep n` is the one behind the word with number `n`. -/
def rejoin (sep : Nat → Separator) : List String → String
  | [] => ""
  | [w] => w
  | w :: v :: ws => w ++ String.ofList (sep 0).text ++ rejoin (fun n => sep (n + 1)) (v :: ws)

/-- Single spaces are separators. -/
theorem rejoin_space (ws : List String) : rejoin (fun _ => .space) ws = " ".intercalate ws := by
  induction ws with
  | nil => rfl
  | cons w ws ih =>
    cases ws with
    | nil => simp [rejoin]
    | cons v ws =>
      rw [rejoin, ih, String.intercalate_cons_cons]
      rfl

section Skipping

variable (line : Nat) (cs : List Char)

/-- A comment ends at the first closing mark. -/
theorem closeComment_closes {body : List Char} (h : ¬ ['*', '/'] <:+: body) :
    ∃ line', closeComment line (body ++ '*' :: '/' :: cs) = some (cs, line') := by
  induction body generalizing line with
  | nil => exact ⟨line, rfl⟩
  | cons c body ih =>
    rw [infix_cons_iff, not_or] at h
    obtain ⟨line', hclose⟩ := ih (lineAfter line c) h.2
    refine ⟨line', ?_⟩
    rw [List.cons_append, closeComment]
    · exact hclose
    · -- A star before the body goes on would close the comment only before a slash.
      intro rest hc hrest
      cases body with
      | nil => cases hrest
      | cons d body => exact h.1 ⟨hc, congrArg some (List.cons.inj hrest).1⟩

theorem skipGap_blank {c : Char} (hc : isBlank c = true) :
    skipGap line (c :: cs) = skipGap (lineAfter line c) cs := by
  have hslash : c ≠ '/' := by
    rintro rfl
    cases hc
  rw [skipGap]
  · rw [if_pos hc]
  · exact fun _ h => absurd h hslash
  · exact fun _ h => absurd h hslash

/-- A gap goes on behind a filler. -/
theorem skipGap_filler (f : Filler) :
    ∃ line', skipGap line (f.text ++ cs) = skipGap line' cs := by
  cases f with
  | blank c hc => exact ⟨_, skipGap_blank line cs hc⟩
  | lineComment body hbody =>
    have hdrop : (body ++ '\n' :: cs).dropWhile (· != '\n') = '\n' :: cs := by
      have hall : ∀ c ∈ body, (c != '\n') = true := by
        intro c hc
        rw [bne_iff_ne]
        rintro rfl
        exact hbody hc
      rw [List.dropWhile_append_of_pos hall, List.dropWhile_cons_of_neg (by simp)]
    refine ⟨line + 1, ?_⟩
    simp only [Filler.text, List.cons_append, List.append_assoc, List.nil_append]
    rw [skipGap, hdrop, skipGap_line]
  | blockComment body hbody =>
    obtain ⟨line', hclose⟩ := closeComment_closes line cs hbody
    refine ⟨line', ?_⟩
    simp only [Filler.text, List.cons_append, List.append_assoc, List.nil_append]
    rw [skipGap]
    split
    · rename_i heq
      cases hclose.symm.trans heq
      rfl
    · rename_i heq
      cases hclose.symm.trans heq

/-- A separator is skipped to its end. -/
theorem skipGap_separator (s : Separator) :
    ∃ line', skipGap line (s.text ++ cs) = skipGap line' cs := by
  have hfillers : ∀ (fs : List Filler) (line : Nat),
      ∃ line', skipGap line (fs.flatMap Filler.text ++ cs) = skipGap line' cs := by
    intro fs
    induction fs with
    | nil => exact fun line => ⟨line, rfl⟩
    | cons f fs ih =>
      intro line
      obtain ⟨line₁, hfirst⟩ := skipGap_filler line (fs.flatMap Filler.text ++ cs) f
      obtain ⟨line₂, hmore⟩ := ih line₁
      exact ⟨line₂, by rw [List.flatMap_cons, List.append_assoc, hfirst, hmore]⟩
  obtain ⟨line', hmore⟩ := hfillers s.more (lineAfter line s.first)
  exact ⟨line', (skipGap_blank line _ s.isBlank).trans hmore⟩

/-- What is skipped takes no part in the tokens behind it. -/
theorem scanFrom_separator (s : Separator) :
    ∃ line', scanFrom ⟨s.text ++ cs, line⟩ = scanFrom ⟨cs, line'⟩ := by
  obtain ⟨line', hgap⟩ := skipGap_separator line cs s
  have hnext : next ⟨s.text ++ cs, line⟩ = next ⟨cs, line'⟩ := next_congr hgap
  refine ⟨line', ?_⟩
  by_cases hkind : (next ⟨cs, line'⟩).token.kind = .eof
  · rw [scanFrom_end hkind, scanFrom_end (by rw [hnext, hkind]), hnext]
  · rw [scanFrom_token hkind, scanFrom_token (by rwa [hnext]), hnext]

end Skipping

def Clean (t : Token) : Prop :=
  ∃ c cs l, lexeme c cs = some l ∧ l.problems = [] ∧ t = l.token t.line

/-- Where no error is reported every token is clean. -/
theorem clean_granted {ds : List Diagnostic} (hds : ∀ d ∈ ds, d.isError = false) :
    Grants ds fun t _ => Clean t := by
  intro c cs l line hl hproblems
  refine ⟨c, cs, l, hl, ?_, rfl⟩
  refine List.eq_nil_iff_forall_not_mem.2 fun p hp => ?_
  have hreport := hds _ (hproblems p hp)
  simp [report, Diagnostic.isError] at hreport

/-- Tokens of a cover are as they are granted. -/
theorem Covers.token {P : Token → List Char → Prop} {rest : List Char} {line : Nat}
    {ss : List Stretch} (h : Covers P rest line ss) {t : Token} (ht : t ∈ tokens ss) :
    ∃ behind, P t behind := by
  induction ss generalizing line with
  | nil => cases ht
  | cons s ss ih =>
    cases s with
    | token u =>
      rcases List.mem_cons.1 ht with rfl | ht
      · exact ⟨_, h.1.1⟩
      · exact ih h.2 ht
    | _ => exact ih h.2 ht

/-- A text without lexical errors is made of clean tokens and its end. -/
theorem scan_clean {source : String} (h : (scan source).failed = false) :
    ∃ ts line, (scan source).tokens = ts ++ [endOfText line] ∧ ∀ t ∈ ts, Clean t := by
  have hquiet : ∀ d ∈ (scan source).diagnostics, d.isError = false := by
    simpa [scan_failed] using h
  obtain ⟨ss, _, hcovers, htokens, _, _⟩ :=
    scanFrom_covers (clean_granted hquiet) (.start source.toList) (List.Subset.refl _)
  exact ⟨tokens ss, _, htokens, fun t ht => (hcovers.token ht).elim fun _ h => h⟩

/-- A slash in front of a lexeme starts no comment. -/
theorem skipGap_lexeme {c : Char} {cs more ds : List Char} {l : Lexeme} (h : lexeme c cs = some l)
    (htext : l.text = c :: more) (hds : Apart ds) (line : Nat) :
    skipGap line (c :: (more ++ ds)) = ⟨c :: (more ++ ds), line, none⟩ := by
  by_cases hslash : c = '/'
  · subst hslash
    have hsymbols : ∀ k ∈ Kind.symbols, k.image.toList.head? = some '/' →
        k.image.toList = ['/'] ∨ k.image.toList = ['/', '='] := by decide
    have hmore : ∀ d ∈ (more ++ ds).head?, d ≠ '/' ∧ d ≠ '*' := by
      obtain ⟨hc, _⟩ | ⟨hc, _⟩ | ⟨hc, _⟩ | ⟨hc, _⟩ | ⟨hc, _⟩ | ⟨k, hk, rfl⟩ := lexeme_cases h
      · cases hc
      · cases hc
      · cases hc
      · cases hc
      · cases hc
      · have himage : k.image.toList = '/' :: more := htext
        have hshape := hsymbols k (List.mem_of_find?_eq_some hk) (by rw [himage]; rfl)
        rw [himage] at hshape
        rcases hshape with hshape | hshape
        · cases hshape
          intro d hd
          have hstops := hds.stops (p := fun d => d = '/' || d = '*') (by decide) d hd
          simpa using hstops
        · cases hshape
          rintro d ⟨⟩
          decide
    rw [skipGap]
    · rfl
    · intro cs' _ heq
      exact (hmore '/' (by rw [heq]; rfl)).1 rfl
    · intro cs' _ heq
      exact (hmore '*' (by rw [heq]; rfl)).2 rfl
  · exact skipGap_stays (lexeme_not_blank h) hslash

/-- A clean token is read again from its lexeme. -/
theorem Clean.next {t : Token} {ds : List Char} (h : Clean t) (hds : Apart ds) (line : Nat) :
    next ⟨t.lexeme.toList ++ ds, line⟩ = ⟨{ t with line }, [], ⟨ds, line⟩, false⟩ := by
  obtain ⟨c, cs, l, hl, hquiet, ht⟩ := h
  obtain ⟨more, htext, hagain⟩ := lexeme_again hl hquiet
  have hchars : t.lexeme.toList = c :: more := by
    rw [ht, Lexeme.token, String.toList_ofList, htext]
  rw [hchars, List.cons_append, ht]
  exact next_token (skipGap_lexeme hl htext hds line) (hagain ds hds) hquiet

theorem Clean.kind {t : Token} (h : Clean t) : t.kind ≠ .eof := by
  obtain ⟨c, cs, l, hl, _, ht⟩ := h
  rw [ht]
  exact (lexeme_regular hl).kind

/-- Behind a word there is nothing, or a separator and the other words. -/
theorem rejoin_cons (sep : Nat → Separator) (w : String) (ws : List String) :
    ∃ ds, (rejoin sep (w :: ws)).toList = w.toList ++ ds ∧ Apart ds ∧
      ∀ line, ∃ line', scanFrom ⟨ds, line⟩ =
        scanFrom ⟨(rejoin (fun n => sep (n + 1)) ws).toList, line'⟩ := by
  cases ws with
  | nil => exact ⟨[], by simp [rejoin], by simp [Apart], fun line => ⟨line, rfl⟩⟩
  | cons v ws =>
    refine ⟨(sep 0).text ++ (rejoin (fun n => sep (n + 1)) (v :: ws)).toList, by simp [rejoin], ?_,
      fun line => scanFrom_separator line _ (sep 0)⟩
    rintro d ⟨⟩
    exact (sep 0).isBlank

/-- Clean tokens come back from their lexemes, in order and without complaint, also where the empty
lexeme of the end is among the words. -/
theorem scanFrom_rejoin {ts : List Token} (hts : ∀ t ∈ ts, Clean t) {last : List String}
    (hlast : last = [] ∨ last = [""]) (sep : Nat → Separator) (line : Nat) :
    (scanFrom ⟨(rejoin sep (ts.map (·.lexeme) ++ last)).toList, line⟩).diagnostics = [] ∧
      (scanFrom ⟨(rejoin sep (ts.map (·.lexeme) ++ last)).toList, line⟩).tokens.map (·.content) =
        ts.map (·.content) ++ [(endOfText line).content] := by
  induction ts generalizing sep line with
  | nil =>
    have hempty : (rejoin sep last).toList = [] := by
      rcases hlast with rfl | rfl <;> rfl
    have hgap : skipGap line [] = ⟨[], line, none⟩ := by rw [skipGap]
    have hnext : next ⟨[], line⟩ = ⟨endOfText line, [], ⟨[], line⟩, false⟩ := by
      rw [next_end (by rw [hgap]), hgap]
      rfl
    rw [List.map_nil, List.nil_append, hempty, scanFrom_end (by rw [hnext]; rfl), hnext]
    exact ⟨rfl, rfl⟩
  | cons t ts ih =>
    obtain ⟨ht, hts⟩ := List.forall_mem_cons.1 hts
    obtain ⟨ds, htext, hds, hbehind⟩ := rejoin_cons sep t.lexeme (ts.map (·.lexeme) ++ last)
    obtain ⟨line', hscan⟩ := hbehind line
    obtain ⟨hquiet, hmore⟩ := ih hts (fun n => sep (n + 1)) line'
    have hnext := ht.next hds line
    rw [List.map_cons, List.cons_append, htext, scanFrom_token (by rw [hnext]; exact ht.kind), hnext,
      hscan]
    exact ⟨hquiet, congrArg (t.content :: ·) hmore⟩

/-- The lexemes of a text, the empty one at the end included. -/
def lexemes (source : String) : List String := (scan source).tokens.map (·.lexeme)

/-- The lexemes are part of the contents. -/
theorem lexemes_of_content {s s' : String}
    (h : (scan s).tokens.map (·.content) = (scan s').tokens.map (·.content)) :
    lexemes s = lexemes s' := by
  have hlexemes : ∀ s, lexemes s = ((scan s).tokens.map (·.content)).map (·.2.1) := by
    intro s
    rw [List.map_map]
    rfl
  rw [hlexemes, hlexemes, h]

/-- Layout and comments do not change tokens. Put together again with any separators between them,
with the empty lexeme at the end or without it, the lexemes of a text without lexical errors are
scanned without any diagnostic to the same kinds, lexemes and decoded literals in the same order. So
joining with single spaces changes nothing when it is done again. -/
theorem scan_rejoin {source : String} (h : (scan source).failed = false) :
    (∀ (sep : Nat → Separator) (words : List String),
      words = lexemes source ∨ words = (lexemes source).dropLast →
        (scan (rejoin sep words)).diagnostics = [] ∧
          (scan (rejoin sep words)).tokens.map (·.content) =
            (scan source).tokens.map (·.content)) ∧
      " ".intercalate (lexemes (" ".intercalate (lexemes source))) =
        " ".intercalate (lexemes source) ∧
      " ".intercalate (lexemes (" ".intercalate (lexemes source).dropLast)).dropLast =
        " ".intercalate (lexemes source).dropLast := by
  obtain ⟨ts, line, htokens, hts⟩ := scan_clean h
  have hwords : lexemes source = ts.map (·.lexeme) ++ [""] := by
    rw [lexemes, htokens, List.map_append]
    rfl
  have hjoined : ∀ (sep : Nat → Separator) (words : List String),
      words = lexemes source ∨ words = (lexemes source).dropLast →
        (scan (rejoin sep words)).diagnostics = [] ∧
          (scan (rejoin sep words)).tokens.map (·.content) =
            (scan source).tokens.map (·.content) := by
    intro sep words hor
    rw [hwords, List.dropLast_concat] at hor
    obtain ⟨last, hlast, rfl⟩ : ∃ last, (last = [] ∨ last = [""]) ∧
        words = ts.map (·.lexeme) ++ last := by
      rcases hor with rfl | rfl
      · exact ⟨[""], .inr rfl, rfl⟩
      · exact ⟨[], .inl rfl, (List.append_nil _).symm⟩
    rw [htokens, List.map_append]
    exact scanFrom_rejoin hts hlast sep 1
  refine ⟨hjoined, ?_, ?_⟩
  · have hsame := lexemes_of_content (hjoined (fun _ => .space) _ (.inl rfl)).2
    rw [rejoin_space] at hsame
    rw [hsame]
  · have hsame := lexemes_of_content (hjoined (fun _ => .space) _ (.inr rfl)).2
    rw [rejoin_space] at hsame
    rw [hsame]

/-- A blank, a line comment that looks like the end of one, and a block comment full of marks. -/
def tricky : Separator :=
  ⟨'\t', rfl, [.lineComment ['*', '/', '"'] (by decide),
    .blockComment ['*', '\n', '/', '*', '\''] (by decide)]⟩

/-- A slash before a point, and quotes around what is no comment. -/
theorem scan_rejoin_slashes :
    (scan "x/.5/*//*/=\"//\"").failed = false ∧
      (scan (rejoin (fun _ => tricky) (lexemes "x/.5/*//*/=\"//\""))).diagnostics = [] ∧
      (scan (rejoin (fun _ => tricky) (lexemes "x/.5/*//*/=\"//\""))).tokens.map (·.content) =
        [(.identifier, "x", .nothing), (.div, "/", .nothing), (.doubleLiteral, ".5", .nothing),
          (.assign, "=", .nothing), (.stringLiteral, "\"//\"", .text "//"), (.eof, "", .nothing)] := by
  have h : (scan "x/.5/*//*/=\"//\"").failed = false := by decide +kernel
  obtain ⟨hquiet, hsame⟩ := (scan_rejoin h).1 (fun _ => tricky) _ (.inl rfl)
  exact ⟨h, hquiet, hsame.trans (by decide +kernel)⟩

end Lexer

end Jminus
