import Jminus.CommandLine.Session
import Jminus.Proofs.Grammar.Braces
import Jminus.Proofs.Outline.Program
import Mathlib

/-!
Which entries of a session are handed on.

Whether an entry is complete is decided by its characters alone: braces are counted, and the last
character has to end a statement. The grammar closes every brace that it opens, and a program ends
with a semicolon or a brace. So a text without errors is waited on only for what stands in its
literals and comments.
-/
namespace Jminus

namespace Text

def braces (cs : List Char) : Int := cs.count '\x7b' - cs.count '\x7d'

def lastMark? (cs : List Char) : Option Char := cs.reverse.find? (!isBlank ·)

section Characters

variable {c : Char} {cs ds : List Char}

@[simp] theorem braces_nil : braces [] = 0 := rfl

@[simp] theorem braces_append : braces (cs ++ ds) = braces cs + braces ds := by
  simp only [braces, List.count_append]
  omega

theorem braces_of_not_mem (hopen : '\x7b' ∉ cs) (hclose : '\x7d' ∉ cs) : braces cs = 0 := by
  simp [braces, List.count_eq_zero.2 hopen, List.count_eq_zero.2 hclose]

/-- Characters of a sort that has no braces. -/
theorem braces_of_all {p : Char → Bool} (hp : p '\x7b' = false ∧ p '\x7d' = false)
    (h : ∀ c ∈ cs, p c = true) : braces cs = 0 := by
  refine braces_of_not_mem (fun hmem => ?_) fun hmem => ?_
  · cases hp.1.symm.trans (h _ hmem)
  · cases hp.2.symm.trans (h _ hmem)

theorem find?_takeWhile_blank (cs : List Char) :
    (cs.takeWhile isBlank).reverse.find? (!isBlank ·) = none := by
  refine List.find?_eq_none.2 fun c hc => ?_
  simpa using List.mem_takeWhile_imp (List.mem_reverse.1 hc)

theorem lastMark?_append : lastMark? (cs ++ ds) = (lastMark? ds).or (lastMark? cs) := by
  rw [lastMark?, List.reverse_append, List.find?_append]
  rfl

theorem lastMark?_dropWhile (cs : List Char) : lastMark? (cs.dropWhile isBlank) = lastMark? cs := by
  conv_rhs => rw [← List.takeWhile_append_dropWhile (p := isBlank) (l := cs), lastMark?_append]
  rw [show lastMark? (cs.takeWhile isBlank) = none from find?_takeWhile_blank cs, Option.or_none]

theorem count_dropWhile (hc : isBlank c = false) (cs : List Char) :
    (cs.dropWhile isBlank).count c = cs.count c := by
  conv_rhs => rw [← List.takeWhile_append_dropWhile (p := isBlank) (l := cs), List.count_append]
  rw [List.count_eq_zero.2 (Lexer.not_mem_takeWhile hc cs), Nat.zero_add]

theorem count_trimList (hc : isBlank c = false) (cs : List Char) :
    (trimList cs).count c = cs.count c := by
  rw [trimList, List.count_reverse, count_dropWhile hc, List.count_reverse, count_dropWhile hc]

/-- A trimmed text ends with the last character that is no blank. -/
theorem getLast?_trimList (cs : List Char) : (trimList cs).getLast? = lastMark? cs := by
  rw [trimList, List.getLast?_reverse, ← List.find?_not_eq_head?_dropWhile, ← lastMark?_dropWhile,
    lastMark?]

theorem braces_trimList (cs : List Char) : braces (trimList cs) = braces cs := by
  simp only [braces, count_trimList (show isBlank '\x7b' = false by decide),
    count_trimList (show isBlank '\x7d' = false by decide)]

end Characters

end Text

/-- The characters that end an entry. -/
def endsEntry (c : Char) : Bool := c = ';' || c = '\x7d'

/-- An entry is complete if no brace is left open and its last character may end it. -/
theorem complete_trim (source : String) : CommandLine.complete (Text.trim source) = true ↔
    Text.braces source.toList ≤ 0 ∧ (Text.lastMark? source.toList).any endsEntry = true := by
  have hends : ∀ last : Option Char, (last = some ';' ∨ last = some '\x7d') ↔
      last.any endsEntry = true := by
    intro last
    cases last <;> simp [endsEntry]
  rw [← Text.braces_trimList, ← Text.getLast?_trimList, ← hends]
  simp only [CommandLine.complete, Text.trim, String.toList_ofList, Bool.and_eq_true,
    decide_eq_true_eq, Bool.or_eq_true, Text.braces]
  refine and_congr_left fun _ => ?_
  omega

namespace Lexer

variable {k : Kind} {text : List Char}

def isQuoted (k : Kind) : Bool := k = .charLiteral || k = .stringLiteral

/-- A token that is no literal in quotes has the braces of its kind. -/
theorem Spelled.braces (h : Spelled k text) (hk : isQuoted k = false) :
    Text.braces text = Grammar.curl k := by
  have hnumber : isNumberPart '\x7b' = false ∧ isNumberPart '\x7d' = false := by decide
  cases h with
  | symbol hmem =>
    have hall : ∀ k ∈ Kind.separators ++ Kind.operators,
        Text.braces k.image.toList = Grammar.curl k := by decide
    exact hall k hmem
  | keyword hmem =>
    have hall : ∀ k ∈ Kind.keywords, Text.braces k.image.toList = Grammar.curl k := by decide
    exact hall k hmem
  | int hne hds => exact Text.braces_of_all hnumber hds.number
  | long hne hds hs =>
    refine Text.braces_of_all hnumber (List.forall_mem_append.2 ⟨hds.number, ?_⟩)
    rcases hs with rfl | rfl <;> simp [isNumberPart]
  | double hne hds hfrac hexp hmark _ =>
    refine Text.braces_of_all hnumber ?_
    simp only [List.append_assoc, List.forall_mem_append]
    exact ⟨hds.number, hfrac.number, hexp.number, hmark.number⟩
  | point hne hds hexp hmark =>
    refine Text.braces_of_all hnumber ?_
    simp only [List.cons_append, List.append_assoc, List.forall_mem_cons, List.forall_mem_append]
    exact ⟨by decide, hds.number, hexp.number, hmark.number⟩
  | identifier hc hcs _ =>
    refine Text.braces_of_all (p := isNamePart) (by decide) (List.forall_mem_cons.2 ⟨?_, hcs⟩)
    simp [isNamePart, hc]
  | rawChar => cases hk
  | escapedChar => cases hk
  | string => cases hk

/-- Only the image of a symbol is spelled as the symbol demands. -/
theorem Spelled.symbol_text (h : Spelled k text) (hk : k ∈ Kind.separators ++ Kind.operators) :
    text = k.image.toList := by
  cases h with
  | symbol => rfl
  | keyword => rfl
  | _ => exact absurd hk (by decide)

def Stretch.remark : Stretch → List Char
  | .token t => if isQuoted t.kind then t.lexeme.toList else []
  | s => s.text

/-- The literals in quotes and the comments among stretches. -/
def remarks (ss : List Stretch) : List Char := ss.flatMap Stretch.remark

/-- The braces of a token are its own, or those in its quotes. -/
theorem Clean.braces {t : Token} (h : Clean t) :
    Text.braces t.lexeme.toList = Grammar.curl t.kind + Text.braces (Stretch.token t).remark := by
  cases hk : isQuoted t.kind with
  | false => simp [Stretch.remark, hk, h.spelled.braces hk]
  | true =>
    have hcurl : Grammar.curl t.kind = 0 := by
      simp only [isQuoted, Bool.or_eq_true, decide_eq_true_eq] at hk
      rcases hk with hk | hk <;> rw [hk] <;> rfl
    simp [Stretch.remark, hk, hcurl]

/-- The braces of a text are those of its tokens and those of its remarks. -/
theorem Covers.braces {rest : List Char} {line : Nat} {ss : List Stretch}
    (h : Covers (fun t _ => Clean t) rest line ss) :
    Text.braces (Lexer.text ss) = Grammar.braces (tokens ss) + Text.braces (remarks ss) := by
  induction ss generalizing line with
  | nil => rfl
  | cons s ss ih =>
    have hrest := ih h.2
    have hremarks : remarks (s :: ss) = s.remark ++ remarks ss := List.flatMap_cons
    rw [text_cons, hremarks, Text.braces_append, Text.braces_append, hrest]
    cases s with
    | token t =>
      have htoken : tokens (.token t :: ss) = t :: tokens ss := rfl
      have ht := h.1.1.braces
      rw [htoken, Grammar.braces_cons, Stretch.text, ht]
      omega
    | _ =>
      simp only [Stretch.remark, tokens, Stretch.token?, List.filterMap_cons]
      omega

/-- The last token and what stands behind it. -/
theorem exists_last_token {ss : List Stretch} {ts : List Token} {t : Token}
    (h : tokens ss = ts ++ [t]) :
    ∃ before behind, ss = before ++ .token t :: behind ∧ tokens before = ts ∧
      tokens behind = [] := by
  obtain ⟨front, back, rfl, hfront, hback⟩ := List.filterMap_eq_append_iff.1 h
  obtain ⟨gap, s, behind, rfl, hgap, hs, hbehind⟩ := List.filterMap_eq_cons_iff.1 hback
  have hgap' : tokens gap = [] := List.filterMap_eq_nil_iff.2 hgap
  obtain rfl : s = .token t := by
    cases s <;> simp_all [Stretch.token?]
  refine ⟨front ++ gap, behind, (List.append_assoc ..).symm, ?_, hbehind⟩
  rw [tokens_append, hgap', List.append_nil]
  exact hfront

end Lexer

namespace Lexer

/-- A semicolon or a brace is itself the last character. -/
theorem Clean.lastMark? {t : Token} (h : Clean t) (ht : t.kind = .semi ∨ t.kind = .rightCurly) :
    (Text.lastMark? t.lexeme.toList).any endsEntry = true := by
  have hsymbol : t.kind ∈ Kind.separators ++ Kind.operators := by
    rcases ht with ht | ht <;> rw [ht] <;> decide
  rw [h.spelled.symbol_text hsymbol]
  rcases ht with ht | ht <;> rw [ht] <;> decide

end Lexer

open CommandLine (complete Session) in
/-- Finished entries that are waited on, and those that are handed on. A text that is scanned and
parsed without error or warning into some statements is complete if and only if its literals in
quotes and its comments open no more braces than they close, and what stands behind its last token
is blank or ends with a semicolon or a closing brace. A session hands on what is complete. -/
theorem complete_program_iff {source : String} (hscan : (Lexer.scan source).diagnostics = [])
    (hread : (Parser.program (Lexer.scan source).tokens).2 = []) (hsome : parsed source ≠ []) :
    ∃ before last behind eof,
      Lexer.text (before ++ .token last :: behind) = source.toList ∧
      (Lexer.scan source).tokens = Lexer.tokens before ++ [last, eof] ∧ eof.kind = .eof ∧
      Lexer.tokens behind = [] ∧
      Lexer.Covers (fun t _ => Lexer.Clean t) [] 1 (before ++ .token last :: behind) ∧
      (complete (Text.trim source) = true ↔
        Text.braces (Lexer.remarks (before ++ behind)) ≤ 0 ∧
          (Text.trimList (Lexer.text behind)).getLast?.all endsEntry = true) ∧
      ∀ (s : Session) (line entry : List UInt8) (fuel : Nat),
        entry = (if s.pending = [] then line else s.pending ++ Text.Lines.newline :: line) →
        Text.Utf8.text entry = source → complete (Text.trim source) = true →
          s.feed line fuel = Session.enter { s with pending := [] } entry fuel := by
  have hquiet : ∀ d ∈ (Lexer.scan source).diagnostics, d.isError = false := by simp [hscan]
  obtain ⟨ss, htext, hcovers, htokens, _, _⟩ := Lexer.scanFrom_covers (Lexer.clean_granted hquiet)
    (.start source.toList) (List.Subset.refl _)
  have htokens' : (Lexer.scan source).tokens = _ := htokens
  have hclean : ∀ t ∈ Lexer.tokens ss, Lexer.Clean t := fun t ht =>
    (hcovers.token ht).elim fun _ h => h
  have hstatements : Grammar.Statements (Lexer.tokens ss) (parsed source) := by
    rw [htokens'] at hread
    rw [parsed, htokens']
    exact Grammar.program_sound rfl (fun t ht => (hclean t ht).kind) (Prod.ext rfl hread)
  obtain ⟨us, last, hlast, hkind⟩ := hstatements.closes.resolve_left fun h => hsome h.2
  obtain ⟨before, behind, rfl, hbefore, hbehind⟩ := Lexer.exists_last_token hlast
  refine ⟨before, last, behind, Lexer.endOfText (Lexer.scan source).last.line, htext.symm, ?_, rfl,
    hbehind, hcovers, ?_, ?_⟩
  · rw [htokens', hlast, hbefore, List.append_assoc]
    rfl
  · have hmark : (Text.lastMark? (Lexer.Stretch.token last).text).any endsEntry = true :=
      (hclean last (by rw [hlast]; simp)).lastMark? hkind
    have hbraces := hcovers.braces
    have hplain : (Lexer.Stretch.token last).remark = [] := by
      rcases hkind with hkind | hkind <;> simp [Lexer.Stretch.remark, hkind, Lexer.isQuoted]
    have hremarks : Lexer.remarks (before ++ .token last :: behind) =
        Lexer.remarks (before ++ behind) := by
      simp [Lexer.remarks, hplain]
    rw [hstatements.balanced, Int.zero_add, hremarks] at hbraces
    rw [complete_trim, show source.toList = _ from htext, hbraces, Text.getLast?_trimList,
      Lexer.text_append, Lexer.text_cons, Text.lastMark?_append, Text.lastMark?_append]
    refine and_congr_right fun _ => ?_
    cases Text.lastMark? (Lexer.text behind) with
    | some c => simp
    | none =>
      cases hc : Text.lastMark? (Lexer.Stretch.token last).text with
      | none =>
        rw [hc] at hmark
        cases hmark
      | some c =>
        rw [hc] at hmark
        simpa using hmark
  · rintro s line entry fuel rfl rfl hcomplete
    simp only [Session.feed, hcomplete, Bool.or_true, if_true]

/-- The braces in a literal and in a comment make up for each other, and the comment ends with a
semicolon. -/
def remarked : String := "println(\"\x7d\"); // \x7b;"

theorem complete_program_iff_remarked :
    (Lexer.scan remarked).diagnostics = [] ∧
      (Parser.program (Lexer.scan remarked).tokens).2 = [] ∧ parsed remarked ≠ [] ∧
      ∃ before last behind, Lexer.text (before ++ .token last :: behind) = remarked.toList ∧
        Text.braces (Lexer.remarks (before ++ behind)) ≤ 0 := by
  have hscan : (Lexer.scan remarked).diagnostics = [] := by decide +kernel
  have hread : (Parser.program (Lexer.scan remarked).tokens).2 = [] := by decide +kernel
  have hsome : parsed remarked ≠ [] := by decide +kernel
  obtain ⟨before, last, behind, _, htext, _, _, _, _, hiff, _⟩ :=
    complete_program_iff hscan hread hsome
  exact ⟨hscan, hread, hsome, before, last, behind, htext, (hiff.1 (by decide +kernel)).1⟩

/-- A brace in a string keeps a finished entry waiting. -/
theorem complete_quoted_brace :
    (Lexer.scan "println(\"\x7b\");").diagnostics = [] ∧
      (Parser.program (Lexer.scan "println(\"\x7b\");").tokens).2 = [] ∧
      parsed "println(\"\x7b\");" ≠ [] ∧
      CommandLine.complete (Text.trim "println(\"\x7b\");") = false := by
  decide +kernel

end Jminus
