import Jminus.Proofs.Printing
import Mathlib

/-!
Strings from text to text.

Between double quotes a character stands as it is or as an escape, and only the double quote, the
backslash and the line break cannot stand as they are. Whatever is chosen for each character, the
scanner takes the literal whole and nothing behind it, and decodes it to the characters; and a
program that prints the literal prints the characters.
-/
namespace Jminus

/-- The characters that can be written behind a backslash. -/
inductive Escape where
  | backspace | tab | newline | formFeed | carriageReturn | doubleQuote | singleQuote | backslash
  deriving DecidableEq, Repr

namespace Escape

def letter : Escape → Char
  | .backspace => 'b'
  | .tab => 't'
  | .newline => 'n'
  | .formFeed => 'f'
  | .carriageReturn => 'r'
  | .doubleQuote => '"'
  | .singleQuote => '\''
  | .backslash => '\\'

def char : Escape → Char
  | .backspace => '\x08'
  | .tab => '\t'
  | .newline => '\n'
  | .formFeed => '\x0c'
  | .carriageReturn => '\r'
  | .doubleQuote => '"'
  | .singleQuote => '\''
  | .backslash => '\\'

/-- An escape is decoded to what it stands for. -/
theorem escaped?_letter (e : Escape) : Lexer.escaped? e.letter = some e.char := by
  cases e <;> rfl

/-- The scanner knows no other escapes. -/
theorem exists_letter {c value : Char} (h : Lexer.escaped? c = some value) :
    ∃ e : Escape, e.letter = c ∧ e.char = value := by
  unfold Lexer.escaped? at h
  split at h
  · exact ⟨.backspace, rfl, Option.some.inj h⟩
  · exact ⟨.tab, rfl, Option.some.inj h⟩
  · exact ⟨.newline, rfl, Option.some.inj h⟩
  · exact ⟨.formFeed, rfl, Option.some.inj h⟩
  · exact ⟨.carriageReturn, rfl, Option.some.inj h⟩
  · exact ⟨.doubleQuote, rfl, Option.some.inj h⟩
  · exact ⟨.singleQuote, rfl, Option.some.inj h⟩
  · exact ⟨.backslash, rfl, Option.some.inj h⟩
  · cases h

theorem letter_ne_newline (e : Escape) : e.letter ≠ '\n' := by
  cases e <;> decide

end Escape

inductive Written where
  | raw (c : Char) (hquote : c ≠ '"') (hback : c ≠ '\\') (hline : c ≠ '\n')
  | escape (e : Escape)

namespace Written

def char : Written → Char
  | .raw c .. => c
  | .escape e => e.char

def text : Written → List Char
  | .raw c .. => [c]
  | .escape e => ['\\', e.letter]

/-- Every character can be written. -/
theorem exists_char (c : Char) : ∃ w : Written, w.char = c := by
  by_cases hquote : c = '"'
  · exact ⟨.escape .doubleQuote, hquote.symm⟩
  by_cases hback : c = '\\'
  · exact ⟨.escape .backslash, hback.symm⟩
  by_cases hline : c = '\n'
  · exact ⟨.escape .newline, hline.symm⟩
  exact ⟨.raw c hquote hback hline, rfl⟩

end Written

/-- A string with the way in which each of its characters is written. -/
structure QuotedString where
  chars : List Written

namespace QuotedString

def body (q : QuotedString) : List Char := q.chars.flatMap Written.text

def text (q : QuotedString) : String := String.ofList ('"' :: q.body ++ ['"'])

def value (q : QuotedString) : String := String.ofList (q.chars.map Written.char)

/-- Every string can be written. -/
theorem exists_value (s : String) : ∃ q : QuotedString, q.value = s := by
  have hchars : ∀ cs : List Char, ∃ ws : List Written, ws.map Written.char = cs := by
    intro cs
    induction cs with
    | nil => exact ⟨[], rfl⟩
    | cons c cs ih =>
      obtain ⟨w, rfl⟩ := Written.exists_char c
      obtain ⟨ws, rfl⟩ := ih
      exact ⟨w :: ws, rfl⟩
  obtain ⟨ws, hws⟩ := hchars s.toList
  exact ⟨⟨ws⟩, by rw [value, hws, String.ofList_toList]⟩

end QuotedString

namespace Lexer

/-- A body is read up to its closing quote, whatever is behind that. -/
theorem stringBody_written (ws : List Written) (rest : List Char) :
    stringBody (ws.flatMap Written.text ++ '"' :: rest) =
      (ws.flatMap Written.text ++ ['"'], ws.map Written.char, rest, []) := by
  induction ws with
  | nil => rfl
  | cons w ws ih =>
    cases w with
    | raw c hquote hback hline =>
      simp only [List.flatMap_cons, Written.text, List.cons_append, List.nil_append]
      rw [stringBody]
      · simp only [ih, List.map_cons, Written.char]
      · exact fun h => hquote h
      · exact fun h => hline h
      · exact fun h _ => hback h
      · exact fun _ h _ => hback h
      · exact fun _ _ h _ => hback h
    | escape e =>
      simp only [List.flatMap_cons, Written.text, List.cons_append, List.nil_append]
      rw [stringBody]
      · simp only [ih, e.escaped?_letter, List.map_cons, Written.char]
      · exact fun h => e.letter_ne_newline h

/-- A string in quotes is one lexeme, with its value. -/
theorem lexeme_quoted (q : QuotedString) (rest : List Char) :
    lexeme '"' (q.body ++ '"' :: rest) =
      some ⟨.stringLiteral, '"' :: q.body ++ ['"'], rest, .text q.value, []⟩ := by
  have hbody : stringBody (q.body ++ '"' :: rest) = _ := stringBody_written q.chars rest
  have hlexeme : lexeme '"' (q.body ++ '"' :: rest) =
      some (stringLiteral (q.body ++ '"' :: rest)) := rfl
  rw [hlexeme, stringLiteral, hbody]
  rfl

end Lexer

namespace QuotedString

open Lexer

theorem text_append (q : QuotedString) (rest : List Char) :
    q.text.toList ++ rest = '"' :: (q.body ++ '"' :: rest) := by
  simp [text]

def token (q : QuotedString) (line : Nat) : Token :=
  { kind := .stringLiteral, lexeme := q.text, line, decoded := .text q.value }

theorem next_quoted (q : QuotedString) (rest : List Char) (line : Nat) :
    next ⟨q.text.toList ++ rest, line⟩ = ⟨q.token line, [], ⟨rest, line⟩, false⟩ := by
  rw [q.text_append]
  exact next_token (skipGap_stays rfl (by decide)) (lexeme_quoted q rest) rfl

def literal (q : QuotedString) : Literal := { form := .string q.value, lexeme := q.text, line := 1 }

/-- The string is what the program prints. -/
theorem argument (q : QuotedString) : Printing.Argument q.text [q.token 1] q.literal := by
  have hnext := q.next_quoted [')', ';'] 1
  have hkind : (next ⟨q.text.toList ++ [')', ';'], 1⟩).token.kind ≠ .eof := by
    rw [hnext]
    exact Kind.noConfusion
  have hscan := scanFrom_token hkind
  rw [hnext] at hscan
  have hprimary : Grammar.Primary [q.token 1] (.literal q.literal) := .literal .string
  refine ⟨?_, ?_, .operand (.primary hprimary)⟩
  · rw [hscan]
    rfl
  · rw [hscan]
    exact scan_close.2

theorem prints (q : QuotedString) :
    Printing.Prints q.literal (.ref .string) (.string q.value) q.value :=
  ⟨rfl, by decide, rfl⟩

/-- Strings go from text to text. Every string can be written as a literal; and however its
characters are written, the scanner placed before the literal returns it as one token with its text
and its characters, reports nothing and stops behind the closing quote, whatever follows there, and
the program that prints the literal prints the characters and a line break. -/
theorem string_round_trip :
    (∀ s : String, ∃ q : QuotedString, q.value = s) ∧
    ∀ (q : QuotedString) (file : String),
      (∀ (rest : List Char) (line : Nat),
        next ⟨q.text.toList ++ rest, line⟩ =
          { token := ⟨.stringLiteral, q.text, line, .text q.value⟩
            diagnostics := []
            next := ⟨rest, line⟩
            failed := false }) ∧
      ∃ fuel r, (compile file ("println(" ++ q.text ++ ");")).run 0 fuel = some r ∧
        r.failure? = none ∧ r.output = q.value ++ "\n" :=
  ⟨exists_value, fun q file => ⟨q.next_quoted, q.argument.run_prints file q.prints⟩⟩

end QuotedString

end Jminus
