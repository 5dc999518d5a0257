import Jminus.Diagnostic
import Jminus.Token

/-!
From characters to tokens, one token at a time.

A lexeme never holds a line break, so everything that is wrong inside it lies on the line where it
starts. After a lexical problem scanning goes on behind it: one pass reports every problem.
-/
namespace Jminus.Lexer

def isBlank (c : Char) : Bool :=
  c = ' ' || c = '\t' || c = '\n' || c = '\x0c' || c = '\r'

def isNameStart (c : Char) : Bool := c.isAlpha || c = '_' || c = '$'

def isNamePart (c : Char) : Bool := isNameStart c || c.isDigit

def isLongSuffix (c : Char) : Bool := c = 'l' || c = 'L'

def isDoubleSuffix (c : Char) : Bool := c = 'd' || c = 'D'

def describe : List Char → String
  | [] => "end of file"
  | '\n' :: _ => "end of line"
  | c :: _ => "'" ++ c.toString ++ "'"

def lineAfter (line : Nat) (c : Char) : Nat := if c = '\n' then line + 1 else line

/-- Reads to the end of a block comment that is already open and counts lines on the way;
`none` if it never closes. -/
def closeComment (line : Nat) : List Char → Option (List Char × Nat)
  | '*' :: '/' :: cs => some (cs, line)
  | c :: cs => closeComment (lineAfter line c) cs
  | [] => none

/-- A comment that is closed takes at least its mark. -/
theorem closeComment_length {line line' : Nat} {cs rest : List Char}
    (h : closeComment line cs = some (rest, line')) : rest.length < cs.length := by
  induction cs generalizing line with
  | nil => simp [closeComment] at h
  | cons c cs ih =>
    rw [closeComment.eq_def] at h
    split at h
    · rename_i heq
      cases heq
      simp only [Option.some.injEq, Prod.mk.injEq] at h
      simp only [← h.1, List.length_cons]
      omega
    · rename_i heq
      cases heq
      have := ih h
      simp only [List.length_cons]
      omega
    · cases h

structure Gap where
  rest : List Char
  line : Nat
  /-- The line of a comment that never closes. It reaches to the end of the text. -/
  unclosed : Option Nat := none
  deriving DecidableEq, Repr

/-- Skips blanks, line comments and block comments. -/
def skipGap (line : Nat) : List Char → Gap
  | '/' :: '/' :: cs => skipGap line (cs.dropWhile (· != '\n'))
  | '/' :: '*' :: cs =>
    match _h : closeComment line cs with
    | some (rest, line') => skipGap line' rest
    | none => { rest := [], line := line + cs.count '\n', unclosed := some line }
  | c :: cs =>
    if isBlank c then skipGap (lineAfter line c) cs
    else { rest := c :: cs, line }
  | [] => { rest := [], line }
termination_by cs => cs.length
decreasing_by
  · have := (List.dropWhile_suffix (· != '\n') (l := cs)).length_le
    simp only [List.length_cons]
    omega
  · have := closeComment_length _h
    simp only [List.length_cons]
    omega
  · simp

theorem skipGap_length (line : Nat) (cs : List Char) :
    (skipGap line cs).rest.length ≤ cs.length := by
  fun_induction skipGap line cs with
  | case1 line cs ih =>
    have := (List.dropWhile_suffix (· != '\n') (l := cs)).length_le
    simp only [List.length_cons]
    omega
  | case2 line cs rest line' h ih =>
    have := closeComment_length h
    simp only [List.length_cons]
    omega
  | case3 => simp
  | case4 line c cs _ _ hb ih =>
    simp only [List.length_cons]
    omega
  | case5 => simp
  | case6 => simp

/-- One lexeme: its kind, its characters, what they stand for, what follows and what is wrong. -/
structure Lexeme where
  kind : Kind
  text : List Char
  rest : List Char
  decoded : Decoded := .nothing
  problems : List Problem := []
  deriving DecidableEq, Repr

def sign : List Char → List Char
  | '+' :: _ => ['+']
  | '-' :: _ => ['-']
  | _ => []

/-- The rest of a numeric literal behind its digits: an exponent and a double suffix. A mark of
an exponent without digits is a problem, named by the text read so far. -/
def scale (whole : Kind) (text : List Char) (rest : List Char) : Lexeme :=
  match rest with
  | e :: cs =>
    if e = 'e' || e = 'E' then
      let mark := e :: sign cs
      let behind := cs.drop (sign cs).length
      let digits := behind.takeWhile Char.isDigit
      let text' := text ++ mark
      let problems :=
        if digits.isEmpty then [Cause.malformedNumber.on (String.ofList text')] else []
      suffix .doubleLiteral (text' ++ digits) (behind.dropWhile Char.isDigit) problems
    else suffix whole text rest []
  | [] => suffix whole text rest []
where
  suffix (kind : Kind) (text rest : List Char) (problems : List Problem) : Lexeme :=
    match rest with
    | d :: cs =>
      if isDoubleSuffix d then
        { kind := .doubleLiteral, text := text ++ [d], rest := cs, problems }
      else { kind, text, rest, problems }
    | [] => { kind, text, rest, problems }

/-- A literal that starts with the digit `c`. A long suffix ends it; otherwise a fraction, an
exponent and a double suffix may follow, each of which makes it a double. -/
def number (c : Char) (cs : List Char) : Lexeme :=
  let whole := c :: cs.takeWhile Char.isDigit
  match cs.dropWhile Char.isDigit with
  | '.' :: rest =>
    scale .doubleLiteral (whole ++ '.' :: rest.takeWhile Char.isDigit)
      (rest.dropWhile Char.isDigit)
  | s :: rest =>
    if isLongSuffix s then { kind := .longLiteral, text := whole ++ [s], rest }
    else scale .intLiteral whole (s :: rest)
  | [] => scale .intLiteral whole []

def fraction (cs : List Char) : Lexeme :=
  scale .doubleLiteral ('.' :: cs.takeWhile Char.isDigit) (cs.dropWhile Char.isDigit)

/-- A name or a reserved word that starts with `c`. -/
def word (c : Char) (cs : List Char) : Lexeme :=
  let text := c :: cs.takeWhile isNamePart
  { kind := (Kind.keyword? (String.ofList text)).getD .identifier
    text
    rest := cs.dropWhile isNamePart }

def escaped? : Char → Option Char
  | 'b' => some '\x08'
  | 't' => some '\t'
  | 'n' => some '\n'
  | 'f' => some '\x0c'
  | 'r' => some '\r'
  | '"' => some '"'
  | '\'' => some '\''
  | '\\' => some '\\'
  | _ => none

def badEscape (cs : List Char) : Problem := Cause.badEscape.on ("\\" ++ describe cs)

/-- What stands behind the opening quote of a character literal, up to where the closing quote is
due: the characters, their value, what follows and what is wrong. -/
def charBody : List Char → List Char × Char × List Char × List Problem
  | [] => ([], '\x00', [], [])
  | '\n' :: cs => ([], '\x00', '\n' :: cs, [])
  | '\\' :: cs =>
    match cs with
    | [] => (['\\'], '\x00', [], [badEscape []])
    | '\n' :: cs => (['\\'], '\x00', '\n' :: cs, [badEscape ('\n' :: cs)])
    | c :: cs =>
      match escaped? c with
      | some value => (['\\', c], value, cs, [])
      | none => (['\\', c], '\x00', cs, [badEscape (c :: cs)])
  | c :: cs => ([c], c, cs, [])

/-- Characters that a broken character literal does not swallow. -/
def endsChar (c : Char) : Bool := c = '\'' || c = ';' || c = '\n'

/-- A character literal behind its opening quote. A missing closing quote is looked for on the
same line, up to the next semicolon. -/
def charLiteral (cs : List Char) : Lexeme :=
  let (body, value, rest, problems) := charBody cs
  let decoded := Decoded.char value
  match rest with
  | '\'' :: rest =>
    { kind := .charLiteral, text := '\'' :: body ++ ['\''], rest, decoded, problems }
  | _ =>
    let problems := problems ++ [Cause.unclosedChar.on ("found " ++ describe rest)]
    let text := '\'' :: body ++ rest.takeWhile (!endsChar ·)
    match rest.dropWhile (!endsChar ·) with
    | '\'' :: rest => { kind := .charLiteral, text := text ++ ['\''], rest, decoded, problems }
    | rest => { kind := .charLiteral, text, rest, decoded, problems }

/-- The body of a string literal and its closing quote: the characters, the decoded text, what
follows and what is wrong. -/
def stringBody : List Char → List Char × List Char × List Char × List Problem
  | [] => ([], [], [], [{ cause := .unclosedStringAtEnd }])
  | '"' :: cs => (['"'], [], cs, [])
  | '\n' :: cs => ([], [], '\n' :: cs, [{ cause := .unclosedString }])
  | ['\\'] => (['\\'], [], [], [badEscape [], { cause := .unclosedStringAtEnd }])
  | '\\' :: '\n' :: cs =>
    (['\\'], [], '\n' :: cs, [badEscape ('\n' :: cs), { cause := .unclosedString }])
  | '\\' :: c :: cs =>
    let (text, decoded, rest, problems) := stringBody cs
    match escaped? c with
    | some value => ('\\' :: c :: text, value :: decoded, rest, problems)
    | none => ('\\' :: c :: text, decoded, rest, badEscape (c :: cs) :: problems)
  | c :: cs =>
    let (text, decoded, rest, problems) := stringBody cs
    (c :: text, c :: decoded, rest, problems)

def stringLiteral (cs : List Char) : Lexeme :=
  let (text, decoded, rest, problems) := stringBody cs
  { kind := .stringLiteral
    text := '"' :: text
    rest
    decoded := .text (String.ofList decoded)
    problems }

/-- The lexeme that starts with `c`, or `none` if no token starts with it. -/
def lexeme (c : Char) (cs : List Char) : Option Lexeme :=
  if c = '\'' then some (charLiteral cs)
  else if c = '"' then some (stringLiteral cs)
  else if c.isDigit then some (number c cs)
  else if isNameStart c then some (word c cs)
  else if c = '.' && (cs.head?.any Char.isDigit) then some (fraction cs)
  else (Kind.symbolAt (c :: cs)).map fun kind =>
    { kind, text := kind.image.toList, rest := (c :: cs).drop kind.image.length }

theorem suffix_split (kind : Kind) (text rest : List Char) (problems : List Problem) :
    ∃ more, (scale.suffix kind text rest problems).text = text ++ more ∧
      more ++ (scale.suffix kind text rest problems).rest = rest := by
  unfold scale.suffix
  split
  · split
    · exact ⟨[_], rfl, rfl⟩
    · exact ⟨[], by simp, rfl⟩
  · exact ⟨[], by simp, rfl⟩

theorem sign_append_drop (cs : List Char) : sign cs ++ cs.drop (sign cs).length = cs := by
  unfold sign
  split <;> simp

/-- A scaled literal keeps the text it was given and takes a front part of what follows. -/
theorem scale_split (whole : Kind) (text rest : List Char) :
    ∃ more, (scale whole text rest).text = text ++ more ∧
      more ++ (scale whole text rest).rest = rest := by
  unfold scale
  split
  · rename_i e cs
    split
    · obtain ⟨more, ht, hr⟩ := suffix_split .doubleLiteral
        (text ++ e :: sign cs ++ (cs.drop (sign cs).length).takeWhile Char.isDigit)
        ((cs.drop (sign cs).length).dropWhile Char.isDigit)
        (if ((cs.drop (sign cs).length).takeWhile Char.isDigit).isEmpty then
          [Cause.malformedNumber.on (String.ofList (text ++ e :: sign cs))] else [])
      refine ⟨e :: sign cs ++ (cs.drop (sign cs).length).takeWhile Char.isDigit ++ more,
        ?_, ?_⟩
      · exact ht.trans (by simp)
      · refine Eq.trans ?_ (congrArg (e :: ·) (sign_append_drop cs))
        rw [List.append_assoc, hr, List.append_assoc, List.takeWhile_append_dropWhile]
        rfl
    · exact suffix_split ..
  · exact suffix_split ..

theorem number_split (c : Char) (cs : List Char) :
    ∃ more, (number c cs).text = c :: more ∧ more ++ (number c cs).rest = cs := by
  have hsplit := List.takeWhile_append_dropWhile (p := Char.isDigit) (l := cs)
  unfold number
  split
  · rename_i rest heq
    obtain ⟨more, ht, hr⟩ := scale_split .doubleLiteral
      (c :: cs.takeWhile Char.isDigit ++ '.' :: rest.takeWhile Char.isDigit)
      (rest.dropWhile Char.isDigit)
    refine ⟨cs.takeWhile Char.isDigit ++ '.' :: rest.takeWhile Char.isDigit ++ more, ?_, ?_⟩
    · exact ht.trans (by simp)
    · rw [heq] at hsplit
      rw [List.append_assoc, hr, List.append_assoc, List.cons_append,
        List.takeWhile_append_dropWhile, hsplit]
  · rename_i s rest _ heq
    rw [heq] at hsplit
    split
    · exact ⟨cs.takeWhile Char.isDigit ++ [s], by simp, by simpa using hsplit⟩
    · obtain ⟨more, ht, hr⟩ := scale_split .intLiteral (c :: cs.takeWhile Char.isDigit) (s :: rest)
      exact ⟨cs.takeWhile Char.isDigit ++ more, by simp [ht], by
        rw [List.append_assoc, hr, hsplit]⟩
  · rename_i heq
    rw [heq] at hsplit
    obtain ⟨more, ht, hr⟩ := scale_split .intLiteral (c :: cs.takeWhile Char.isDigit) []
    exact ⟨cs.takeWhile Char.isDigit ++ more, by simp [ht], by
      rw [List.append_assoc, hr, hsplit]⟩

theorem fraction_split (cs : List Char) :
    ∃ more, (fraction cs).text = '.' :: more ∧ more ++ (fraction cs).rest = cs := by
  obtain ⟨more, ht, hr⟩ := scale_split .doubleLiteral ('.' :: cs.takeWhile Char.isDigit)
    (cs.dropWhile Char.isDigit)
  exact ⟨cs.takeWhile Char.isDigit ++ more, by simp [fraction, ht], by
    simp only [fraction, List.append_assoc, hr, List.takeWhile_append_dropWhile]⟩

/-- No character is lost behind a quote. -/
theorem charBody_append (cs : List Char) : (charBody cs).1 ++ (charBody cs).2.2.1 = cs := by
  unfold charBody
  split
  · rfl
  · rfl
  · split
    · rfl
    · rfl
    · split <;> rfl
  · rfl

theorem charLiteral_split (cs : List Char) :
    ∃ more, (charLiteral cs).text = '\'' :: more ∧ more ++ (charLiteral cs).rest = cs := by
  have hbody := charBody_append cs
  unfold charLiteral
  generalize charBody cs = split at hbody ⊢
  obtain ⟨body, value, rest, problems⟩ := split
  simp only at hbody ⊢
  subst hbody
  split
  · exact ⟨body ++ ['\''], by simp, by simp⟩
  · have hsplit := List.takeWhile_append_dropWhile (p := (!endsChar ·)) (l := rest)
    split
    · rename_i heq
      rw [heq] at hsplit
      exact ⟨body ++ rest.takeWhile (!endsChar ·) ++ ['\''], by simp, by simp [hsplit]⟩
    · exact ⟨body ++ rest.takeWhile (!endsChar ·), by simp, by simp [hsplit]⟩

/-- Nor is any in a string. -/
theorem stringBody_append (cs : List Char) :
    (stringBody cs).1 ++ (stringBody cs).2.2.1 = cs := by
  fun_induction stringBody cs <;> simp_all

theorem symbolAt_image {cs : List Char} {k : Kind} (h : Kind.symbolAt cs = some k) :
    k.image.toList ++ cs.drop k.image.length = cs := by
  have hp := List.find?_some h
  obtain ⟨rest, hr⟩ := List.isPrefixOf_iff_prefix.1 hp
  rw [← hr, ← String.length_toList, List.drop_left]

theorem symbols_image_ne_nil : ∀ k ∈ Kind.symbols, k.image.toList ≠ [] := by decide

/-- A lexeme starts with the character that announced it, and its text and the rest make up what
was read. -/
theorem lexeme_split {c : Char} {cs : List Char} {l : Lexeme} (h : lexeme c cs = some l) :
    ∃ more, l.text = c :: more ∧ more ++ l.rest = cs := by
  unfold lexeme at h
  split at h
  · rename_i hc
    cases h
    subst hc
    exact charLiteral_split cs
  · split at h
    · rename_i hc
      cases h
      subst hc
      exact ⟨_, rfl, stringBody_append cs⟩
    · split at h
      · cases h
        exact number_split c cs
      · split at h
        · cases h
          exact ⟨cs.takeWhile isNamePart, rfl, List.takeWhile_append_dropWhile⟩
        · split at h
          · rename_i hc
            cases h
            simp only [Bool.and_eq_true, decide_eq_true_eq] at hc
            rw [hc.1]
            exact fraction_split cs
          · obtain ⟨k, hk, rfl⟩ := Option.map_eq_some_iff.1 h
            have happ := symbolAt_image hk
            have hne := symbols_image_ne_nil k (List.mem_of_find?_eq_some hk)
            obtain ⟨d, more, himg⟩ := List.exists_cons_of_ne_nil hne
            rw [himg] at happ
            simp only [List.cons_append, List.cons.injEq] at happ
            exact ⟨more, by simp [himg, happ.1], happ.2⟩

/-- A lexeme takes its first character at least. -/
theorem lexeme_rest_length {c : Char} {cs : List Char} {l : Lexeme}
    (h : lexeme c cs = some l) : l.rest.length ≤ cs.length := by
  obtain ⟨more, _, hr⟩ := lexeme_split h
  simp only [← hr, List.length_append]
  omega

/-- A place in the text: the characters still to be read and the line they start on. -/
structure Cursor where
  rest : List Char
  line : Nat
  deriving DecidableEq, Repr

def Cursor.start (source : List Char) : Cursor := { rest := source, line := 1 }

structure Scanned where
  token : Token
  diagnostics : List Diagnostic
  next : Cursor
  /-- Set with every error that is reported; a warning does not set it. -/
  failed : Bool
  deriving DecidableEq, Repr

def report (line : Nat) (p : Problem) : Diagnostic :=
  { phase := .lexical, severity := .error, problem := p, line }

def Gap.warnings (gap : Gap) : List Diagnostic :=
  gap.unclosed.toList.map fun (line : Nat) =>
    { phase := .lexical, severity := .warning, problem := { cause := .unclosedComment }, line }

/-- The next token. Characters that start no token are reported and passed over; at the end of
the text the token is `eof`, however often it is asked for. -/
def next (cur : Cursor) : Scanned :=
  let gap := skipGap cur.line cur.rest
  match _h : gap.rest with
  | [] =>
    { token := { kind := .eof, lexeme := "", line := gap.line }
      diagnostics := gap.warnings
      next := { rest := [], line := gap.line }
      failed := false }
  | c :: cs =>
    match lexeme c cs with
    | some l =>
      { token :=
          { kind := l.kind, lexeme := String.ofList l.text, line := gap.line, decoded := l.decoded }
        diagnostics := gap.warnings ++ l.problems.map (report gap.line)
        next := { rest := l.rest, line := gap.line }
        failed := !l.problems.isEmpty }
    | none =>
      let found := next { rest := cs, line := gap.line }
      { found with
        diagnostics := gap.warnings ++
          report gap.line (Cause.illegalChar.on ("'" ++ c.toString ++ "'")) ::
            found.diagnostics
        failed := true }
termination_by cur.rest.length
decreasing_by
  have hlen := skipGap_length cur.line cur.rest
  have hcons := congrArg List.length _h
  simp only [gap, List.length_cons] at hcons
  omega

/-- Every token but the last takes a character. -/
theorem next_rest_length (cur : Cursor) (h : (next cur).token.kind ≠ .eof) :
    (next cur).next.rest.length < cur.rest.length := by
  fun_induction next cur with
  | case1 => simp at h
  | case2 cur gap c cs hrest l hl =>
    have hgap := skipGap_length cur.line cur.rest
    have hcons := congrArg List.length hrest
    have hlex := lexeme_rest_length hl
    simp only [gap, List.length_cons] at hcons
    simp only
    omega
  | case3 cur gap c cs hrest hl found ih =>
    have hgap := skipGap_length cur.line cur.rest
    have hcons := congrArg List.length hrest
    have := ih h
    simp only [gap, List.length_cons] at hcons
    simp only [found] at this ⊢
    omega

/-- The tokens of a text up to and with `eof`, what is wrong with them, and the place behind. -/
structure Scan where
  tokens : List Token
  diagnostics : List Diagnostic
  last : Cursor
  /-- The flag of the tokens, which stays once it is set. -/
  failed : Bool
  deriving DecidableEq, Repr

def scanFrom (cur : Cursor) : Scan :=
  let found := next cur
  if _h : found.token.kind = .eof then
    { tokens := [found.token]
      diagnostics := found.diagnostics
      last := found.next
      failed := found.failed }
  else
    let more := scanFrom found.next
    { tokens := found.token :: more.tokens
      diagnostics := found.diagnostics ++ more.diagnostics
      last := more.last
      failed := found.failed || more.failed }
termination_by cur.rest.length
decreasing_by exact next_rest_length cur _h

def scan (source : String) : Scan := scanFrom (.start source.toList)

/-- Asks `n` more times for a token. -/
def more : Nat → Cursor → List Token
  | 0, _ => []
  | n + 1, cur => (next cur).token :: more n (next cur).next

end Jminus.Lexer
