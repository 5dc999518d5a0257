import Jminus.Proofs.Scanning
import Mathlib

/-!
How tokens are spelled, and that scanning takes the longest spelling at each place.

`Spelled` says which texts belong to a kind, without a word about how they are read. The lexeme found
at a place is spelled as its kind demands unless something was wrong with it, and no text that
starts there and is spelled as any kind demands is longer.
-/
namespace Jminus.Lexer

def Digits (ds : List Char) : Prop := ∀ d ∈ ds, d.isDigit = true

inductive Fraction : List Char → Prop
  | none : Fraction []
  | some {ds : List Char} (hds : Digits ds) : Fraction ('.' :: ds)

/-- A mark, perhaps a sign, and digits, or nothing. -/
inductive Exponent : List Char → Prop
  | none : Exponent []
  | some {e : Char} {sg ds : List Char} (he : e = 'e' ∨ e = 'E')
      (hsg : sg = [] ∨ sg = ['+'] ∨ sg = ['-']) (hne : ds ≠ []) (hds : Digits ds) :
      Exponent (e :: sg ++ ds)

inductive DoubleMark : List Char → Prop
  | none : DoubleMark []
  | some {d : Char} (hd : d = 'd' ∨ d = 'D') : DoubleMark [d]

def escapes : List Char := ['b', 't', 'n', 'f', 'r', '"', '\'', '\\']

inductive StringText : List Char → Prop
  | nil : StringText []
  | raw {c : Char} {cs : List Char} (hquote : c ≠ '"') (hback : c ≠ '\\') (hline : c ≠ '\n')
      (hcs : StringText cs) : StringText (c :: cs)
  | escape {c : Char} {cs : List Char} (hc : c ∈ escapes) (hcs : StringText cs) :
      StringText ('\\' :: c :: cs)

/-- A text is spelled as a kind demands. -/
inductive Spelled : Kind → List Char → Prop
  | symbol {k : Kind} (hk : k ∈ Kind.separators ++ Kind.operators) : Spelled k k.image.toList
  | int {ds : List Char} (hne : ds ≠ []) (hds : Digits ds) : Spelled .intLiteral ds
  | long {ds : List Char} {s : Char} (hne : ds ≠ []) (hds : Digits ds) (hs : s = 'l' ∨ s = 'L') :
      Spelled .longLiteral (ds ++ [s])
  | double {ds frac exp mark : List Char} (hne : ds ≠ []) (hds : Digits ds) (hfrac : Fraction frac)
      (hexp : Exponent exp) (hmark : DoubleMark mark) (hsome : frac ++ exp ++ mark ≠ []) :
      Spelled .doubleLiteral (ds ++ frac ++ exp ++ mark)
  | point {ds exp mark : List Char} (hne : ds ≠ []) (hds : Digits ds) (hexp : Exponent exp)
      (hmark : DoubleMark mark) : Spelled .doubleLiteral ('.' :: ds ++ exp ++ mark)
  | identifier {c : Char} {cs : List Char} (hc : isNameStart c = true)
      (hcs : ∀ d ∈ cs, isNamePart d = true)
      (hfree : ∀ k ∈ Kind.keywords, k.image.toList ≠ c :: cs) : Spelled .identifier (c :: cs)
  | keyword {k : Kind} (hk : k ∈ Kind.keywords) : Spelled k k.image.toList
  | rawChar {c : Char} (hback : c ≠ '\\') (hline : c ≠ '\n') : Spelled .charLiteral ['\'', c, '\'']
  | escapedChar {c : Char} (hc : c ∈ escapes) : Spelled .charLiteral ['\'', '\\', c, '\'']
  | string {cs : List Char} (hcs : StringText cs) : Spelled .stringLiteral ('"' :: cs ++ ['"'])

theorem digits_takeWhile (cs : List Char) : Digits (cs.takeWhile Char.isDigit) :=
  fun _ hd => List.mem_takeWhile_imp hd

/-- A mark that is read makes a double of the number. -/
theorem suffix_spelled (kind : Kind) (text rest : List Char) (ps : List Problem) :
    ∃ mark, DoubleMark mark ∧ (scale.suffix kind text rest ps).text = text ++ mark ∧
      (scale.suffix kind text rest ps).kind = (if mark = [] then kind else .doubleLiteral) ∧
      (scale.suffix kind text rest ps).problems = ps := by
  unfold scale.suffix
  split
  · rename_i d cs
    split
    · rename_i hd
      exact ⟨[d], .some (by simpa [isDoubleSuffix] using hd), rfl, rfl, rfl⟩
    · exact ⟨[], .none, by simp, rfl, rfl⟩
  · exact ⟨[], .none, by simp, rfl, rfl⟩

theorem sign_cases (cs : List Char) : sign cs = [] ∨ sign cs = ['+'] ∨ sign cs = ['-'] := by
  unfold sign
  split <;> simp

/-- Behind its digits a literal without problems has an exponent and a mark, and any of the two
makes it a double. -/
theorem scale_spelled {whole : Kind} {text rest : List Char}
    (h : (scale whole text rest).problems = []) :
    ∃ exp mark, Exponent exp ∧ DoubleMark mark ∧
      (scale whole text rest).text = text ++ exp ++ mark ∧
      (scale whole text rest).kind = (if exp ++ mark = [] then whole else .doubleLiteral) := by
  unfold scale at h ⊢
  split
  · rename_i e cs
    by_cases he : (decide (e = 'e') || decide (e = 'E')) = true
    · simp only [he, if_true] at h ⊢
      generalize hps : (if ((cs.drop (sign cs).length).takeWhile Char.isDigit).isEmpty = true then
        [Cause.malformedNumber.on (String.ofList (text ++ e :: sign cs))] else []) = ps at h ⊢
      obtain ⟨mark, hmark, htext, hkind, hproblems⟩ := suffix_spelled .doubleLiteral
        (text ++ e :: sign cs ++ (cs.drop (sign cs).length).takeWhile Char.isDigit)
        ((cs.drop (sign cs).length).dropWhile Char.isDigit) ps
      rw [hproblems] at h
      have hne : (cs.drop (sign cs).length).takeWhile Char.isDigit ≠ [] := by
        intro hnil
        rw [hnil, h] at hps
        simp at hps
      refine ⟨e :: sign cs ++ (cs.drop (sign cs).length).takeWhile Char.isDigit, mark,
        .some (by simpa using he) (sign_cases cs) hne (digits_takeWhile _), hmark, ?_, ?_⟩
      · rw [htext]
        simp
      · rw [hkind]
        simp
    · simp only [he, Bool.false_eq_true, if_false]
      obtain ⟨mark, hmark, htext, hkind, _⟩ := suffix_spelled whole text (e :: cs) []
      exact ⟨[], mark, .none, hmark, by simpa using htext, hkind⟩
  · obtain ⟨mark, hmark, htext, hkind, _⟩ := suffix_spelled whole text [] []
    exact ⟨[], mark, .none, hmark, by simpa using htext, hkind⟩

variable {c : Char} {cs ds mark exp : List Char} {l : Lexeme} {p : Char → Bool} {k : Kind}

/-- Digits are an int, or a double with what is behind them. -/
theorem whole_spelled {rest : List Char} (hds : Digits (c :: ds))
    (h : (scale .intLiteral (c :: ds) rest).problems = []) :
    Spelled (scale .intLiteral (c :: ds) rest).kind (scale .intLiteral (c :: ds) rest).text := by
  obtain ⟨exp, mark, hexp, hmark, htext, hkind⟩ := scale_spelled h
  rw [htext, hkind]
  by_cases hsome : exp ++ mark = []
  · obtain ⟨rfl, rfl⟩ := List.append_eq_nil_iff.1 hsome
    simpa using Spelled.int (List.cons_ne_nil _ _) hds
  · simpa [hsome] using Spelled.double (List.cons_ne_nil _ _) hds .none hexp hmark hsome

/-- A number that nothing is wrong with is spelled as its kind demands. -/
theorem number_spelled (hc : c.isDigit = true) (h : (number c cs).problems = []) :
    Spelled (number c cs).kind (number c cs).text := by
  have hds : Digits (c :: cs.takeWhile Char.isDigit) := by
    rintro d (_ | ⟨_, hd⟩)
    · exact hc
    · exact digits_takeWhile cs d hd
  unfold number at h ⊢
  split at h
  · rename_i rest heq
    obtain ⟨exp, mark, hexp, hmark, htext, hkind⟩ := scale_spelled h
    dsimp only
    rw [htext, hkind]
    simpa using Spelled.double (List.cons_ne_nil _ _) hds (.some (digits_takeWhile rest)) hexp hmark
      (by simp)
  · rename_i s rest hpoint heq
    dsimp only
    split at h
    · rename_i hs
      rw [if_pos hs]
      exact .long (List.cons_ne_nil _ _) hds (by simpa [isLongSuffix] using hs)
    · rename_i hs
      rw [if_neg hs]
      exact whole_spelled hds h
  · exact whole_spelled hds h

theorem fraction_spelled (hc : cs.head?.any Char.isDigit = true) (h : (fraction cs).problems = []) :
    Spelled (fraction cs).kind (fraction cs).text := by
  unfold fraction at h ⊢
  obtain ⟨exp, mark, hexp, hmark, htext, hkind⟩ := scale_spelled h
  rw [htext, hkind, ite_self]
  refine .point ?_ (digits_takeWhile cs) hexp hmark
  cases cs with
  | nil => simp at hc
  | cons d ds =>
    have hd : d.isDigit = true := by simpa using hc
    simp [hd]

theorem word_spelled (hc : isNameStart c = true) (cs : List Char) :
    Spelled (word c cs).kind (word c cs).text := by
  have hword : (word c cs).kind =
      (Kind.keyword? (String.ofList (c :: cs.takeWhile isNamePart))).getD .identifier := rfl
  have htext : (word c cs).text = c :: cs.takeWhile isNamePart := rfl
  rw [hword, htext]
  cases hkey : Kind.keyword? (String.ofList (c :: cs.takeWhile isNamePart)) with
  | none =>
    refine .identifier hc (fun d hd => List.mem_takeWhile_imp hd) fun k hk himage => ?_
    have hno := List.find?_eq_none.1 hkey k hk
    simp [← himage] at hno
  | some k =>
    have himage := List.find?_some hkey
    have hsame : k.image = String.ofList (c :: cs.takeWhile isNamePart) := by simpa using himage
    have hspelled := Spelled.keyword (List.mem_of_find?_eq_some hkey)
    rw [hsame] at hspelled
    simpa using hspelled

/-- The escapes that are decoded are those that may be spelled. -/
theorem escaped?_isSome : (escaped? c).isSome = true ↔ c ∈ escapes := by
  unfold escaped?
  constructor
  · intro h
    split at h
    all_goals first | decide | cases h
  · intro h
    simp only [escapes, List.mem_cons, List.not_mem_nil, or_false] at h
    obtain rfl | rfl | rfl | rfl | rfl | rfl | rfl | rfl := h <;> rfl

theorem charLiteral_spelled (h : (charLiteral cs).problems = []) :
    Spelled .charLiteral (charLiteral cs).text := by
  have hbody : (charBody cs).2.2.2 = [] → (∃ rest, (charBody cs).2.2.1 = '\'' :: rest) →
      Spelled .charLiteral ('\'' :: (charBody cs).1 ++ ['\'']) := by
    unfold charBody
    split
    · simp
    · simp
    · split
      · simp [badEscape]
      · simp [badEscape]
      · rename_i c cs _
        split
        · rename_i value hvalue
          exact fun _ _ => .escapedChar (escaped?_isSome.1 (by simp [hvalue]))
        · simp [badEscape]
    · rename_i c cs hline hback
      exact fun _ _ => .rawChar (fun e => hback e) (fun e => hline e)
  unfold charLiteral at h ⊢
  generalize charBody cs = body at h hbody ⊢
  obtain ⟨body, value, rest, problems⟩ := body
  dsimp only at h hbody ⊢
  split at h
  · exact hbody h ⟨_, rfl⟩
  · split at h <;> simp at h

/-- What is read without complaint is the text of a string and its quote. -/
theorem stringBody_spelled (h : (stringBody cs).2.2.2 = []) :
    ∃ body, StringText body ∧ (stringBody cs).1 = body ++ ['"'] := by
  fun_induction stringBody cs with
  | case1 | case3 | case4 | case5 => simp at h
  | case2 cs => exact ⟨[], .nil, rfl⟩
  | case6 c cs hne text decoded rest problems heq value hvalue ih =>
    rw [heq] at ih
    obtain ⟨body, hbody, rfl⟩ := ih h
    exact ⟨_, .escape (escaped?_isSome.1 (by simp [hvalue])) hbody, rfl⟩
  | case7 => simp at h
  | case8 c cs hquote hline hlast hbreak hback text decoded rest problems heq ih =>
    rw [heq] at ih
    obtain ⟨body, hbody, rfl⟩ := ih h
    refine ⟨_, .raw hquote ?_ hline hbody, rfl⟩
    rintro rfl
    cases cs with
    | nil => exact hlast rfl rfl
    | cons d ds => exact hback d ds rfl rfl

theorem symbols_subset : ∀ k ∈ Kind.symbols, k ∈ Kind.separators ++ Kind.operators := by decide

/-- A lexeme without problems is spelled as its kind demands. -/
theorem lexeme_spelled (h : lexeme c cs = some l) (hquiet : l.problems = []) :
    Spelled l.kind l.text := by
  obtain ⟨rfl, rfl⟩ | ⟨rfl, rfl⟩ | ⟨hc, rfl⟩ | ⟨hc, rfl⟩ | ⟨rfl, hc, rfl⟩ | ⟨k, hk, rfl⟩ :=
    lexeme_cases h
  · have hspelled := charLiteral_spelled hquiet
    have hkind : (charLiteral cs).kind = .charLiteral := by
      unfold charLiteral
      dsimp only
      split
      · rfl
      · split <;> rfl
    rwa [hkind]
  · obtain ⟨body, hbody, htext⟩ := stringBody_spelled hquiet
    have hwhole : (stringLiteral cs).text = '"' :: body ++ ['"'] := congrArg ('"' :: ·) htext
    rw [hwhole]
    exact .string hbody
  · exact number_spelled hc hquiet
  · exact word_spelled hc cs
  · exact fraction_spelled hc hquiet
  · exact .symbol (symbols_subset k (List.mem_of_find?_eq_some hk))

theorem takeWhile_of_all (hds : ∀ d ∈ ds, p d = true) (rest : List Char) :
    (ds ++ rest).takeWhile p = ds ++ rest.takeWhile p :=
  List.takeWhile_append_of_pos hds

theorem dropWhile_of_all (hds : ∀ d ∈ ds, p d = true) (rest : List Char) :
    (ds ++ rest).dropWhile p = rest.dropWhile p :=
  List.dropWhile_append_of_pos hds

theorem suffix_longest (hmark : DoubleMark mark) (kind : Kind) (text rest : List Char)
    (ps : List Problem) :
    text.length + mark.length ≤
      (scale.suffix kind text ((mark ++ rest).dropWhile Char.isDigit) ps).text.length := by
  cases hmark with
  | none =>
    obtain ⟨more, hmore, _⟩ :=
      suffix_split kind text (([] ++ rest).dropWhile Char.isDigit) ps
    rw [hmore]
    simp
  | some hd =>
    rcases hd with rfl | rfl <;> simp [scale.suffix, isDoubleSuffix, Char.isDigit]

/-- A sign before digits is read with them. -/
theorem sign_append {sg : List Char} (hsg : sg = [] ∨ sg = ['+'] ∨ sg = ['-']) (hne : ds ≠ [])
    (hds : Digits ds) (rest : List Char) : sign (sg ++ (ds ++ rest)) = sg := by
  obtain rfl | rfl | rfl := hsg
  · cases ds with
    | nil => exact absurd rfl hne
    | cons d ds =>
      have hd := hds d (by simp)
      unfold sign
      split
      · rename_i heq
        cases heq
        exact absurd hd (by decide)
      · rename_i heq
        cases heq
        exact absurd hd (by decide)
      · rfl
  · rfl
  · rfl

/-- Behind digits, an exponent and a mark are read if they are there. -/
theorem scale_longest (hexp : Exponent exp) (hmark : DoubleMark mark) (whole : Kind)
    (text rest : List Char) :
    text.length + exp.length + mark.length ≤
      (scale whole (text ++ (exp ++ (mark ++ rest)).takeWhile Char.isDigit)
        ((exp ++ (mark ++ rest)).dropWhile Char.isDigit)).text.length := by
  cases hexp with
  | none =>
    cases hmark with
    | none =>
      obtain ⟨more, hmore, _⟩ := scale_split whole
        (text ++ ([] ++ ([] ++ rest)).takeWhile Char.isDigit)
        (([] ++ ([] ++ rest)).dropWhile Char.isDigit)
      rw [hmore]
      simp
    | some hd =>
      rcases hd with rfl | rfl <;> simp [scale, scale.suffix, isDoubleSuffix, Char.isDigit]
  | @some e sg ds he hsg hne hds =>
    have hdigit : e.isDigit = false := by rcases he with rfl | rfl <;> rfl
    have hmarked : (decide (e = 'e') || decide (e = 'E')) = true := by simpa using he
    have hsign := sign_append hsg hne hds (mark ++ rest)
    have hread : e :: sg ++ ds ++ (mark ++ rest) = e :: (sg ++ (ds ++ (mark ++ rest))) := by simp
    rw [hread, List.takeWhile_cons_of_neg (by simp [hdigit]), List.append_nil,
      List.dropWhile_cons_of_neg (by simp [hdigit])]
    simp only [scale, hmarked, if_true, hsign, List.drop_left]
    rw [takeWhile_of_all hds, dropWhile_of_all hds]
    refine Nat.le_trans ?_ (suffix_longest hmark _ _ _ _)
    simp

theorem number_length (c : Char) (cs : List Char) :
    1 + (cs.takeWhile Char.isDigit).length ≤ (number c cs).text.length := by
  unfold number
  split
  · obtain ⟨more, hmore, _⟩ := scale_split .doubleLiteral
      (c :: cs.takeWhile Char.isDigit ++ '.' :: List.takeWhile Char.isDigit _) (List.dropWhile _ _)
    rw [hmore]
    simp
    omega
  · split
    · simp
      omega
    · rw [(scale_split _ _ _).choose_spec.1]
      simp
      omega
  · rw [(scale_split _ _ _).choose_spec.1]
    simp
    omega

/-- What cannot continue a sequence of digits leaves it alone. -/
theorem takeWhile_digits (hds : Digits ds) {x : Char} (hx : x.isDigit = false) (rest : List Char) :
    (ds ++ x :: rest).takeWhile Char.isDigit = ds ∧
      (ds ++ x :: rest).dropWhile Char.isDigit = x :: rest := by
  rw [takeWhile_of_all hds, dropWhile_of_all hds]
  simp [hx]

theorem number_long {s : Char} (hds : Digits ds) (hs : s = 'l' ∨ s = 'L') (rest : List Char) :
    (number c (ds ++ s :: rest)).text = c :: ds ++ [s] := by
  have hdigit : s.isDigit = false := by rcases hs with rfl | rfl <;> rfl
  obtain ⟨htake, hdrop⟩ := takeWhile_digits hds hdigit rest
  rcases hs with rfl | rfl <;> simp [number, htake, hdrop, isLongSuffix]

/-- Everything that may follow a point is read. -/
theorem number_fraction {fs : List Char} (hds : Digits ds) (hfs : Digits fs) (hexp : Exponent exp)
    (hmark : DoubleMark mark) (rest : List Char) :
    1 + ds.length + 1 + fs.length + exp.length + mark.length ≤
      (number c (ds ++ '.' :: (fs ++ (exp ++ (mark ++ rest))))).text.length := by
  obtain ⟨htake, hdrop⟩ := takeWhile_digits hds (show ('.' : Char).isDigit = false from rfl)
    (fs ++ (exp ++ (mark ++ rest)))
  have hscale := scale_longest hexp hmark .doubleLiteral (c :: ds ++ '.' :: fs) rest
  simp only [number, htake, hdrop, takeWhile_of_all hfs, dropWhile_of_all hfs]
  refine Nat.le_trans ?_ (Nat.le_trans hscale (Nat.le_of_eq ?_))
  · simp
    omega
  · simp

/-- What an exponent or a mark starts with. -/
theorem scale_head (hexp : Exponent exp) (hmark : DoubleMark mark) (hsome : exp ++ mark ≠ []) :
    ∃ x more, exp ++ mark = x :: more ∧
      (x = 'e' ∨ x = 'E' ∨ x = 'd' ∨ x = 'D') := by
  cases hexp with
  | none =>
    cases hmark with
    | none => exact absurd rfl hsome
    | some hd => exact ⟨_, [], rfl, .inr (.inr hd)⟩
  | some he => exact ⟨_, _, rfl, he.imp_right .inl⟩

theorem number_scaled (hds : Digits ds) (hexp : Exponent exp) (hmark : DoubleMark mark)
    (hsome : exp ++ mark ≠ []) (rest : List Char) :
    1 + ds.length + exp.length + mark.length ≤
      (number c (ds ++ (exp ++ (mark ++ rest)))).text.length := by
  obtain ⟨x, more, hhead, hx⟩ := scale_head hexp hmark hsome
  have hread : exp ++ (mark ++ rest) = x :: (more ++ rest) := by
    rw [← List.append_assoc, hhead, List.cons_append]
  obtain ⟨hdigit, hpoint, hlong⟩ : x.isDigit = false ∧ x ≠ '.' ∧ isLongSuffix x = false := by
    rcases hx with rfl | rfl | rfl | rfl <;> decide
  obtain ⟨htake, hdrop⟩ := takeWhile_digits hds hdigit (more ++ rest)
  have hscale := scale_longest hexp hmark .intLiteral (c :: ds) rest
  rw [hread, List.takeWhile_cons_of_neg (by simp [hdigit]), List.append_nil,
    List.dropWhile_cons_of_neg (by simp [hdigit])] at hscale
  have hnumber : number c (ds ++ x :: (more ++ rest)) =
      scale .intLiteral (c :: ds) (x :: (more ++ rest)) := by
    unfold number
    rw [htake, hdrop]
    split
    · rename_i heq
      exact absurd (List.cons.inj heq).1 hpoint
    · rename_i heq
      cases heq
      simp [hlong]
    · rename_i heq
      cases heq
  rw [hread, hnumber]
  refine Nat.le_trans ?_ hscale
  simp
  omega

/-- A string goes on to the quote that closes it. -/
theorem stringBody_append_quote {body : List Char} (h : StringText body) (rest : List Char) :
    (stringBody (body ++ '"' :: rest)).1 = body ++ ['"'] := by
  induction h with
  | nil => rfl
  | @raw c cs hquote hback hline _ ih =>
    rw [List.cons_append, stringBody]
    · simp only [List.cons_append, ih]
    all_goals simp_all
  | @escape c cs hc _ ih =>
    obtain ⟨value, hvalue⟩ := Option.isSome_iff_exists.1 (escaped?_isSome.2 hc)
    have hline : c ≠ '\n' := by
      rintro rfl
      exact absurd hc (by decide)
    rw [List.cons_append, List.cons_append, stringBody]
    · simp only [hvalue, List.cons_append, ih]
    all_goals simp_all

theorem charLiteral_raw (hback : c ≠ '\\') (hline : c ≠ '\n') (rest : List Char) :
    (charLiteral (c :: '\'' :: rest)).text = ['\'', c, '\''] := by
  have hbody : charBody (c :: '\'' :: rest) = ([c], c, '\'' :: rest, []) := by
    rw [charBody]
    all_goals simp_all
  simp [charLiteral, hbody]

theorem charLiteral_escape (hc : c ∈ escapes) (rest : List Char) :
    (charLiteral ('\\' :: c :: '\'' :: rest)).text = ['\'', '\\', c, '\''] := by
  have hbody : (charBody ('\\' :: c :: '\'' :: rest)).1 = ['\\', c] ∧
      (charBody ('\\' :: c :: '\'' :: rest)).2.2.1 = '\'' :: rest := by
    simp only [escapes, List.mem_cons, List.not_mem_nil, or_false] at hc
    obtain rfl | rfl | rfl | rfl | rfl | rfl | rfl | rfl := hc <;> exact ⟨rfl, rfl⟩
  simp [charLiteral, hbody]

theorem lexeme_digit (hc : c.isDigit = true) (cs : List Char) :
    lexeme c cs = some (number c cs) := by
  have hchar : c ≠ '\'' := by
    rintro rfl
    exact absurd hc (by decide)
  have hstring : c ≠ '"' := by
    rintro rfl
    exact absurd hc (by decide)
  simp [lexeme, hchar, hstring, hc]

theorem lexeme_name (hc : isNameStart c = true) (cs : List Char) :
    lexeme c cs = some (word c cs) := by
  have hchar : c ≠ '\'' := by
    rintro rfl
    exact absurd hc (by decide)
  have hstring : c ≠ '"' := by
    rintro rfl
    exact absurd hc (by decide)
  have hdigit : c.isDigit = false := by
    by_contra hd
    simp only [Bool.not_eq_false, Char.isDigit, Bool.and_eq_true, decide_eq_true_eq] at hd
    simp only [isNameStart, Char.isAlpha, Char.isUpper, Char.isLower, Bool.or_eq_true,
      Bool.and_eq_true, decide_eq_true_eq] at hc
    obtain ⟨hlo, hhi⟩ := hd
    rcases hc with ((⟨h, _⟩ | ⟨h, _⟩) | rfl) | rfl
    · exact absurd (UInt32.le_trans h hhi) (by decide)
    · exact absurd (UInt32.le_trans h hhi) (by decide)
    · exact absurd hhi (by decide)
    · exact absurd hlo (by decide)
  simp [lexeme, hchar, hstring, hdigit, hc]

/-- No symbol is tried after a shorter one. -/
theorem symbols_sorted :
    Kind.symbols.Pairwise fun a b => b.image.toList.length ≤ a.image.toList.length := by decide

/-- The first symbol that fits is the longest. -/
theorem symbolAt_longest {k' : Kind} (h : Kind.symbolAt cs = some k) (hk' : k' ∈ Kind.symbols)
    (hfits : k'.image.toList <+: cs) : k'.image.toList.length ≤ k.image.toList.length := by
  obtain ⟨_, before, after, hsplit, hbefore⟩ := List.find?_eq_some_iff_append.1 h
  have hsorted := symbols_sorted
  rw [hsplit] at hsorted hk'
  rcases List.mem_append.1 hk' with hk' | hk'
  · have hno := hbefore k' hk'
    simp [List.isPrefixOf_iff_prefix.2 hfits] at hno
  · rcases List.mem_cons.1 hk' with rfl | hk'
    · exact le_rfl
    · exact (List.pairwise_cons.1 (List.pairwise_append.1 hsorted).2.1).1 k' hk'

theorem separators_operators_subset :
    ∀ k ∈ Kind.separators ++ Kind.operators, k ∈ Kind.symbols := by decide

/-- No symbol starts as another token does, the point apart. -/
theorem symbol_head : ∀ k ∈ Kind.separators ++ Kind.operators, k.image.toList.head?.all (fun c =>
    c ≠ '\'' && c ≠ '"' && !c.isDigit && !isNameStart c &&
      (c ≠ '.' || k.image.toList.length = 1)) = true := by decide

/-- No symbol that fits is longer than the lexeme. -/
theorem symbol_longest (hk : k ∈ Kind.separators ++ Kind.operators) (h : lexeme c cs = some l)
    (hfits : k.image.toList <+: c :: cs) : k.image.toList.length ≤ l.text.length := by
  obtain ⟨d, more, himage⟩ := List.exists_cons_of_ne_nil
    (symbols_image_ne_nil k (separators_operators_subset k hk))
  obtain ⟨rfl, _⟩ := List.cons_prefix_cons.1 (himage ▸ hfits)
  have hhead := symbol_head k hk
  simp only [himage, List.head?_cons, Option.all_some, Bool.and_eq_true, Bool.or_eq_true,
    decide_eq_true_eq, Bool.not_eq_true'] at hhead
  obtain ⟨⟨⟨⟨hchar, hstring⟩, hdigit⟩, hname⟩, hpoint⟩ := hhead
  obtain ⟨rfl, rfl⟩ | ⟨rfl, rfl⟩ | ⟨hc, rfl⟩ | ⟨hc, rfl⟩ | ⟨rfl, hc, rfl⟩ | ⟨k', hk', rfl⟩ :=
    lexeme_cases h
  · exact absurd rfl hchar
  · exact absurd rfl hstring
  · simp [hdigit] at hc
  · simp [hname] at hc
  · obtain ⟨more', htext, _⟩ := fraction_split cs
    rw [htext, himage, hpoint.resolve_left (by simp)]
    simp
  · exact symbolAt_longest hk' (separators_operators_subset k hk) hfits

theorem word_longest {d : Char} (hd : isNameStart d = true) (hds : ∀ x ∈ ds, isNamePart x = true)
    (h : lexeme c cs = some l) (hfits : d :: ds <+: c :: cs) :
    (d :: ds).length ≤ l.text.length := by
  obtain ⟨rfl, rest, rfl⟩ := List.cons_prefix_cons.1 hfits
  cases (lexeme_name hd _).symm.trans h
  simp [word, takeWhile_of_all hds]

theorem keyword_name : ∀ k ∈ Kind.keywords, k.image.toList.head?.any isNameStart = true ∧
    k.image.toList.all isNamePart = true := by decide

/-- No spelling at a place is longer than the lexeme there. -/
theorem lexeme_longest (h : lexeme c cs = some l) {w : List Char} (hw : Spelled k w)
    (hfits : w <+: c :: cs) : w.length ≤ l.text.length := by
  -- each class is told by its first character, so what is read there is known
  cases hw with
  | symbol hk => exact symbol_longest hk h hfits
  | @int ds hne hds =>
    obtain ⟨d, ds, rfl⟩ := List.exists_cons_of_ne_nil hne
    obtain ⟨rfl, rest, rfl⟩ := List.cons_prefix_cons.1 hfits
    cases (lexeme_digit (hds d (by simp)) _).symm.trans h
    refine Nat.le_trans ?_ (number_length _ _)
    rw [takeWhile_of_all fun x hx => hds x (by simp [hx])]
    simp
    omega
  | @long ds s hne hds hs =>
    obtain ⟨d, ds, rfl⟩ := List.exists_cons_of_ne_nil hne
    obtain ⟨rfl, rest, rfl⟩ := List.cons_prefix_cons.1 hfits
    cases (lexeme_digit (hds d (by simp)) _).symm.trans h
    have hds' : Digits ds := fun x hx => hds x (by simp [hx])
    have htext := number_long (c := d) hds' hs rest
    simp [htext]
  | @double ds frac exp mark hne hds hfrac hexp hmark hsome =>
    obtain ⟨d, ds, rfl⟩ := List.exists_cons_of_ne_nil hne
    obtain ⟨rfl, rest, rfl⟩ := List.cons_prefix_cons.1 (show d :: (ds ++ frac ++ exp ++ mark) <+: _
      by simpa using hfits)
    cases (lexeme_digit (hds d (by simp)) _).symm.trans h
    have hds' : Digits ds := fun x hx => hds x (by simp [hx])
    cases hfrac with
    | none =>
      have hle := number_scaled (c := d) hds' hexp hmark (by simpa using hsome) rest
      simp only [List.append_nil, List.append_assoc, List.length_append, List.length_cons] at hle ⊢
      omega
    | some hfs =>
      have hle := number_fraction (c := d) hds' hfs hexp hmark rest
      simp only [List.append_assoc, List.cons_append, List.length_append, List.length_cons] at hle ⊢
      omega
  | @point ds exp mark hne hds hexp hmark =>
    obtain ⟨rfl, rest, rfl⟩ := List.cons_prefix_cons.1 (show '.' :: (ds ++ exp ++ mark) <+: _
      by simpa using hfits)
    have hdigit : (ds ++ exp ++ mark ++ rest).head?.any Char.isDigit = true := by
      obtain ⟨d, ds, rfl⟩ := List.exists_cons_of_ne_nil hne
      simpa using hds d (by simp)
    have hlexeme : lexeme '.' (ds ++ exp ++ mark ++ rest) =
        some (fraction (ds ++ exp ++ mark ++ rest)) := by
      have hplain : ('.' : Char).isDigit = false ∧ isNameStart '.' = false := by decide
      simp only [lexeme, hdigit, hplain]
      rfl
    cases hlexeme.symm.trans h
    have hle := scale_longest hexp hmark .doubleLiteral ('.' :: ds) rest
    have htext : (fraction (ds ++ exp ++ mark ++ rest)) = scale .doubleLiteral
        ('.' :: ds ++ (exp ++ (mark ++ rest)).takeWhile Char.isDigit)
        ((exp ++ (mark ++ rest)).dropWhile Char.isDigit) := by
      simp [fraction, takeWhile_of_all hds, dropWhile_of_all hds]
    rw [htext]
    refine Nat.le_trans ?_ hle
    simp
    omega
  | identifier hc hcs => exact word_longest hc hcs h hfits
  | @keyword k hk =>
    obtain ⟨hhead, hall⟩ := keyword_name k hk
    generalize k.image.toList = w at hhead hall hfits ⊢
    cases w with
    | nil => simp at hhead
    | cons d ds =>
      exact word_longest (by simpa using hhead) (fun x hx => List.all_eq_true.1 hall x (by simp [hx])) h hfits
  | @rawChar x hback hline =>
    obtain ⟨rfl, rest, rfl⟩ := List.cons_prefix_cons.1 hfits
    cases (show lexeme '\'' _ = some (charLiteral _) from rfl).symm.trans h
    have htext := charLiteral_raw hback hline rest
    simp [htext]
  | @escapedChar x hx =>
    obtain ⟨rfl, rest, rfl⟩ := List.cons_prefix_cons.1 hfits
    cases (show lexeme '\'' _ = some (charLiteral _) from rfl).symm.trans h
    have htext := charLiteral_escape hx rest
    simp [htext]
  | @string body hbody =>
    obtain ⟨rfl, rest, rfl⟩ := List.cons_prefix_cons.1 (show '"' :: (body ++ ['"']) <+: _
      by simpa using hfits)
    cases (show lexeme '"' _ = some (stringLiteral _) from rfl).symm.trans h
    have htext := stringBody_append_quote hbody rest
    simp [stringLiteral, htext]

/-- A token is spelled as its kind demands, and no spelling from its first character on is
longer. -/
def Longest (t : Token) (rest : List Char) : Prop :=
  Spelled t.kind t.lexeme.toList ∧
    ∀ k w, Spelled k w → w <+: t.lexeme.toList ++ rest → w.length ≤ t.lexeme.toList.length

/-- Where no error is reported every token is the longest. -/
theorem longest_granted {ds : List Diagnostic} (hds : ∀ d ∈ ds, d.isError = false) :
    Grants ds Longest := by
  intro c cs l line hl hproblems
  obtain ⟨more, htext, hmore⟩ := lexeme_split hl
  have hquiet : l.problems = [] := by
    refine List.eq_nil_iff_forall_not_mem.2 fun p hp => ?_
    have := hds _ (hproblems p hp)
    simp [report, Diagnostic.isError] at this
  refine ⟨by simpa [Lexeme.token] using lexeme_spelled hl hquiet, fun k w hw hfits => ?_⟩
  have hwhole : l.text ++ l.rest = c :: cs := by rw [htext, List.cons_append, hmore]
  have hle := lexeme_longest hl hw (by simpa [Lexeme.token, hwhole] using hfits)
  simpa [Lexeme.token] using hle

/-- Where a text has no lexical errors, every token is the longest one at its place: the text is a
sequence of stretches, and each of those that are tokens is spelled as its kind demands, with no
longer spelling of any kind from its first character on. -/
theorem scan_longest {source : String} (h : (scan source).failed = false) :
    ∃ ss eof, text ss = source.toList ∧ (scan source).tokens = tokens ss ++ [eof] ∧
      eof.kind = .eof ∧
      ∀ before s after, ss = before ++ s :: after →
        s.Fits Longest (1 + (text before).count '\n') (text after) := by
  have hquiet : ∀ d ∈ (scan source).diagnostics, d.isError = false := by
    simpa [scan_failed] using h
  obtain ⟨ss, htext, hcovers, htokens, _, _⟩ :=
    scanFrom_covers (longest_granted hquiet) (.start source.toList) (List.Subset.refl _)
  refine ⟨ss, _, htext.symm, htokens, rfl, ?_⟩
  intro before s after hss
  have hfits := hcovers.fits hss
  rw [List.append_nil] at hfits
  exact hfits

set_option maxRecDepth 10000 in
theorem scan_longest_shift : (scan "x>>>=10L.5+2.e3d;//").failed = false ∧
    ∃ ss eof, text ss = "x>>>=10L.5+2.e3d;//".toList ∧
      (scan "x>>>=10L.5+2.e3d;//").tokens = tokens ss ++ [eof] ∧ eof.kind = .eof ∧
      ∀ before s after, ss = before ++ s :: after →
        s.Fits Longest (1 + (text before).count '\n') (text after) :=
  have h : (scan "x>>>=10L.5+2.e3d;//").failed = false := by decide +kernel
  ⟨h, scan_longest h⟩

end Jminus.Lexer
