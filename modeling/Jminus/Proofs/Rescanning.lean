import Jminus.Proofs.Spelling
import Jminus.Proofs.Strings
import Mathlib

/-!
A lexeme without problems is read again from its own text.

Characters and strings end with their quotes, so that anything may stand behind them. Every other
lexeme comes back where a blank follows it, or nothing.
-/
namespace Jminus.Lexer

/-- A blank comes next, or nothing. -/
def Apart (ds : List Char) : Prop := ∀ d ∈ ds.head?, isBlank d = true

section Runs

variable {p : Char → Bool} {xs ds : List Char}

theorem mem_of_isBlank {d : Char} (h : isBlank d = true) :
    d ∈ [' ', '\t', '\n', '\x0c', '\r'] := by
  simpa [isBlank, or_assoc] using h

/-- What holds of no blank does not hold of what comes next. -/
theorem Apart.stops (h : Apart ds) (hp : [' ', '\t', '\n', '\x0c', '\r'].all (!p ·) = true) :
    ∀ d ∈ ds.head?, p d = false := by
  intro d hd
  simpa using List.all_eq_true.1 hp d (mem_of_isBlank (h d hd))

/-- A run of characters ends where the next one is of another sort. -/
theorem run_stops (hxs : ∀ x ∈ xs, p x = true) (hds : ∀ d ∈ ds.head?, p d = false) :
    (xs ++ ds).takeWhile p = xs ∧ (xs ++ ds).dropWhile p = ds := by
  rw [takeWhile_of_all hxs, dropWhile_of_all hxs]
  cases ds with
  | nil => simp
  | cons d ds => simp [hds d rfl]

end Runs

section Numbers

variable {exp mark ds : List Char}

theorem suffix_again (hmark : DoubleMark mark) (hds : Apart ds) (kind : Kind) (text : List Char)
    (ps : List Problem) :
    scale.suffix kind text (mark ++ ds) ps =
      ⟨if mark = [] then kind else .doubleLiteral, text ++ mark, ds, .nothing, ps⟩ := by
  cases hmark with
  | none =>
    have hstops := hds.stops (p := isDoubleSuffix) (by decide)
    cases ds with
    | nil => simp [scale.suffix]
    | cons d ds => simp [scale.suffix, hstops d rfl]
  | some hd => rcases hd with rfl | rfl <;> simp [scale.suffix, isDoubleSuffix]

/-- Neither a digit nor a point nor the mark of a long number starts what is behind the digits. -/
theorem scale_stops (hexp : Exponent exp) (hmark : DoubleMark mark) (hds : Apart ds) :
    ∀ d ∈ (exp ++ (mark ++ ds)).head?, d.isDigit = false ∧ d ≠ '.' ∧ isLongSuffix d = false := by
  cases hexp with
  | none =>
    cases hmark with
    | none =>
      intro d hd
      have hstops := hds.stops (p := fun d => d.isDigit || d = '.' || isLongSuffix d) (by decide) d hd
      simpa [and_assoc] using hstops
    | some hd =>
      rintro d ⟨⟩
      rcases hd with rfl | rfl <;> decide
  | some he =>
    rintro d ⟨⟩
    rcases he with rfl | rfl <;> decide

theorem scale_again (hexp : Exponent exp) (hmark : DoubleMark mark) (hds : Apart ds) (whole : Kind)
    (text : List Char) :
    scale whole text (exp ++ (mark ++ ds)) =
      ⟨if exp ++ mark = [] then whole else .doubleLiteral, text ++ exp ++ mark, ds, .nothing, []⟩ := by
  cases hexp with
  | none =>
    have hsuffix := suffix_again hmark hds whole text []
    have hstops : ∀ d ∈ (mark ++ ds).head?, (decide (d = 'e') || decide (d = 'E')) = false := by
      cases hmark with
      | none => exact hds.stops (by decide)
      | some hd =>
        rintro d ⟨⟩
        rcases hd with rfl | rfl <;> rfl
    simp only [List.nil_append, List.append_nil]
    rw [← hsuffix]
    generalize mark ++ ds = rest at hstops
    cases rest with
    | nil => rfl
    | cons d rest => simp only [scale, hstops d rfl, Bool.false_eq_true, if_false]
  | @some e sg es he hsg hne hes =>
    have hmarked : (decide (e = 'e') || decide (e = 'E')) = true := by simpa using he
    have hsign := sign_append hsg hne hes (mark ++ ds)
    have hstops : ∀ d ∈ (mark ++ ds).head?, d.isDigit = false := fun d hd =>
      (scale_stops .none hmark hds d hd).1
    obtain ⟨htake, hdrop⟩ := run_stops hes hstops
    have hread : e :: sg ++ es ++ (mark ++ ds) = e :: (sg ++ (es ++ (mark ++ ds))) := by simp
    have hsome : es.isEmpty = false := by simpa using hne
    rw [hread]
    simp only [scale, hmarked, if_true, hsign, List.drop_left, htake, hdrop, hsome,
      Bool.false_eq_true, if_false]
    rw [suffix_again hmark hds]
    simp

variable {c : Char} {xs : List Char}

/-- A number without a point is read again before a blank. -/
theorem number_whole_again (hxs : Digits xs) (hexp : Exponent exp) (hmark : DoubleMark mark)
    (hds : Apart ds) :
    number c (xs ++ (exp ++ (mark ++ ds))) =
      ⟨if exp ++ mark = [] then .intLiteral else .doubleLiteral, c :: xs ++ exp ++ mark, ds, .nothing,
        []⟩ := by
  have hstops := scale_stops hexp hmark hds
  rw [← scale_again hexp hmark hds]
  generalize exp ++ (mark ++ ds) = rest at hstops
  obtain ⟨htake, hdrop⟩ := run_stops hxs fun d hd => (hstops d hd).1
  rw [number, htake, hdrop]
  cases rest with
  | nil => rfl
  | cons d rest =>
    obtain ⟨_, hpoint, hlong⟩ := hstops d rfl
    split
    · rename_i heq
      exact absurd (List.cons.inj heq).1 hpoint
    · rename_i heq
      cases heq
      simp [hlong]
    · rename_i heq
      cases heq

theorem number_point_again {fs : List Char} (hxs : Digits xs) (hfs : Digits fs)
    (hexp : Exponent exp) (hmark : DoubleMark mark) (hds : Apart ds) :
    number c (xs ++ '.' :: (fs ++ (exp ++ (mark ++ ds)))) =
      ⟨.doubleLiteral, c :: xs ++ '.' :: fs ++ exp ++ mark, ds, .nothing, []⟩ := by
  have hscale := scale_again hexp hmark hds .doubleLiteral (c :: xs ++ '.' :: fs)
  rw [ite_self] at hscale
  obtain ⟨htake, hdrop⟩ := takeWhile_digits hxs (show ('.' : Char).isDigit = false from rfl)
    (fs ++ (exp ++ (mark ++ ds)))
  obtain ⟨htake', hdrop'⟩ := run_stops hfs fun d hd => (scale_stops hexp hmark hds d hd).1
  simp only [number, htake, hdrop, htake', hdrop', hscale]

theorem number_long_again {s : Char} (hxs : Digits xs) (hs : s = 'l' ∨ s = 'L') (ds : List Char) :
    number c (xs ++ s :: ds) = ⟨.longLiteral, c :: xs ++ [s], ds, .nothing, []⟩ := by
  have hdigit : s.isDigit = false := by rcases hs with rfl | rfl <;> rfl
  obtain ⟨htake, hdrop⟩ := takeWhile_digits hxs hdigit ds
  rcases hs with rfl | rfl <;> simp [number, htake, hdrop, isLongSuffix]

theorem fraction_again (hxs : Digits xs) (hexp : Exponent exp) (hmark : DoubleMark mark)
    (hds : Apart ds) :
    fraction (xs ++ (exp ++ (mark ++ ds))) =
      ⟨.doubleLiteral, '.' :: xs ++ exp ++ mark, ds, .nothing, []⟩ := by
  have hscale := scale_again hexp hmark hds .doubleLiteral ('.' :: xs)
  rw [ite_self] at hscale
  obtain ⟨htake, hdrop⟩ := run_stops hxs fun d hd => (scale_stops hexp hmark hds d hd).1
  rw [fraction, htake, hdrop, hscale]

end Numbers

theorem keyword?_image : ∀ k ∈ Kind.keywords, Kind.keyword? k.image = some k := by decide

variable {ds more : List Char} {k : Kind}

/-- A word ends at a blank and has its kind by its text. -/
theorem word_again {c : Char} {cs : List Char} (hcs : ∀ d ∈ cs, isNamePart d = true)
    (hds : Apart ds) :
    word c (cs ++ ds) =
      ⟨(Kind.keyword? (String.ofList (c :: cs))).getD .identifier, c :: cs, ds, .nothing, []⟩ := by
  obtain ⟨htake, hdrop⟩ := run_stops hcs (hds.stops (by decide))
  rw [word, htake, hdrop]

/-- No word reaches over a blank. -/
theorem prefix_apart {xs cs : List Char} (hxs : ∀ x ∈ xs, isBlank x = false) (hds : Apart ds) :
    xs <+: cs ++ ds ↔ xs <+: cs := by
  induction xs generalizing cs with
  | nil => simp
  | cons x xs ih =>
    obtain ⟨hx, hxs⟩ := List.forall_mem_cons.1 hxs
    cases cs with
    | nil =>
      simp only [List.nil_append, List.prefix_nil, reduceCtorEq, iff_false]
      rintro ⟨rest, hrest⟩
      have hblank := hds x (by rw [← hrest]; rfl)
      rw [hx] at hblank
      cases hblank
    | cons c cs => rw [List.cons_append, List.cons_prefix_cons, List.cons_prefix_cons, ih hxs]

theorem symbols_again : ∀ k ∈ Kind.symbols,
    k.image.toList.all (!isBlank ·) = true ∧ Kind.symbolAt k.image.toList = some k := by decide

/-- A symbol is found again, and no longer one. -/
theorem symbolAt_again (hk : k ∈ Kind.symbols) (hds : Apart ds) :
    Kind.symbolAt (k.image.toList ++ ds) = some k := by
  rw [← (symbols_again k hk).2]
  unfold Kind.symbolAt
  refine List.find?_congr fun k' hk' => ?_
  rw [Bool.eq_iff_iff, List.isPrefixOf_iff_prefix, List.isPrefixOf_iff_prefix]
  refine prefix_apart (fun x hx => ?_) hds
  simpa using List.all_eq_true.1 (symbols_again k' hk').1 x hx

/-- A point is a symbol unless a digit follows it. -/
theorem lexeme_symbol_again (hk : k ∈ Kind.separators ++ Kind.operators) {c : Char}
    (himage : k.image.toList = c :: more) (hds : Apart ds) :
    lexeme c (more ++ ds) = some ⟨k, c :: more, ds, .nothing, []⟩ := by
  have hhead := symbol_head k hk
  simp only [himage, List.head?_cons, Option.all_some, Bool.and_eq_true, Bool.or_eq_true,
    decide_eq_true_eq, Bool.not_eq_true'] at hhead
  obtain ⟨⟨⟨⟨hchar, hstring⟩, hdigit⟩, hname⟩, hpoint⟩ := hhead
  have hnopoint : (decide (c = '.') && (more ++ ds).head?.any Char.isDigit) = false := by
    rcases hpoint with hpoint | hpoint
    · simp [hpoint]
    · obtain rfl : more = [] := by simpa using hpoint
      have hstops := hds.stops (p := Char.isDigit) (by decide)
      rw [List.nil_append, Bool.and_eq_false_iff]
      right
      cases ds with
      | nil => rfl
      | cons d ds => exact hstops d rfl
  have hsymbol := symbolAt_again (separators_operators_subset k hk) hds
  have hlength : k.image.length = (c :: more).length := by
    rw [← himage, String.length_toList]
  rw [himage] at hsymbol
  simp only [lexeme, hchar, hstring, hdigit, hname, hnopoint, Bool.false_eq_true, if_false]
  rw [← List.cons_append, hsymbol, Option.map_some, himage, hlength, List.drop_left]

/-- Every spelling without quotes is read as it is where a blank follows. -/
theorem lexeme_spelled_again {c : Char} (h : Spelled k (c :: more)) (hchar : c ≠ '\'')
    (hstring : c ≠ '"') (hds : Apart ds) :
    lexeme c (more ++ ds) = some ⟨k, c :: more, ds, .nothing, []⟩ := by
  generalize hw : c :: more = w at h
  cases h with
  | symbol hk =>
    rw [← hw]
    exact lexeme_symbol_again hk hw.symm hds
  | int _ hxs =>
    subst hw
    obtain ⟨hc, hmore⟩ := List.forall_mem_cons.1 hxs
    rw [lexeme_digit hc]
    simpa using number_whole_again (c := c) hmore .none .none hds
  | @long xs s hne hxs hs =>
    obtain ⟨x, xs, rfl⟩ := List.exists_cons_of_ne_nil hne
    obtain ⟨hc, hmore⟩ := List.forall_mem_cons.1 hxs
    simp only [List.cons_append, List.cons.injEq] at hw
    obtain ⟨rfl, rfl⟩ := hw
    rw [lexeme_digit hc]
    simpa using number_long_again (c := c) hmore hs ds
  | @double xs frac exp mark hne hxs hfrac hexp hmark hsome =>
    obtain ⟨x, xs, rfl⟩ := List.exists_cons_of_ne_nil hne
    obtain ⟨hc, hmore⟩ := List.forall_mem_cons.1 hxs
    simp only [List.cons_append, List.cons.injEq] at hw
    obtain ⟨rfl, rfl⟩ := hw
    rw [lexeme_digit hc]
    cases hfrac with
    | none =>
      have hagain := number_whole_again (c := c) hmore hexp hmark hds
      rw [if_neg (by simpa using hsome)] at hagain
      simpa using hagain
    | some hfs => simpa using number_point_again (c := c) hmore hfs hexp hmark hds
  | @point xs exp mark hne hxs hexp hmark =>
    simp only [List.cons_append, List.cons.injEq] at hw
    obtain ⟨rfl, rfl⟩ := hw
    have hdigit : (xs ++ exp ++ mark ++ ds).head?.any Char.isDigit = true := by
      obtain ⟨x, xs, rfl⟩ := List.exists_cons_of_ne_nil hne
      simpa using hxs x (by simp)
    have hplain : ('.' : Char).isDigit = false ∧ isNameStart '.' = false := by decide
    have hlexeme : lexeme '.' (xs ++ exp ++ mark ++ ds) =
        some (fraction (xs ++ exp ++ mark ++ ds)) := by
      simp only [lexeme, hdigit, hplain]
      rfl
    rw [hlexeme]
    simpa using fraction_again hxs hexp hmark hds
  | identifier hc hcs hfree =>
    cases hw
    have hnone : Kind.keyword? (String.ofList (c :: more)) = none := by
      refine List.find?_eq_none.2 fun k hk himage => hfree k hk ?_
      have hsame : k.image = String.ofList (c :: more) := by simpa using himage
      rw [hsame, String.toList_ofList]
    rw [lexeme_name hc, word_again hcs hds, hnone]
    rfl
  | keyword hk =>
    obtain ⟨hhead, hall⟩ := keyword_name k hk
    rw [← hw] at hhead hall
    have hkey := keyword?_image k hk
    have himage : k.image = String.ofList (c :: more) := by rw [hw, String.ofList_toList]
    have hmore : ∀ d ∈ more, isNamePart d = true := fun d hd =>
      List.all_eq_true.1 hall d (List.mem_cons_of_mem c hd)
    rw [himage] at hkey
    rw [lexeme_name (by simpa using hhead), word_again hmore hds, hkey, ← hw]
    rfl
  | rawChar => exact absurd (List.cons.inj hw).1 hchar
  | escapedChar => exact absurd (List.cons.inj hw).1 hchar
  | string => exact absurd (List.cons.inj hw).1 hstring

/-- What stands between the quotes of a character literal is read again before a quote. -/
theorem charBody_again {cs rest : List Char} (h : (charBody cs).2.2.2 = [])
    (hrest : (charBody cs).2.2.1 = '\'' :: rest) (ds : List Char) :
    charBody ((charBody cs).1 ++ '\'' :: ds) =
      ((charBody cs).1, (charBody cs).2.1, '\'' :: ds, []) := by
  fun_cases charBody cs <;> simp_all [charBody]

/-- A character literal without problems is read again whatever stands behind it. -/
theorem charLiteral_again {cs : List Char} (h : (charLiteral cs).problems = []) :
    ∃ more, (charLiteral cs).text = '\'' :: more ∧
      ∀ ds, charLiteral (more ++ ds) = { charLiteral cs with rest := ds } := by
  by_cases hquote : quote (charBody cs).2.2.1 = []
  · rw [charLiteral_unclosed rfl hquote] at h
    simp at h
  · obtain ⟨rest, hrest⟩ : ∃ rest, (charBody cs).2.2.1 = '\'' :: rest := by
      revert hquote
      fun_cases quote (charBody cs).2.2.1 with
      | case1 rest => exact fun _ => ⟨rest, rfl⟩
      | case2 => exact fun hquote => absurd rfl hquote
    have hbody : charBody cs =
        ((charBody cs).1, (charBody cs).2.1, '\'' :: rest, (charBody cs).2.2.2) := by
      rw [← hrest]
    rw [charLiteral_closed hbody] at h ⊢
    have hquiet : (charBody cs).2.2.2 = [] := h
    refine ⟨(charBody cs).1 ++ ['\''], rfl, fun ds => ?_⟩
    have hagain := charBody_again hquiet hrest ds
    rw [List.append_assoc, List.singleton_append, charLiteral_closed hagain]
    simp only [hquiet]

/-- The body of a string without problems is one that can be written, and stands for what is
written. -/
theorem stringBody_quiet {cs : List Char} (h : (stringBody cs).2.2.2 = []) :
    ∃ q : QuotedString, (stringBody cs).1 = q.body ++ ['"'] ∧
      String.ofList (stringBody cs).2.1 = q.value := by
  suffices hchars : ∃ ws : List Written, (stringBody cs).1 = ws.flatMap Written.text ++ ['"'] ∧
      (stringBody cs).2.1 = ws.map Written.char by
    obtain ⟨ws, htext, hvalue⟩ := hchars
    exact ⟨⟨ws⟩, htext, congrArg String.ofList hvalue⟩
  fun_induction stringBody cs with
  | case1 | case3 | case4 | case5 | case7 => simp at h
  | case2 => exact ⟨[], rfl, rfl⟩
  | case6 c cs hne text decoded rest problems heq value hvalue ih =>
    rw [heq] at ih
    obtain ⟨ws, rfl, rfl⟩ := ih h
    obtain ⟨e, rfl, rfl⟩ := Escape.exists_letter hvalue
    exact ⟨.escape e :: ws, rfl, rfl⟩
  | case8 c cs hquote hline hlast hbreak hback text decoded rest problems heq ih =>
    rw [heq] at ih
    obtain ⟨ws, rfl, rfl⟩ := ih h
    have hback : c ≠ '\\' := by
      rintro rfl
      cases cs with
      | nil => exact hlast rfl rfl
      | cons d ds => exact hback d ds rfl rfl
    exact ⟨.raw c hquote hback hline :: ws, rfl, rfl⟩

/-- A string is read again, whatever is behind it. -/
theorem stringLiteral_again {cs : List Char} (h : (stringLiteral cs).problems = []) :
    ∃ more, (stringLiteral cs).text = '"' :: more ∧
      ∀ ds, stringLiteral (more ++ ds) = { stringLiteral cs with rest := ds } := by
  obtain ⟨q, htext, hvalue⟩ := stringBody_quiet h
  refine ⟨q.body ++ ['"'], congrArg ('"' :: ·) htext, fun ds => ?_⟩
  have hagain : stringLiteral (q.body ++ '"' :: ds) = _ := Option.some.inj (lexeme_quoted q ds)
  have hproblems : (stringBody cs).2.2.2 = [] := h
  rw [List.append_assoc, List.singleton_append, hagain]
  simp only [stringLiteral, htext, hvalue, hproblems, List.cons_append]

section Again

variable {c : Char} {cs : List Char} {l : Lexeme}

/-- What starts with a quote is read again whatever stands behind it. -/
theorem quoted_again (h : lexeme c cs = some l) (hquiet : l.problems = [])
    (hc : c = '\'' ∨ c = '"') :
    ∃ more, l.text = c :: more ∧ ∀ ds, lexeme c (more ++ ds) = some { l with rest := ds } := by
  rcases hc with rfl | rfl
  · obtain rfl : charLiteral cs = l := Option.some.inj h
    obtain ⟨more, htext, hagain⟩ := charLiteral_again hquiet
    exact ⟨more, htext, fun ds => congrArg some (hagain ds)⟩
  · obtain rfl : stringLiteral cs = l := Option.some.inj h
    obtain ⟨more, htext, hagain⟩ := stringLiteral_again hquiet
    exact ⟨more, htext, fun ds => congrArg some (hagain ds)⟩

theorem suffix_decoded (kind : Kind) (text rest : List Char) (ps : List Problem) :
    (scale.suffix kind text rest ps).decoded = .nothing := by
  unfold scale.suffix
  split
  · split <;> rfl
  · rfl

theorem scale_decoded (whole : Kind) (text rest : List Char) :
    (scale whole text rest).decoded = .nothing := by
  unfold scale
  split
  · split <;> exact suffix_decoded ..
  · exact suffix_decoded ..

/-- Only what stands between quotes is decoded. -/
theorem lexeme_decoded (h : lexeme c cs = some l) (hchar : c ≠ '\'') (hstring : c ≠ '"') :
    l.decoded = .nothing := by
  obtain ⟨rfl, _⟩ | ⟨rfl, _⟩ | ⟨_, rfl⟩ | ⟨_, rfl⟩ | ⟨_, _, rfl⟩ | ⟨k, _, rfl⟩ := lexeme_cases h
  · exact absurd rfl hchar
  · exact absurd rfl hstring
  · unfold number
    split
    · exact scale_decoded ..
    · split
      · rfl
      · exact scale_decoded ..
    · exact scale_decoded ..
  · rfl
  · exact scale_decoded ..
  · rfl

/-- A lexeme without problems is read again from its own text, with the same kind and the same
meaning, where a blank follows it or nothing. -/
theorem lexeme_again (h : lexeme c cs = some l) (hquiet : l.problems = []) :
    ∃ more, l.text = c :: more ∧
      ∀ ds, Apart ds → lexeme c (more ++ ds) = some { l with rest := ds } := by
  by_cases hc : c = '\'' ∨ c = '"'
  · obtain ⟨more, htext, hagain⟩ := quoted_again h hquiet hc
    exact ⟨more, htext, fun ds _ => hagain ds⟩
  · obtain ⟨hchar, hstring⟩ := not_or.1 hc
    obtain ⟨more, htext, _⟩ := lexeme_split h
    have hspelled := lexeme_spelled h hquiet
    rw [htext] at hspelled
    refine ⟨more, htext, fun ds hds => ?_⟩
    rw [lexeme_spelled_again hspelled hchar hstring hds, ← htext, ← hquiet,
      ← lexeme_decoded h hchar hstring]

end Again

end Jminus.Lexer
