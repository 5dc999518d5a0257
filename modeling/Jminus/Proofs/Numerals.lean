import Jminus.Proofs.Printing
import Jminus.Proofs.Spelling
import Mathlib

/-!
Whole numbers from text to text.

A program that prints a number is followed through every phase. The scanner gives the digits and the
mark behind them as one token, the parser takes a minus into the literal, the analysis decides
whether the number has a place among the ints or the longs, and a run prints it without the zeros
that it was written with. The least numbers can be written because the minus belongs to the literal.
-/
namespace Jminus

open Lexer (Digits)

/-- A whole number in a text: digits, perhaps with a minus before them and a mark for long numbers
behind them. -/
structure WholeNumber where
  negative : Bool
  digits : List Char
  mark : Option Char
  isDigits : Digits digits
  nonempty : digits ≠ []
  isMark : ∀ s ∈ mark, s = 'l' ∨ s = 'L'

namespace WholeNumber

def sign (n : WholeNumber) : List Char := if n.negative then ['-'] else []

def text (n : WholeNumber) : String := String.ofList (n.sign ++ (n.digits ++ n.mark.toList))

/-- The statement that prints the number. -/
def program (n : WholeNumber) : String := "println(" ++ n.text ++ ");"

/-- What the digits stand for, the last one counting least. -/
def size (n : WholeNumber) : Nat :=
  Nat.ofDigits 10 (n.digits.reverse.map fun d => d.toNat - '0'.toNat)

def value (n : WholeNumber) : Int := if n.negative then -n.size else n.size

/-- The greatest size that has a place, with the sign and the mark as they are. -/
def limit (n : WholeNumber) : Nat :=
  match n.mark, n.negative with
  | none, false => 2 ^ 31 - 1
  | none, true => 2 ^ 31
  | some _, false => 2 ^ 63 - 1
  | some _, true => 2 ^ 63

end WholeNumber

namespace Lexer

variable {c : Char} {cs : List Char}

/-- A minus before a digit stands alone. -/
theorem lexeme_minus (hc : c.isDigit = true) :
    lexeme '-' (c :: cs) = some ⟨.minus, ['-'], c :: cs, .nothing, []⟩ := by
  have hminus : ('-' == c) = false := by
    rw [beq_eq_false_iff_ne]
    rintro rfl
    exact absurd hc (by decide)
  have hassign : ('=' == c) = false := by
    rw [beq_eq_false_iff_ne]
    rintro rfl
    exact absurd hc (by decide)
  have hsymbol : Kind.symbolAt ('-' :: c :: cs) = some .minus := by
    -- Only two longer symbols start with a minus.
    have hlonger : Kind.symbolAt ('-' :: c :: cs) = bif '=' == c && true then some .minusAssign
        else bif '-' == c && true then some .dec else some .minus := rfl
    rw [hlonger, hassign, hminus]
    rfl
  have hlexeme : lexeme '-' (c :: cs) = (Kind.symbolAt ('-' :: c :: cs)).map _ := rfl
  rw [hlexeme, hsymbol]
  rfl

/-- Digits and a mark are one literal where a parenthesis follows. -/
theorem number_marked {ds : List Char} {mark : Option Char} (hds : Digits ds)
    (hmark : ∀ s ∈ mark, s = 'l' ∨ s = 'L') :
    number c (ds ++ (mark.toList ++ [')', ';'])) =
      ⟨if mark.isSome then .longLiteral else .intLiteral, c :: ds ++ mark.toList, [')', ';'],
        .nothing, []⟩ := by
  cases mark with
  | none =>
    obtain ⟨htake, hdrop⟩ := takeWhile_digits hds (show (')' : Char).isDigit = false from rfl) [';']
    simp only [Option.toList_none, List.nil_append, List.append_nil, number, htake, hdrop]
    rfl
  | some s =>
    have hs := hmark s rfl
    have hdigit : s.isDigit = false := by rcases hs with rfl | rfl <;> rfl
    obtain ⟨htake, hdrop⟩ := takeWhile_digits hds hdigit [')', ';']
    simp only [Option.toList_some, List.singleton_append, number, htake, hdrop]
    rcases hs with rfl | rfl <;> rfl

end Lexer

namespace WholeNumber

open Lexer

def token (n : WholeNumber) : Token :=
  { kind := if n.mark.isSome then .longLiteral else .intLiteral
    lexeme := String.ofList (n.digits ++ n.mark.toList)
    line := 1 }

def minus (n : WholeNumber) : List Token :=
  if n.negative then [{ kind := .minus, lexeme := "-", line := 1 }] else []

theorem scan_unsigned (n : WholeNumber) :
    (scanFrom ⟨n.digits ++ (n.mark.toList ++ [')', ';']), 1⟩).tokens =
        n.token :: (scanFrom ⟨[')', ';'], 1⟩).tokens ∧
      (scanFrom ⟨n.digits ++ (n.mark.toList ++ [')', ';']), 1⟩).diagnostics = [] := by
  obtain ⟨negative, digits, mark, hdigits, hne, hmark⟩ := n
  obtain ⟨c, ds, rfl⟩ := List.exists_cons_of_ne_nil hne
  obtain ⟨hc, hds⟩ := List.forall_mem_cons.1 hdigits
  have hslash : c ≠ '/' := by
    rintro rfl
    exact absurd hc (by decide)
  have hl := (lexeme_digit hc _).trans (congrArg some (number_marked hds hmark))
  obtain ⟨htokens, hquiet⟩ := @scanFrom_lexeme 1 c _ _ hslash hl rfl
  exact ⟨htokens, hquiet.trans scan_close.2⟩

/-- A number is scanned to its minus, if any, and its digits with the mark. -/
theorem scan_signed (n : WholeNumber) :
    (scanFrom ⟨n.sign ++ (n.digits ++ (n.mark.toList ++ [')', ';'])), 1⟩).tokens =
        n.minus ++ n.token :: (scanFrom ⟨[')', ';'], 1⟩).tokens ∧
      (scanFrom ⟨n.sign ++ (n.digits ++ (n.mark.toList ++ [')', ';'])), 1⟩).diagnostics = [] := by
  obtain ⟨hunsigned, hquiet⟩ := n.scan_unsigned
  cases hn : n.negative with
  | false =>
    simp only [sign, minus, hn, Bool.false_eq_true, if_false, List.nil_append]
    exact ⟨hunsigned, hquiet⟩
  | true =>
    obtain ⟨c, ds, hdigits⟩ := List.exists_cons_of_ne_nil n.nonempty
    have hc : c.isDigit = true := n.isDigits c (by rw [hdigits]; exact List.mem_cons_self)
    simp only [sign, minus, hn, if_true, List.singleton_append]
    rw [hdigits, List.cons_append] at hunsigned hquiet ⊢
    obtain ⟨htokens, hsame⟩ := @scanFrom_lexeme 1 '-' _ _ (by decide) (lexeme_minus hc) rfl
    exact ⟨htokens.trans (congrArg _ hunsigned), hsame.trans hquiet⟩

def form (n : WholeNumber) : LiteralForm := if n.mark.isSome then .long else .int

def literal (n : WholeNumber) : Literal :=
  { form := n.form, lexeme := n.text, line := 1 }

/-- The digits denote a literal of the kind that the mark chooses. -/
theorem denotes_token (n : WholeNumber) :
    Grammar.Denotes n.token.kind n.token.decoded n.form := by
  unfold token form
  cases n.mark with
  | none => exact .int
  | some => exact .long

theorem numeric_token (n : WholeNumber) : Grammar.Numeric n.token.kind := by
  unfold token
  cases n.mark with
  | none => exact .int
  | some => exact .long

/-- The sign and the digits are one operand. -/
theorem unary_operand (n : WholeNumber) :
    Grammar.Unary (n.minus ++ [n.token]) (.literal n.literal) := by
  cases hn : n.negative with
  | false =>
    have hprimary : Grammar.Primary [n.token] _ := .literal n.denotes_token
    simp only [minus, literal, text, sign, hn, Bool.false_eq_true, if_false, List.nil_append]
    exact .operand (.primary hprimary)
  | true =>
    have hnegative : Grammar.Unary [⟨.minus, "-", 1, .nothing⟩, n.token] _ :=
      .negative rfl n.numeric_token n.denotes_token
    have htext : n.text = "-" ++ n.token.lexeme := by
      rw [text, sign, if_pos hn, String.ofList_append]
      rfl
    simp only [minus, literal, htext, hn, if_true]
    exact hnegative

/-- The number is what the program prints. -/
theorem argument (n : WholeNumber) :
    Printing.Argument n.text (n.minus ++ [n.token]) n.literal := by
  have hchars : n.text.toList ++ [')', ';'] =
      n.sign ++ (n.digits ++ (n.mark.toList ++ [')', ';'])) := by
    simp [text]
  obtain ⟨hscanned, hquiet⟩ := n.scan_signed
  rw [← hchars] at hscanned hquiet
  exact ⟨by simpa using hscanned, hquiet, n.unary_operand⟩

/-- The digits stand for a number in base ten. -/
theorem natOf_eq (ds : List Char) :
    Decimal.natOf ds = Nat.ofDigits 10 (ds.reverse.map fun d => d.toNat - '0'.toNat) := by
  -- From the back, as the digits are read: each one makes ten times what was there.
  induction ds using List.reverseRecOn with
  | nil => rfl
  | append_singleton ds d ih =>
    rw [Decimal.natOf, List.foldl_append, List.reverse_append]
    change 10 * Decimal.natOf ds + Decimal.digitValue d = _
    rw [ih, List.reverse_singleton, List.singleton_append, List.map_cons, Nat.ofDigits_cons,
      Nat.add_comm]
    rfl

theorem integerOf_eq (n : WholeNumber) : Decimal.integerOf (n.sign ++ n.digits) = n.value := by
  rw [value, size, ← natOf_eq]
  cases hn : n.negative with
  | true =>
    simp only [sign, hn, if_true, List.singleton_append]
    rfl
  | false =>
    obtain ⟨c, ds, hdigits⟩ := List.exists_cons_of_ne_nil n.nonempty
    have hc : c.isDigit = true := n.isDigits c (by rw [hdigits]; exact List.mem_cons_self)
    have hunsign : Decimal.unsign (c :: ds) = (false, c :: ds) := by
      rw [Decimal.unsign]
      intro cs heq
      rw [(List.cons.inj heq).1] at hc
      exact absurd hc (by decide)
    simp only [sign, hn, Bool.false_eq_true, if_false, List.nil_append, hdigits, Decimal.integerOf,
      hunsign]

/-- A size within its limit, said of the value. -/
theorem size_le_limit (n : WholeNumber) : n.size ≤ n.limit ↔
    -(if n.mark.isSome then 2 ^ 63 else 2 ^ 31) ≤ n.value ∧
      n.value < if n.mark.isSome then 2 ^ 63 else 2 ^ 31 := by
  cases hm : n.mark <;> cases hn : n.negative <;>
    simp only [value, limit, hm, hn, Option.isSome_none, Option.isSome_some, Bool.false_eq_true,
      if_true, if_false] <;> omega

def constant (n : WholeNumber) : Ty × Checked.Constant :=
  if n.mark.isSome then (.long, .long (Int64.ofInt n.value)) else (.int, .int (Int32.ofInt n.value))

/-- Analysis accepts a number that has a place and reports any other. -/
theorem checkLiteral_eq (n : WholeNumber) : Checked.checkLiteral n.literal =
    if n.size ≤ n.limit then (.literal n.constant.1 (some n.constant.2), [])
    else Checked.noValue .intRange n.literal := by
  have hvalue := n.integerOf_eq
  have hbounds := n.size_le_limit
  cases hm : n.mark with
  | none =>
    have hfits : Checked.fitsInt n.value = decide (n.size ≤ n.limit) := by
      rw [Checked.fitsInt, ← Bool.decide_and, decide_eq_decide, hbounds]
      simp only [hm, Option.isSome_none, Bool.false_eq_true, if_false]
      omega
    have hchars : n.literal.lexeme.toList = n.sign ++ n.digits := by
      simp [literal, text, hm]
    have hform : n.literal.form = .int := by simp [literal, form, hm]
    simp only [Checked.checkLiteral, hform, hchars, hvalue, hfits, constant, hm,
      Option.isSome_none, decide_eq_true_eq, Bool.false_eq_true, if_false]
  | some s =>
    have hfits : Checked.fitsLong n.value = decide (n.size ≤ n.limit) := by
      rw [Checked.fitsLong, ← Bool.decide_and, decide_eq_decide, hbounds]
      simp only [hm, Option.isSome_some, if_true]
      omega
    have hchars : n.literal.lexeme.toList.dropLast = n.sign ++ n.digits := by
      simp only [literal, text, hm, String.toList_ofList, Option.toList_some, ← List.append_assoc,
        List.dropLast_concat]
    have hform : n.literal.form = .long := by simp [literal, form, hm]
    simp only [Checked.checkLiteral, hform, hchars, hvalue, hfits, constant, hm,
      Option.isSome_some, decide_eq_true_eq, if_true]

open Checked.Meaning (execs World)

/-- A number with a place prints in decimal, whatever zeros and marks it was written with. -/
theorem prints_fits (n : WholeNumber) (h : n.size ≤ n.limit) :
    Printing.Prints n.literal n.constant.1 n.constant.2 (toString n.value) := by
  have hint : ∀ k : Int32, execs 0 [.expr (.call (some (Method.printing "println" [.int]))
      [.literal .int (some (.int k))])] .start =
        .done .normal { World.start with printed := [toString k.toInt ++ "\n"] } := fun _ => rfl
  have hlong : ∀ k : Int64, execs 0 [.expr (.call (some (Method.printing "println" [.long]))
      [.literal .long (some (.long k))])] .start =
        .done .normal { World.start with printed := [toString k.toInt ++ "\n"] } := fun _ => rfl
  have hliteral := n.checkLiteral_eq
  rw [if_pos h] at hliteral
  have hbounds := n.size_le_limit.1 h
  refine ⟨hliteral, ?_, ?_⟩
  · unfold constant
    split <;> simp
  cases hm : n.mark with
  | none =>
    simp only [hm, Option.isSome_none, Bool.false_eq_true, if_false] at hbounds
    have hvalue := Int32.toInt_ofInt_of_le hbounds.1 hbounds.2
    simp only [constant, hm, Option.isSome_none, Bool.false_eq_true, if_false]
    rw [hint, hvalue]
  | some s =>
    simp only [hm, Option.isSome_some, if_true] at hbounds
    have hvalue := Int64.toInt_ofInt_of_le hbounds.1 hbounds.2
    simp only [constant, hm, Option.isSome_some, if_true]
    rw [hlong, hvalue]

/-- A number without a place is reported where it stands. -/
theorem compile_exceeds (n : WholeNumber) (file : String) (h : ¬ n.size ≤ n.limit) :
    (compile file n.program).failure? ≠ none ∧
      (compile file n.program).diagnostics = [Checked.report 1 (Cause.intRange.on n.text)] := by
  have hliteral := n.checkLiteral_eq
  rw [if_neg h] at hliteral
  have hdiagnostics : (compile file n.program).diagnostics =
      [Checked.report 1 (Cause.intRange.on n.text)] :=
    (Printing.compile_analyzed file n.argument.scan_program.2 n.argument.read_program
      (Printing.check_tree hliteral rfl (by decide))).1
  refine ⟨?_, hdiagnostics⟩
  cases compile_came file n.program with
  | scanned hrejected | parsed hrejected | analyzed hrejected =>
    simp [Compilation.failure?, hrejected]
  | generated hvalid =>
    rw [Compilation.valid, hdiagnostics] at hvalid
    cases hvalid

/-- Whole numbers go from text to text. A program that prints one compiles if and only if the number
has a place among the ints, or with a mark among the longs, where a minus makes room for one more.
If it compiles, running it prints the number in decimal, with no zeros before it, and a line break;
and otherwise the one report is that the number is out of range. -/
theorem print_round_trip (n : WholeNumber) (file : String) :
    ((compile file n.program).failure? = none ↔ n.size ≤ n.limit) ∧
      ((compile file n.program).failure? = none →
        ∃ fuel r, (compile file n.program).run 0 fuel = some r ∧ r.failure? = none ∧
          r.output = toString n.value ++ "\n") ∧
      ((compile file n.program).failure? ≠ none →
        ∃ d, (compile file n.program).diagnostics = [d] ∧ d.problem.cause = .intRange) := by
  by_cases h : n.size ≤ n.limit
  · have hprints := n.prints_fits h
    obtain ⟨exe, hok, _⟩ := n.argument.compiles file hprints
    have hok' : (compile file n.program).result = .ok exe := hok
    have hnone : (compile file n.program).failure? = none := by simp [Compilation.failure?, hok']
    exact ⟨⟨fun _ => h, fun _ => hnone⟩, fun _ => n.argument.run_prints file hprints,
      fun hsome => absurd hnone hsome⟩
  · obtain ⟨hsome, hreport⟩ := n.compile_exceeds file h
    exact ⟨⟨fun hnone => absurd hnone hsome, fun hle => absurd hle h⟩,
      fun hnone => absurd hnone hsome, fun _ => ⟨_, hreport, rfl⟩⟩

/-- The least int, with zeros before it. -/
def leastInt : WholeNumber where
  negative := true
  digits := ['0', '0', '2', '1', '4', '7', '4', '8', '3', '6', '4', '8']
  mark := none
  isDigits := by simp [Digits, Char.isDigit]
  nonempty := by decide
  isMark := by simp

/-- What the least int prints is its numeral; the same digits without the minus are out of range. -/
theorem print_round_trip_leastInt :
    leastInt.program = "println(-002147483648);" ∧
      (∃ fuel r, (compile "" leastInt.program).run 0 fuel = some r ∧ r.failure? = none ∧
        r.output = "-2147483648\n") ∧
      ∃ d, (compile "" { leastInt with negative := false }.program).diagnostics = [d] ∧
        d.problem.cause = .intRange := by
  have hleast := print_round_trip leastInt ""
  have hbare := print_round_trip { leastInt with negative := false } ""
  refine ⟨by decide, ?_, hbare.2.2 fun hnone => ?_⟩
  · exact hleast.2.1 (hleast.1.2 (by decide))
  · exact absurd (hbare.1.1 hnone) (by decide)

end WholeNumber

end Jminus
