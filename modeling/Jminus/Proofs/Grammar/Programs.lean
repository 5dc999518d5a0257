import Jminus.Proofs.Grammar.Complete
import Jminus.Proofs.Grammar.Local
import Jminus.Proofs.Lines
import Mathlib

/-!
A program is read in turns. A turn reads one statement and appends it, or reports what is wrong with
it and drops tokens up to a place where a statement may start again.

Every turn takes a token and none looks behind the end of file, so there are finitely many and the
last one leaves the end of file. Statements that are read without complaint take no part in what is
read behind them.
-/
namespace Jminus.Parser

open Grammar

/-- The tokens end with their only end of file. -/
def Terminated (ts : List Token) : Prop :=
  ∃ us eof, ts = us ++ [eof] ∧ eof.kind = .eof ∧ ∀ u ∈ us, u.kind ≠ .eof

/-- One statement at the top level: the tokens before it and after it, and what it adds to the
statements and to the reports. -/
structure Turn where
  before : List Token
  stmts : List Stmt
  diagnostics : List Diagnostic
  after : List Token

def turn (ts : List Token) : Turn :=
  match blockStatement ts with
  | .ok ⟨first, rest, _⟩ => ⟨ts, first, [], rest⟩
  | .error f => ⟨ts, [], [f.diagnostic], afterFailure ts f⟩

/-- The turns from the tokens on, up to an end of file, and the tokens that are left there. -/
inductive Turns : List Token → List Turn → List Token → Prop
  | done {ts : List Token} (h : nextKind ts = .eof) : Turns ts [] ts
  | next {ts last : List Token} {more : List Turn} (h : nextKind ts ≠ .eof)
    (hmore : Turns (turn ts).after more last) : Turns ts (turn ts :: more) last

/-- A turn takes at least one token and leaves the end of file. It reads statements or it reports
one error, at a token that is there, and it is the same whatever stands behind the end of file. -/
structure Turn.Regular (eof : Token) (t : Turn) : Prop where
  takes : ∃ read left, read ≠ [] ∧ t.before = read ++ t.after ∧ t.after = left ++ [eof]
  outcome : (t.stmts ≠ [] ∧ t.diagnostics = []) ∨
    (t.stmts = [] ∧ ∃ d, t.diagnostics = [d] ∧ d.phase = .syntactic ∧ d.severity = .error)
  inside : ∀ f, blockStatement t.before = .error f → 0 < f.left ∧ f.left ≤ t.before.length
  unseen : ∀ more, turn (t.before ++ more) =
    { t with before := t.before ++ more, after := t.after ++ more }

section Recovery

variable {ts more : List Token}

/-- Tokens are dropped up to a place before the end of file, and what is behind it plays no part. -/
theorem synchronize_local (last : Kind) (h : Ended ts) :
    synchronize last (ts ++ more) = synchronize last ts ++ more ∧
      synchronize last ts <:+ ts ∧ Ended (synchronize last ts) := by
  induction ts generalizing last with
  | nil => exact absurd rfl (List.ne_nil_of_mem h.choose_spec.1)
  | cons t us ih =>
    rw [List.cons_append, synchronize, synchronize]
    split
    · exact ⟨rfl, List.suffix_refl _, h⟩
    · rename_i hgo
      have ht : t.kind ≠ .eof := fun hk => hgo (by simp [hk])
      obtain ⟨heq, hsuffix, hended⟩ := ih t.kind (h.skip ht)
      exact ⟨heq, hsuffix.trans (List.suffix_cons t us), hended⟩

theorem recover_local (h : Ended ts) :
    recover (ts ++ more) = recover ts ++ more ∧ recover ts <:+ ts ∧ Ended (recover ts) := by
  obtain ⟨t, us, rfl⟩ := h.exists_cons
  simp only [recover, List.cons_append]
  by_cases ht : t.kind = .eof
  · simp only [ht, if_true]
    exact ⟨rfl, List.suffix_refl _, h⟩
  · simp only [ht, if_false]
    obtain ⟨heq, hsuffix, hended⟩ := synchronize_local t.kind (h.skip ht)
    exact ⟨heq, hsuffix.trans (List.suffix_cons t us), hended⟩

/-- A failure tells how many tokens were left; recovery starts there. -/
theorem afterFailure_eq {f : Failure} {rest : List Token} (hrest : rest <:+ ts)
    (hleft : f.left = rest.length) : afterFailure ts f = recover rest := by
  obtain ⟨read, rfl⟩ := hrest
  rw [afterFailure, hleft, List.length_append, Nat.add_sub_cancel, List.drop_left]

end Recovery

section Turns

variable {ts us more : List Token} {eof : Token}

/-- What is left of the tokens and has an end of file in it has the one at the end. -/
theorem Ended.exists_append (h : Ended us) (hus : us <:+ ts ++ [eof]) :
    ∃ left, us = left ++ [eof] := by
  obtain ⟨read, hread⟩ := hus
  rcases List.eq_nil_or_concat us with rfl | ⟨left, last, rfl⟩
  · exact absurd rfl (List.ne_nil_of_mem h.choose_spec.1)
  · rw [List.concat_eq_append, ← List.append_assoc] at hread
    obtain ⟨_, hlast⟩ := List.append_inj' hread rfl
    rw [List.concat_eq_append, List.singleton_inj.1 hlast]
    exact ⟨left, rfl⟩

/-- A program is its first turn and the program behind that. -/
theorem program_turn (h : nextKind ts ≠ .eof) :
    program ts = ((turn ts).stmts ++ (program (turn ts).after).1,
      (turn ts).diagnostics ++ (program (turn ts).after).2) := by
  match ts with
  | [] => exact absurd rfl h
  | t :: us =>
    have ht : t.kind ≠ .eof := h
    rw [program.eq_def, turn]
    simp only [ht, dite_false]
    cases blockStatement (t :: us) with
    | ok => rfl
    | error => rfl

/-- A turn reads no further than an end of file and leaves it. -/
theorem turn_local (h : Ended ts) (more : List Token) :
    turn (ts ++ more) =
        { turn ts with before := ts ++ more, after := (turn ts).after ++ more } ∧
      (turn ts).after <:+ ts ∧ Ended (turn ts).after := by
  have hread : Alike ts more _ _ := blockStatement_alike h
  unfold turn
  generalize blockStatement ts = x at hread ⊢
  generalize blockStatement (ts ++ more) = x' at hread ⊢
  cases hread with
  | read first _ _ hrest hended => exact ⟨rfl, hrest, hended⟩
  | @failed rest p line hrest hended =>
    have hrest' : rest ++ more <:+ ts ++ more := by
      obtain ⟨read, rfl⟩ := hrest
      exact ⟨read, (List.append_assoc ..).symm⟩
    obtain ⟨_, hsuffix, hleft⟩ := @recover_local rest more hended
    dsimp only
    rw [afterFailure_eq hrest rfl, afterFailure_eq hrest' rfl, (recover_local hended).1]
    exact ⟨rfl, hsuffix.trans hrest, hleft⟩

/-- Every turn takes a token. -/
theorem turn_length (h : nextKind ts ≠ .eof) : (turn ts).after.length < ts.length := by
  match ts with
  | [] => exact absurd rfl h
  | t :: us =>
    have ht : t.kind ≠ .eof := h
    unfold turn
    cases blockStatement (t :: us) with
    | ok first => exact first.less
    | error f => exact afterFailure_length f ht

/-- Statements or one report, never both and never neither. -/
theorem turn_outcome (ts : List Token) :
    ((turn ts).stmts ≠ [] ∧ (turn ts).diagnostics = []) ∨
      ((turn ts).stmts = [] ∧
        ∃ d, (turn ts).diagnostics = [d] ∧ d.phase = .syntactic ∧ d.severity = .error) := by
  unfold turn
  cases hread : blockStatement ts with
  | ok first =>
    obtain ⟨us, _, hphrase⟩ := blockStatement_sound ⟨first.less, hread⟩
    exact .inl ⟨hphrase.ne_nil, rfl⟩
  | error f => exact .inr ⟨rfl, f.diagnostic, rfl, rfl, rfl⟩

/-- A failure is at a token that is there. -/
theorem failure_inside (h : Ended ts) {f : Failure} (hf : blockStatement ts = .error f) :
    0 < f.left ∧ f.left ≤ ts.length := by
  have hread : Alike ts [] _ _ := blockStatement_alike h
  rw [hf] at hread
  generalize blockStatement (ts ++ []) = x' at hread
  cases hread with
  | failed p line hrest hended =>
    obtain ⟨t, us, rfl⟩ := hended.exists_cons
    exact ⟨Nat.succ_pos _, hrest.length_le⟩

theorem turn_before (ts : List Token) : (turn ts).before = ts := by
  unfold turn
  split <;> rfl

/-- Every turn before the end of file is regular. -/
theorem turn_regular (heof : eof.kind = .eof) (h : nextKind (ts ++ [eof]) ≠ .eof) :
    (turn (ts ++ [eof])).Regular eof := by
  have hended : Ended (ts ++ [eof]) := ⟨eof, List.mem_append_right _ List.mem_cons_self, heof⟩
  obtain ⟨_, ⟨read, hread⟩, hleft⟩ := turn_local hended []
  obtain ⟨left, hafter⟩ := hleft.exists_append ⟨read, hread⟩
  refine ⟨⟨read, left, ?_, ?_, hafter⟩, turn_outcome _, fun f hf => ?_, fun more => ?_⟩
  · rintro rfl
    have hless := turn_length h
    rw [List.nil_append] at hread
    rw [hread] at hless
    exact Nat.lt_irrefl _ hless
  · rw [turn_before, hread]
  · rw [turn_before] at hf ⊢
    exact failure_inside hended hf
  · rw [turn_before]
    exact (turn_local hended more).1

/-- The turns of a program end at its end of file, and what it says is what they say. -/
theorem exists_turns (ts : List Token) (heof : eof.kind = .eof) (hts : ∀ t ∈ ts, t.kind ≠ .eof) :
    ∃ turns, Turns (ts ++ [eof]) turns [eof] ∧ (∀ t ∈ turns, t.Regular eof) ∧
      program (ts ++ [eof]) = (turns.flatMap (·.stmts), turns.flatMap (·.diagnostics)) := by
  match ts with
  | [] => exact ⟨[], .done heof, List.forall_mem_nil _, program_eof heof []⟩
  | t :: us =>
    have hgo : nextKind (t :: us ++ [eof]) ≠ .eof := hts t List.mem_cons_self
    have hregular := turn_regular heof hgo
    obtain ⟨read, left, hread, hbefore, hafter⟩ := hregular.takes
    rw [turn_before, hafter, ← List.append_assoc] at hbefore
    have hsplit : t :: us = read ++ left := List.append_cancel_right hbefore
    have hless : left.length < (t :: us).length := by
      rw [hsplit, List.length_append]
      exact Nat.lt_add_of_pos_left (List.length_pos_iff.2 hread)
    obtain ⟨turns, hturns, hall, hprogram⟩ := exists_turns left heof fun u hu =>
      hts u (hsplit ▸ List.mem_append_right read hu)
    rw [← hafter] at hturns hprogram
    refine ⟨turn (t :: us ++ [eof]) :: turns, .next hgo hturns, ?_, ?_⟩
    · exact List.forall_mem_cons.2 ⟨hregular, hall⟩
    · rw [program_turn hgo, hprogram]
      rfl
termination_by ts.length
decreasing_by exact hless

end Turns

/-- A text always ends with the only end of file in it, errors or not. -/
theorem scan_terminated (source : String) : Terminated (Lexer.scan source).tokens := by
  have hfrom : ∀ cur, Terminated (Lexer.scanFrom cur).tokens := by
    intro cur
    fun_induction Lexer.scanFrom cur with
    | case1 cur found hend => exact ⟨[], found.token, rfl, hend, List.forall_mem_nil _⟩
    | case2 cur found hgo more ih =>
      obtain ⟨us, eof, htokens, heof, hus⟩ := ih
      exact ⟨found.token :: us, eof, congrArg (found.token :: ·) htokens, heof,
        List.forall_mem_cons.2 ⟨hgo, hus⟩⟩
  exact hfrom _

/-- Reading always ends, and inside the tokens. The tokens of any text end with their only end of
file; on tokens that do, the program is what finitely many turns add up to. The last of them leaves
the end of file. Each takes a token, adds statements or exactly one syntax error, and looks at
nothing behind the end of file. -/
theorem program_in_turns :
    (∀ source, Terminated (Lexer.scan source).tokens) ∧
      ∀ tokens, Terminated tokens → ∃ turns eof, eof.kind = .eof ∧ Turns tokens turns [eof] ∧
        (∀ t ∈ turns, t.Regular eof) ∧
        program tokens = (turns.flatMap (·.stmts), turns.flatMap (·.diagnostics)) := by
  refine ⟨scan_terminated, fun tokens h => ?_⟩
  obtain ⟨us, eof, rfl, heof, hus⟩ := h
  obtain ⟨turns, hturns, hall, hprogram⟩ := exists_turns us heof hus
  exact ⟨turns, eof, heof, hturns, hall, hprogram⟩

def garbage : List Token :=
  [.rightCurly, .kwElse, .semi, .kwInt, .leftParen, .kwCatch].map fun k =>
    { kind := k, lexeme := "a", line := 1 }

/-- Tokens that make no statement at all are read in turns too. -/
theorem program_in_turns_garbage :
    Terminated (garbage ++ [endOfFile]) ∧
      ∃ turns eof, eof.kind = .eof ∧ Turns (garbage ++ [endOfFile]) turns [eof] ∧
        (∀ t ∈ turns, t.Regular eof) ∧
        program (garbage ++ [endOfFile]) =
          (turns.flatMap (·.stmts), turns.flatMap (·.diagnostics)) :=
  have h : Terminated (garbage ++ [endOfFile]) := ⟨garbage, endOfFile, rfl, rfl, by decide⟩
  ⟨h, program_in_turns.2 _ h⟩

/-- Programs are read piece by piece. Tokens that are read without complaint give the same
statements whatever is put behind them, and what is put behind them is read as it is alone, its
reports included. Only a clause that could belong to their last statement must not come next. -/
theorem program_append (ts₁ ts₂ : List Token) (eof₁ eof₂ : Token) (heof₁ : eof₁.kind = .eof)
    (heof₂ : eof₂.kind = .eof) (hts₁ : ∀ t ∈ ts₁, t.kind ≠ .eof)
    (hread : (program (ts₁ ++ [eof₁])).2 = [])
    (hstart : ∀ t ∈ ts₂.head?, t.kind ≠ .kwElse ∧ t.kind ≠ .kwCatch ∧ t.kind ≠ .kwFinally) :
    program (ts₁ ++ ts₂ ++ [eof₂]) =
      ((program (ts₁ ++ [eof₁])).1 ++ (program (ts₂ ++ [eof₂])).1,
        (program (ts₂ ++ [eof₂])).2) := by
  have hstatements : Statements ts₁ (program (ts₁ ++ [eof₁])).1 :=
    program_sound heof₁ hts₁ (Prod.ext rfl hread)
  have hends : endsStatement (nextKind (ts₂ ++ [eof₂])) = true := by
    match ts₂ with
    | [] =>
      rw [List.nil_append, nextKind_cons, heof₂]
      rfl
    | t :: us =>
      obtain ⟨helse, hcatch, hfinally⟩ := hstart t rfl
      simp [endsStatement, nextKind_cons, helse, hcatch, hfinally]
  rw [List.append_assoc, hstatements.program_before hends]

/-- `if (a) ;`, token by token: an else could follow. -/
def openIf : List Token :=
  [.kwIf, .leftParen, .identifier, .rightParen, .semi].map fun k =>
    { kind := k, lexeme := "a", line := 1 }

/-- What follows a statement that could go on does not change it, if it starts afresh. -/
theorem program_append_garbage :
    program (openIf ++ [endOfFile]) = ([.ifElse 1 (.var ⟨"a", 1⟩) .empty none], []) ∧
      program (openIf ++ garbage ++ [endOfFile]) =
        ((program (openIf ++ [endOfFile])).1 ++ (program (garbage ++ [endOfFile])).1,
          (program (garbage ++ [endOfFile])).2) := by
  have hcond : Parenthesized ((openIf.drop 1).take 3) (.var ⟨"a", 1⟩) :=
    .mk rfl (.conditional (Primary.conditional (.var rfl))) rfl
  have hopen : Statements openIf [.ifElse 1 (.var ⟨"a", 1⟩) .empty none] :=
    .cons (.statement (.ifThen rfl hcond (.empty rfl))) .nil
  have hread : program (openIf ++ [endOfFile]) = _ := hopen.program rfl
  refine ⟨hread, ?_⟩
  exact program_append openIf garbage endOfFile endOfFile rfl rfl (by decide) (by rw [hread])
    (by decide)

end Jminus.Parser
