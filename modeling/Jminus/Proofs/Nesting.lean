import Jminus.Proofs.Compilation
import Jminus.Proofs.Parts
import Mathlib

/-!
The table of handlers is in the order of nesting.

Of two entries whose ranges meet, the earlier one has the smaller range. The entries of a part of
some code lie in that part, so parts that follow one another have nothing to do with each other; the
only entries that reach over several parts are those of a try statement, and they come behind the
entries of what they cover.
-/
namespace Jminus

open Machine (handlerFor? accepts)

def Listing.Bounds (prog : Listing) (start stop : Label) (first last : Nat) : Prop :=
  prog.place? start = some first ∧ prog.place? stop = some last

/-- If the first range has a place in common with the second, it lies in it. -/
def Listing.Under (prog : Listing) (start stop start' stop' : Label) : Prop :=
  ∀ first last first' last', prog.Bounds start stop first last →
    prog.Bounds start' stop' first' last' →
    (∃ p, (first ≤ p ∧ p < last) ∧ first' ≤ p ∧ p < last') → first' ≤ first ∧ last ≤ last'

namespace Listing

variable {prog : Listing} {start stop start' stop' : Label} {a b c d : Nat}

theorem Bounds.unique (h : prog.Bounds start stop a b) (h' : prog.Bounds start stop c d) :
    c = a ∧ d = b := by
  cases h.1.symm.trans h'.1
  cases h.2.symm.trans h'.2
  exact ⟨rfl, rfl⟩

/-- Ranges that follow one another, and ranges one in the other. -/
theorem under_of_bounds (h : prog.Bounds start stop a b) (h' : prog.Bounds start' stop' c d)
    (hplaces : b ≤ c ∨ d ≤ a ∨ (c ≤ a ∧ b ≤ d)) : prog.Under start stop start' stop' := by
  rintro first last first' last' hr hr' ⟨p, hp⟩
  obtain ⟨rfl, rfl⟩ := h.unique hr
  obtain ⟨rfl, rfl⟩ := h'.unique hr'
  omega

theorem within_of_bounds (h : prog.Bounds start stop a b) {p : Nat} :
    prog.within start stop p = true ↔ a ≤ p ∧ p < b := by
  rw [within_eq h.1 h.2, Bool.and_eq_true, decide_eq_true_eq, decide_eq_true_eq]

end Listing

/-- Entries with ranges between places for which `P` holds. -/
def Ranges (prog : Listing) (P : Nat → Nat → Prop) (hs : List Handler) : Prop :=
  ∀ h ∈ hs, ∃ first last, prog.Bounds h.start h.stop first last ∧ P first last

/-- Of two entries whose ranges meet, the earlier one has the smaller range. -/
abbrev Nested (prog : Listing) (hs : List Handler) : Prop :=
  hs.Pairwise fun h k => prog.Under h.start h.stop k.start k.stop

section Entries

variable {prog : Listing} {P Q : Nat → Nat → Prop} {hs mid ks : List Handler}

theorem Ranges.mono (h : Ranges prog P hs) (hPQ : ∀ ⦃first last⦄, P first last → Q first last) :
    Ranges prog Q hs := by
  intro k hk
  obtain ⟨first, last, hb, hP⟩ := h k hk
  exact ⟨first, last, hb, hPQ hP⟩

theorem Ranges.append (h : Ranges prog P hs) (h' : Ranges prog P ks) : Ranges prog P (hs ++ ks) :=
  List.forall_mem_append.2 ⟨h, h'⟩

theorem Ranges.one {start stop : Label} {first last : Nat}
    (h : prog.Bounds start stop first last) (handler : Label) (type : String) :
    Ranges prog (fun a b => a = first ∧ b = last) [⟨start, stop, handler, type⟩] := by
  intro k hk
  obtain rfl := List.mem_singleton.1 hk
  exact ⟨first, last, h, rfl, rfl⟩

/-- Ranges that lie apart or one in the other are in order. -/
theorem Ranges.under (h : Ranges prog P hs) (h' : Ranges prog Q ks)
    (hPQ : ∀ ⦃a b c d⦄, P a b → Q c d → b ≤ c ∨ d ≤ a ∨ (c ≤ a ∧ b ≤ d)) :
    ∀ k ∈ hs, ∀ k' ∈ ks, prog.Under k.start k.stop k'.start k'.stop := by
  intro k hk k' hk'
  obtain ⟨a, b, hb, hP⟩ := h k hk
  obtain ⟨c, d, hb', hQ⟩ := h' k' hk'
  exact Listing.under_of_bounds hb hb' (hPQ hP hQ)

/-- Lists in order may follow each other if the ranges of the second are not the smaller ones. -/
theorem Nested.append (hhs : Nested prog hs) (hks : Nested prog ks) (h : Ranges prog P hs)
    (h' : Ranges prog Q ks) (hPQ : ∀ ⦃a b c d⦄, P a b → Q c d → b ≤ c ∨ d ≤ a ∨ (c ≤ a ∧ b ≤ d)) :
    Nested prog (hs ++ ks) :=
  List.pairwise_append.2 ⟨hhs, hks, h.under h' hPQ⟩

theorem Nested.one (k : Handler) : Nested prog [k] := List.pairwise_singleton _ k

/-- Entries between others. -/
theorem Nested.insert (h : Nested prog (hs ++ ks)) (hmid : Nested prog mid)
    (hbefore : ∀ k ∈ hs, ∀ k' ∈ mid, prog.Under k.start k.stop k'.start k'.stop)
    (hbehind : ∀ k ∈ mid, ∀ k' ∈ ks, prog.Under k.start k.stop k'.start k'.stop) :
    Nested prog (hs ++ (mid ++ ks)) := by
  obtain ⟨hhs, hks, hacross⟩ := List.pairwise_append.1 h
  refine List.pairwise_append.2 ⟨hhs, List.pairwise_append.2 ⟨hmid, hks, hbehind⟩, fun k hk => ?_⟩
  exact List.forall_mem_append.2 ⟨hbefore k hk, hacross k hk⟩

end Entries

/-- The handlers of some code that starts at `lo` are at instructions of the code. -/
def Aimed (prog : Listing) (lo : Nat) (code : Code) : Prop :=
  ∀ h ∈ code.handlers, ∃ q, prog.place? h.handler = some q ∧ lo ≤ q ∧ q < lo + code.size

namespace Aimed

variable {prog : Listing} {lo : Nat} {a b : Code}

theorem quiet (h : a.handlers = []) : Aimed prog lo a := by
  intro k hk
  rw [h] at hk
  cases hk

theorem widen (h : Aimed prog lo a) {lo' hi' : Nat} (hlo : lo' ≤ lo) (hhi : lo + a.size ≤ hi') :
    ∀ k ∈ a.handlers, ∃ q, prog.place? k.handler = some q ∧ lo' ≤ q ∧ q < hi' := by
  intro k hk
  obtain ⟨q, hq, hlo, hhi⟩ := h k hk
  exact ⟨q, hq, by omega, by omega⟩

/-- The handlers of code are at its instructions if those of its parts are. -/
theorem append (ha : Aimed prog lo a) (hb : Aimed prog (lo + a.size) b) :
    Aimed prog lo (a ++ b) := by
  rw [Aimed, Code.handlers_append, Code.size_append]
  exact List.forall_mem_append.2 ⟨ha.widen le_rfl (by omega), hb.widen (by omega) (by omega)⟩

end Aimed

/-- The entries of some code that starts at `lo` are in order: their ranges are ranges of the code,
and of two that meet the earlier one is the smaller. -/
structure Ordered (prog : Listing) (lo : Nat) (code : Code) : Prop where
  bounds : Ranges prog (fun first last => lo ≤ first ∧ first ≤ last ∧ last ≤ lo + code.size)
    code.handlers
  aimed : Aimed prog lo code
  nested : Nested prog code.handlers

namespace Ordered

variable {prog : Listing} {lo : Nat} {a b : Code}

theorem quiet (h : a.handlers = []) : Ordered prog lo a :=
  ⟨by simp [h, Ranges], .quiet h, by simp [h]⟩

/-- Code is in order if its parts are. -/
theorem append (ha : Ordered prog lo a) (hb : Ordered prog (lo + a.size) b) :
    Ordered prog lo (a ++ b) := by
  refine ⟨?_, ha.aimed.append hb.aimed, ?_⟩
  · rw [Code.handlers_append, Code.size_append]
    exact (ha.bounds.mono fun _ _ h => by omega).append (hb.bounds.mono fun _ _ h => by omega)
  · rw [Code.handlers_append]
    exact ha.nested.append hb.nested ha.bounds hb.bounds fun _ _ _ _ h h' => by omega

end Ordered

namespace Checked

open Code

abbrev Orderly (g : Gen Code) : Prop :=
  Makes (fun code => ∀ ⦃prog : Listing⦄ ⦃lo : Nat⦄, code.At prog lo → Ordered prog lo code) g

theorem Orderly.quiet {g : Gen Code} (h : Quiet g) : Orderly g :=
  fun _ _ _ hg _ _ _ => .quiet (h hg)

/-- One part behind another. -/
theorem ordered_append {prog : Listing} {lo : Nat} {a b : Code}
    (ha : a.At prog lo → Ordered prog lo a)
    (hb : b.At prog (lo + a.size) → Ordered prog (lo + a.size) b) (hat : (a ++ b).At prog lo) :
    Ordered prog lo (a ++ b) :=
  (ha (at_append.1 hat).1).append (hb (at_append.1 hat).2)

def Caught.entry (handler : Label) (c : Caught) : Handler := ⟨c.start, c.stop, handler, ""⟩

/-- What the code of catch clauses has to do with their try block, which is from `t₀` to `t₁`: an
entry covers the try block, or it lies in the code. The catch blocks are to be covered by entries
behind those. -/
structure Catching (prog : Listing) (t₀ t₁ lo : Nat) (code : Code) (caught : List Caught) :
    Prop where
  bounds : Ranges prog (fun first last => first ≤ last ∧
    (first = t₀ ∧ last = t₁ ∨ lo ≤ first ∧ last ≤ lo + code.size)) code.handlers
  aimed : Aimed prog lo code
  spans : ∀ l, Ranges prog (fun first last => lo ≤ first ∧ first ≤ last ∧ last ≤ lo + code.size)
    (caught.map (Caught.entry l))
  nested : ∀ l, Nested prog (code.handlers ++ caught.map (Caught.entry l))

section Try

variable {prog : Listing} {t₀ t₁ lo : Nat}

variable {start stop last : Label} {a f c : Code} {caught : List Caught}

/-- A clause has its own entry for the try block, and its block lies behind. -/
theorem catch_catching {tryStart tryEnd : Label} {param : Local} {more : List Caught}
    (htry : prog.Bounds tryStart tryEnd t₀ t₁) (hle : t₀ ≤ t₁) (hbehind : t₁ ≤ lo)
    (hstart : prog.place? start = some lo) (hstop : prog.place? stop = some (lo + 1 + a.size))
    (ha : Ordered prog (lo + 1) a) (hf : Ordered prog (lo + 1 + a.size) f)
    (hc : Catching prog t₀ t₁ (lo + 1 + a.size + f.size + 1) c more) :
    Catching prog t₀ t₁ lo ([Item.label start, store param.type.cell param.slot] ++ a ++
      [Item.label stop] ++ f ++ [goto last, .handler ⟨tryStart, tryEnd, start, param.type.path⟩] ++ c)
      (⟨start, stop⟩ :: more) := by
  have hsize : Code.size ([Item.label start, store param.type.cell param.slot] ++ a ++
      [Item.label stop] ++ f ++ [goto last, .handler ⟨tryStart, tryEnd, start, param.type.path⟩] ++ c) =
        1 + a.size + f.size + 1 + c.size := by
    simp [Nat.add_assoc]
  have hhandlers : Code.handlers ([Item.label start, store param.type.cell param.slot] ++ a ++
      [Item.label stop] ++ f ++ [goto last, .handler ⟨tryStart, tryEnd, start, param.type.path⟩] ++ c) =
        a.handlers ++ (f.handlers ++ ([⟨tryStart, tryEnd, start, param.type.path⟩] ++ c.handlers)) := by
    simp [goto, store]
  have hentry := Ranges.one htry start param.type.path
  have hself := Ranges.one (⟨hstart, hstop⟩ : prog.Bounds start stop lo (lo + 1 + a.size))
  refine ⟨?_, ?_, fun l => ?_, fun l => ?_⟩
  · rw [hhandlers, hsize]
    exact (ha.bounds.mono fun _ _ h => by omega).append ((hf.bounds.mono fun _ _ h => by omega).append
      ((hentry.mono fun _ _ h => by omega).append (hc.bounds.mono fun _ _ h => by omega)))
  · rw [Aimed, hhandlers, hsize]
    simp only [List.forall_mem_append, List.forall_mem_singleton]
    exact ⟨ha.aimed.widen (by omega) (by omega), hf.aimed.widen (by omega) (by omega),
      ⟨lo, hstart, le_rfl, by omega⟩, hc.aimed.widen (by omega) (by omega)⟩
  · rw [hsize]
    exact ((hself l "").mono fun _ _ h => by omega).append ((hc.spans l).mono fun _ _ h => by omega)
  · -- the catch block is behind its own entries and those of the try block, before all others
    have hrest : Ranges prog (fun first last => first ≤ last ∧ (first = t₀ ∧ last = t₁ ∨
        first = lo ∧ last = lo + 1 + a.size ∨ lo + 1 + a.size + f.size + 1 ≤ first))
        (c.handlers ++ ([Caught.entry l ⟨start, stop⟩] ++ more.map (Caught.entry l))) :=
      (hc.bounds.mono fun _ _ h => by omega).append (((hself l "").mono fun _ _ h => by omega).append
        ((hc.spans l).mono fun _ _ h => by omega))
    have hmore : Nested prog (c.handlers ++ ([Caught.entry l ⟨start, stop⟩] ++
        more.map (Caught.entry l))) :=
      (hc.nested l).insert (.one _)
        (hc.bounds.under (hself l "") fun _ _ _ _ h h' => by omega)
        ((hself l "").under (hc.spans l) fun _ _ _ _ h h' => by omega)
    have hentries := (Nested.one _).append hmore hentry hrest
      fun _ _ _ _ h h' => by omega
    have hcopy := hf.nested.append hentries hf.bounds
      ((hentry.mono fun _ _ h => by omega).append hrest) fun _ _ _ _ h h' => by omega
    have hlater : Ranges prog (fun first last => first ≤ last ∧ (first = t₀ ∧ last = t₁ ∨
        first = lo ∧ last = lo + 1 + a.size ∨ lo + 1 + a.size ≤ first)) _ :=
      (hf.bounds.mono fun _ _ h => by omega).append ((hentry.mono fun _ _ h => by omega).append
        (hrest.mono fun _ _ h => by omega))
    rw [hhandlers]
    simpa using ha.nested.append hcopy ha.bounds hlater fun _ _ _ _ h h' => by omega

/-- The code of a finally clause that delays exceptions: its entries cover the try block, the catch
blocks and its own first instruction, and nothing of the copy. -/
theorem Catching.delay {handler aside : Label} {slot : Nat} {g : Code}
    (hc : Catching prog t₀ t₁ lo c caught) (htry : prog.Bounds start stop t₀ t₁) (hle : t₀ ≤ t₁)
    (hbehind : t₁ ≤ lo) (hself : prog.Bounds handler aside (lo + c.size) (lo + c.size + 1))
    (hg : Ordered prog (lo + c.size + 1) g) {d : Code} (haimed : Aimed prog (lo + c.size) d)
    (hd : d = [.label handler, store .ref slot, .label aside] ++ g ++ [load .ref slot, op .athrow] ++
      (⟨start, stop⟩ :: caught ++ [⟨handler, aside⟩] : List Caught).map (delays handler)) :
    Catching prog t₀ t₁ lo (c ++ d) [] := by
  have hhandlers : Code.handlers (c ++ d) = c.handlers ++ (g.handlers ++
      [Caught.entry handler ⟨start, stop⟩] ++ caught.map (Caught.entry handler)) ++
      [Caught.entry handler ⟨handler, aside⟩] := by
    simp only [hd, Code.handlers_append, handlers_delays]
    simp [load, store, op, Caught.entry]
  have hsize : lo + c.size + 1 + g.size ≤ lo + Code.size (c ++ d) := by
    rw [hd]
    simp
    omega
  have hentry := Ranges.one htry handler ""
  have hlast := Ranges.one hself handler ""
  have hall : Ranges prog (fun first last => first ≤ last ∧ (last ≤ lo + c.size ∧
      (first = t₀ ∧ last = t₁ ∨ lo ≤ first) ∨ lo + c.size + 1 ≤ first ∧
      last ≤ lo + c.size + 1 + g.size)) (c.handlers ++ (g.handlers ++
      [Caught.entry handler ⟨start, stop⟩] ++ caught.map (Caught.entry handler))) :=
    (hc.bounds.mono fun _ _ h => by omega).append (((hg.bounds.mono fun _ _ h => by omega).append
      (hentry.mono fun _ _ h => by omega)).append ((hc.spans handler).mono fun _ _ h => by omega))
  refine ⟨?_, hc.aimed.append haimed, by simp [Ranges], fun l => ?_⟩
  · rw [hhandlers]
    exact (hall.mono fun _ _ h => by omega).append (hlast.mono fun _ _ h => by omega)
  · have hbody := hg.nested.append (.one _) hg.bounds hentry fun _ _ _ _ h h' => by omega
    have hranges : Ranges prog (fun first last => first ≤ last ∧ (lo + c.size + 1 ≤ first ∨
        first = t₀ ∧ last = t₁)) (g.handlers ++ [Caught.entry handler ⟨start, stop⟩]) :=
      (hg.bounds.mono fun _ _ h => by omega).append (hentry.mono fun _ _ h => by omega)
    have hmid := (hc.nested handler).insert hbody
      (hc.bounds.under hranges fun _ _ _ _ h h' => by omega)
      (hranges.under (hc.spans handler) fun _ _ _ _ h h' => by omega)
    rw [hhandlers, List.map_nil, List.append_nil]
    exact hmid.append (.one _) hall hlast fun _ _ _ _ h h' => by omega

/-- A try statement, where the code of the handlers may include what delays exceptions. -/
theorem try_ordered (ha : Ordered prog lo a) (hf : Ordered prog (lo + a.size) f)
    (hc : Catching prog lo (lo + a.size) (lo + a.size + f.size + 1) c []) :
    Ordered prog lo ([Item.label start] ++ a ++ [Item.label stop] ++ f ++ [goto last] ++ c ++
      [Item.label last]) := by
  have hsize : Code.size ([Item.label start] ++ a ++ [Item.label stop] ++ f ++ [goto last] ++ c ++
      [Item.label last]) = a.size + f.size + 1 + c.size := by
    simp [Nat.add_assoc]
  have hhandlers : Code.handlers ([Item.label start] ++ a ++ [Item.label stop] ++ f ++
      [goto last] ++ c ++ [Item.label last]) = a.handlers ++ (f.handlers ++ c.handlers) := by
    simp [goto]
  refine ⟨?_, ?_, ?_⟩
  · rw [hhandlers, hsize]
    exact (ha.bounds.mono fun _ _ h => by omega).append ((hf.bounds.mono fun _ _ h => by omega).append
      (hc.bounds.mono fun _ _ h => by omega))
  · rw [Aimed, hhandlers, hsize]
    simp only [List.forall_mem_append]
    exact ⟨ha.aimed.widen (by omega) (by omega), hf.aimed.widen (by omega) (by omega),
      hc.aimed.widen (by omega) (by omega)⟩
  · have hclauses : Nested prog c.handlers := by simpa using hc.nested last
    have hbehind : Ranges prog (fun first last => first ≤ last ∧ (first = lo ∧ last = lo + a.size ∨
        lo + a.size ≤ first)) (f.handlers ++ c.handlers) :=
      (hf.bounds.mono fun _ _ h => by omega).append (hc.bounds.mono fun _ _ h => by omega)
    rw [hhandlers]
    exact ha.nested.append (hf.nested.append hclauses hf.bounds hc.bounds fun _ _ _ _ h h' => by omega)
      ha.bounds hbehind fun _ _ _ _ h h' => by omega

end Try

def CatchesOrderly (clauses : List CatchClause) (exits : Exits) (cleanup : Gen Code) : Prop :=
  ∀ ⦃last start stop n code caught n'⦄,
    catchesCode clauses exits cleanup last start stop n = .ok ((code, caught), n') →
    ∀ ⦃prog : Listing⦄ ⦃t₀ t₁ lo : Nat⦄, code.At prog lo → prog.Bounds start stop t₀ t₁ → t₀ ≤ t₁ →
      t₁ ≤ lo → Catching prog t₀ t₁ lo code caught

theorem nil_orderly (exits : Exits) (cleanup : Gen Code) : CatchesOrderly [] exits cleanup := by
  intro last start stop n code caught n' hgen prog t₀ t₁ lo _ _ _ _
  cases hgen
  exact ⟨by simp [Ranges], .quiet rfl, by simp [Ranges], by simp⟩

variable {body : List Stmt} {exits : Exits} {cleanup : Cleanup}

theorem cons_orderly {param : Local} {clauses : List CatchClause} {cleanup : Gen Code}
    (hbody : Orderly (stmtsCode body exits)) (hcleanup : Orderly cleanup)
    (hclauses : CatchesOrderly clauses exits cleanup) :
    CatchesOrderly (.mk param body :: clauses) exits cleanup := by
  intro last start stop n code caught n' hgen prog t₀ t₁ lo hat htry hle hbehind
  obtain ⟨a, m₁, ha, f, m₂, hf, c, more, hc, rfl, rfl⟩ := catches_cons_ok.1 hgen
  simp only [at_append, at_cons, Code.size_append, Code.size_cons, Code.size_nil, Item.size_label,
    Item.size_store, Item.size_goto, Item.size_handler, Nat.add_zero, Nat.zero_add,
    ← Nat.add_assoc] at hat
  obtain ⟨⟨⟨⟨⟨⟨hstart, _⟩, hata⟩, hstop, _⟩, hatf⟩, _⟩, hatc⟩ := hat
  exact catch_catching htry hle hbehind hstart hstop (hbody ha hata) (hcleanup hf hatf)
    (hclauses hc hatc htry hle (by omega))

/-- What delays exceptions leads to its own first instruction, apart from the entries of its copy. -/
theorem delayed_aimed {start stop : Label} {caught : List Caught} {n n' lo : Nat} {d : Code}
    {prog : Listing} (hcleanup : Orderly (cleanupCode cleanup exits))
    (hd : delayed cleanup exits start stop caught n = .ok (d, n')) (hat : d.At prog lo) :
    Aimed prog lo d := by
  cases cleanup with
  | absent =>
    cases hd
    exact .quiet rfl
  | mk slot cleanup =>
    obtain ⟨g, hg, rfl⟩ := delay_ok.1 hd
    have hplaces := hat
    simp only [at_append, at_cons, Code.size_append, Code.size_cons, Code.size_nil, Item.size_label,
      Item.size_store, Nat.add_zero, Nat.zero_add, ← Nat.add_assoc] at hplaces
    obtain ⟨⟨⟨⟨hhandler, _⟩, hatg⟩, _⟩, _⟩ := hplaces
    intro k hk
    simp only [Code.size_append, Code.size_cons, Code.size_nil, Item.size_label, Item.size_store]
    simp only [Code.handlers_append, List.mem_append] at hk
    rcases hk with ((hk | hk) | hk) | hk
    · cases hk
    · obtain ⟨q, hq, hlo, hhi⟩ := (hcleanup hg hatg).aimed k hk
      exact ⟨q, hq, by omega, by omega⟩
    · cases hk
    · rw [handlers_delays] at hk
      obtain ⟨r, _, rfl⟩ := List.mem_map.1 hk
      exact ⟨lo, hhandler, le_rfl, by omega⟩

/-- A try statement is in order if its parts are. -/
theorem tryCatch_orderly {catches : List CatchClause} (hbody : Orderly (stmtsCode body exits))
    (hcatches : CatchesOrderly catches exits (cleanupCode cleanup exits))
    (hcleanup : Orderly (cleanupCode cleanup exits)) :
    Orderly (stmtCode (.tryCatch body catches cleanup) exits) := by
  intro n code n' hgen prog lo hat
  obtain ⟨a, m₁, ha, f, m₂, hf, c, caught, m₃, hc, d, hd, rfl⟩ := try_ok.1 hgen
  have hplaces := hat
  simp only [at_append, at_cons, Code.size_append, Code.size_cons, Code.size_nil, Item.size_label,
    Item.size_goto, Nat.add_zero, Nat.zero_add, ← Nat.add_assoc] at hplaces
  obtain ⟨⟨⟨⟨⟨⟨⟨⟨hstart, _⟩, hata⟩, hstop, _⟩, hatf⟩, _⟩, hatc⟩, hatd⟩, _⟩ := hplaces
  have hcatching := hcatches hc hatc ⟨hstart, hstop⟩ (by omega) (by omega)
  have haimed := delayed_aimed hcleanup hd hatd
  rw [List.append_assoc _ c d]
  refine try_ordered (hbody ha hata) (hcleanup hf hatf) ?_
  cases cleanup with
  | absent =>
    cases hd
    refine ⟨by simpa using hcatching.bounds, by simpa using hcatching.aimed, by simp [Ranges],
      fun l => ?_⟩
    simpa using (List.pairwise_append.1 (hcatching.nested l)).1
  | mk slot cleanup =>
    obtain ⟨g, hg, rfl⟩ := delay_ok.1 hd
    simp only [at_append, at_cons, Code.size_append, Code.size_cons, Code.size_nil, Item.size_label,
      Item.size_store, Nat.add_zero, Nat.zero_add, ← Nat.add_assoc] at hatd
    obtain ⟨⟨⟨⟨hhandler, _, haside, _⟩, hatg⟩, _⟩, _⟩ := hatd
    exact hcatching.delay ⟨hstart, hstop⟩ (by omega) (by omega) ⟨hhandler, haside⟩
      (hcleanup hg hatg) haimed rfl

theorem fallback_quiet (base : Nat) (groups : List SwitchGroup) (n : Nat) :
    Code.handlers (fallback base groups n).2.1 = [] := by
  unfold fallback
  split <;> rfl

theorem wayOut_quiet (frame : Frame) (n : Nat) : Code.handlers (wayOut frame n).2.1 = [] := by
  unfold wayOut
  split <;> rfl

mutual

/-- The entries of every statement are in order. -/
theorem stmtCode_orderly : ∀ (s : Stmt) (exits : Exits), Orderly (stmtCode s exits)
  | .expr e, exits => .quiet (effect_quiet e)
  | .var v none, exits => .quiet (.pure (by
    unfold zero
    split <;> rfl))
  | .var v (some init), exits => .quiet fun n code n' hgen => by
    obtain ⟨c, hc, rfl⟩ := var_ok.1 hgen
    simp [(forms_quiet init).value hc, store]
  | .block body, exits => stmtsCode_orderly body exits
  | .ifElse cond thenBranch none, exits => fun n code n' hgen prog lo => by
    obtain ⟨a, m, ha, b, hb, rfl⟩ := if_ok.1 hgen
    have hqa := (forms_quiet cond).cond _ _ ha
    exact ordered_append (ordered_append (fun _ => .quiet hqa)
      fun hat => stmtCode_orderly thenBranch exits hb hat) fun _ => .quiet rfl
  | .ifElse cond thenBranch (some elseBranch), exits => fun n code n' hgen prog lo => by
    obtain ⟨a, m, ha, b, m', hb, c, hc, rfl⟩ := ifElse_ok.1 hgen
    have hqa := (forms_quiet cond).cond _ _ ha
    exact ordered_append (ordered_append (ordered_append (ordered_append (fun _ => .quiet hqa)
      fun hat => stmtCode_orderly thenBranch exits hb hat) fun _ => .quiet rfl)
      fun hat => stmtCode_orderly elseBranch exits hc hat) fun _ => .quiet rfl
  | .whileLoop frame cond body, exits => fun n code n' hgen prog lo => by
    obtain ⟨a, m, ha, b, hb, rfl⟩ := while_ok.1 hgen
    have hqa := (forms_quiet cond).cond _ _ ha
    exact ordered_append (ordered_append (ordered_append (fun _ => .quiet rfl) fun _ => .quiet hqa)
      fun hat => stmtCode_orderly body _ hb hat) fun _ => .quiet rfl
  | .doLoop frame body cond, exits => fun n code n' hgen prog lo => by
    obtain ⟨b, m, hb, a, ha, rfl⟩ := do_ok.1 hgen
    have hqa := (forms_quiet cond).cond _ _ ha
    exact ordered_append (ordered_append (ordered_append (fun _ => .quiet rfl)
      fun hat => stmtCode_orderly body _ hb hat) fun _ => .quiet hqa) fun _ => .quiet rfl
  | .forLoop frame init cond update body, exits => fun n code n' hgen prog lo => by
    obtain ⟨i, m₁, hi, a, m₂, ha, b, m₃, hb, u, hu, rfl⟩ := for_ok.1 hgen
    have hqa : a.handlers = [] := by
      cases cond with
      | none =>
        cases ha
        rfl
      | some c => exact (forms_quiet c).cond _ _ ha
    have hqu := effects_quiet update hu
    exact ordered_append (ordered_append (ordered_append (ordered_append (ordered_append
      (ordered_append (fun hat => stmtsCode_orderly init _ hi hat) fun _ => .quiet rfl)
      fun _ => .quiet hqa) fun hat => stmtCode_orderly body _ hb hat) fun _ => .quiet rfl)
      fun _ => .quiet hqu) fun _ => .quiet rfl
  | .switch line frame subject groups, exits => fun n code n' hgen prog lo => by
    obtain ⟨a, m, ha, d, rfl, o, rfl, b, hb, rfl⟩ := switch_ok.1 hgen
    have hqa := (forms_quiet subject).value ha
    exact ordered_append (ordered_append (ordered_append (ordered_append (fun _ => .quiet hqa)
      fun _ => .quiet rfl) fun hat => groupsCode_orderly groups _ _ hb hat)
      fun _ => .quiet (fallback_quiet _ _ _)) fun _ => .quiet (wayOut_quiet _ _)
  | .brk line target, exits => .quiet (by
    unfold stmtCode
    split
    · exact .pure rfl
    · exact .throw _)
  | .cont line target, exits => .quiet (by
    unfold stmtCode
    split
    · exact .pure rfl
    · exact .throw _)
  | .ret, exits => .quiet (.pure rfl)
  | .throw value, exits => .quiet fun n code n' hgen => by
    obtain ⟨c, hc, rfl⟩ := throw_code_ok.1 hgen
    simp [(forms_quiet value).value hc, op]
  | .tryCatch body catches .absent, exits =>
    tryCatch_orderly (stmtsCode_orderly body exits)
      (catchesCode_orderly catches exits (.quiet (.pure rfl))) (.quiet (.pure rfl))
  | .tryCatch body catches (.mk slot cleanup), exits => by
    have hcleanup : Orderly (cleanupCode (.mk slot cleanup) exits) := by
      rw [cleanupCode]
      exact stmtsCode_orderly cleanup exits
    exact tryCatch_orderly (stmtsCode_orderly body exits)
      (catchesCode_orderly catches exits hcleanup) hcleanup
  | .empty, exits => .quiet (.pure rfl)

theorem stmtsCode_orderly : ∀ (ss : List Stmt) (exits : Exits), Orderly (stmtsCode ss exits)
  | [], exits => .quiet (.pure rfl)
  | s :: ss, exits => fun n code n' hgen prog lo => by
    obtain ⟨a, m, ha, b, hb, rfl⟩ := stmts_cons_ok.1 hgen
    exact ordered_append (fun hat => stmtCode_orderly s exits ha hat)
      fun hat => stmtsCode_orderly ss exits hb hat

theorem groupsCode_orderly : ∀ (groups : List SwitchGroup) (base : Nat) (exits : Exits),
    Orderly (groupsCode groups base exits)
  | [], base, exits => .quiet (.pure rfl)
  | .mk values isDefault body :: groups, base, exits => fun n code n' hgen prog lo hat => by
    obtain ⟨a, m, ha, b, hb, rfl⟩ := groups_cons_ok.1 hgen
    have hparts := at_append.1 hat
    have hlabel : Ordered prog lo ([Item.label (groupLabel base 0)] ++ a) :=
      ordered_append (fun _ => .quiet rfl) (fun hat => stmtsCode_orderly body exits ha hat) hparts.1
    exact hlabel.append (groupsCode_orderly groups (base + 1) exits hb hparts.2)

theorem catchesCode_orderly : ∀ (clauses : List CatchClause) (exits : Exits) {cleanup : Gen Code},
    Orderly cleanup → CatchesOrderly clauses exits cleanup
  | [], exits, cleanup, _ => nil_orderly exits cleanup
  | .mk _ body :: clauses, exits, _, hcleanup =>
    cons_orderly (stmtsCode_orderly body exits) hcleanup (catchesCode_orderly clauses exits hcleanup)

end

section Copies

variable {prog : Listing} {lo : Nat} {t : TryParts}

variable {k : Handler} {p : Nat}

/-- The entries of a statement cover its try block, one of its catch blocks, or the instruction that
puts an exception aside. -/
theorem TryParts.Placed.bounds (h : t.Placed prog lo) (hk : k ∈ t.entries) :
    prog.Bounds k.start k.stop lo (t.copyAt lo) ∨
      (∃ x ∈ t.clauses lo, prog.Bounds k.start k.stop x.1 (x.1 + 1 + x.2.body.size)) ∨
      prog.Bounds k.start k.stop (t.handlerAt lo) (t.delayedAt lo) := by
  rcases List.mem_append.1 hk with hk | hk
  · obtain ⟨c, _, rfl⟩ := List.mem_map.1 hk
    exact .inl ⟨h.start, h.stop⟩
  · obtain ⟨r, hr, rfl⟩ := List.mem_map.1 hk
    rcases List.mem_append.1 hr with hr | hr
    · rcases List.mem_cons.1 hr with rfl | hr
      · exact .inl ⟨h.start, h.stop⟩
      · obtain ⟨c, hc, rfl⟩ := List.mem_map.1 hr
        obtain ⟨q, hq⟩ := mem_placedFrom hc (t.catchesAt lo)
        have hplaced := h.clauses _ hq
        exact .inr (.inl ⟨_, hq, hplaced.start, hplaced.stop⟩)
    · obtain rfl := List.mem_singleton.1 hr
      exact .inr (.inr ⟨h.handler, h.aside⟩)

/-- Nothing outside the code of a statement is covered by its entries. -/
theorem TryParts.Placed.confined (h : t.Placed prog lo) (hk : k ∈ t.entries)
    (hp : p < lo ∨ t.lastAt lo ≤ p) : prog.within k.start k.stop p = false := by
  have hplaces : t.catchesAt lo = t.copyAt lo + t.copy.size + 1 ∧ t.copyAt lo = lo + t.body.size ∧
      t.handlerAt lo = t.catchesAt lo + catchesSize t.catches ∧
      t.delayedAt lo = t.handlerAt lo + 1 ∧ t.lastAt lo = t.delayedAt lo + t.delayed.size + 2 :=
    ⟨rfl, rfl, rfl, rfl, rfl⟩
  by_contra hin
  rw [Bool.not_eq_false] at hin
  obtain hb | ⟨x, hx, hb⟩ | hb := h.bounds hk
  · have := (Listing.within_of_bounds hb).1 hin
    omega
  · have := (Listing.within_of_bounds hb).1 hin
    obtain ⟨_, hlo, hhi⟩ := placedFrom_mem hx
    have hsize : x.2.size = 1 + x.2.body.size + x.2.copy.size + 1 := rfl
    omega
  · have := (Listing.within_of_bounds hb).1 hin
    omega

/-- No instruction of a copy is covered by an entry of its own statement. -/
theorem TryParts.Placed.unprotected (h : t.Placed prog lo) {copy : Nat × Code}
    (hcopy : copy ∈ t.copies lo) (hk : k ∈ t.entries) (hlo : copy.1 ≤ p)
    (hhi : p < copy.1 + copy.2.size) : prog.within k.start k.stop p = false := by
  have hplaces : t.catchesAt lo = t.copyAt lo + t.copy.size + 1 ∧ t.copyAt lo = lo + t.body.size ∧
      t.handlerAt lo = t.catchesAt lo + catchesSize t.catches ∧ t.delayedAt lo = t.handlerAt lo + 1 :=
    ⟨rfl, rfl, rfl, rfl⟩
  by_contra hin
  rw [Bool.not_eq_false] at hin
  have hsize : ∀ x : Nat × CatchPart, x.2.size = 1 + x.2.body.size + x.2.copy.size + 1 := fun _ => rfl
  -- the copy stands behind the try block, in a clause behind its block, or in the handler
  have hwhere : (copy.1 = t.copyAt lo ∧ copy.2 = t.copy) ∨
      (∃ y ∈ t.clauses lo, copy.1 = y.1 + 1 + y.2.body.size ∧ copy.2 = y.2.copy) ∨
      copy.1 = t.delayedAt lo := by
    rcases List.mem_append.1 hcopy with hc | hc
    · rcases List.mem_cons.1 hc with rfl | hc
      · exact .inl ⟨rfl, rfl⟩
      · obtain ⟨y, hy, rfl⟩ := List.mem_map.1 hc
        exact .inr (.inl ⟨y, hy, rfl, rfl⟩)
    · obtain rfl := List.mem_singleton.1 hc
      exact .inr (.inr rfl)
  obtain hb | ⟨x, hx, hb⟩ | hb := h.bounds hk
  · have hrange := (Listing.within_of_bounds hb).1 hin
    obtain ⟨hc, _⟩ | ⟨y, hy, hc, _⟩ | hc := hwhere
    · omega
    · have := placedFrom_mem hy
      omega
    · omega
  · have hrange := (Listing.within_of_bounds hb).1 hin
    have hin := placedFrom_mem hx
    have hsx := hsize x
    obtain ⟨hc, hcode⟩ | ⟨y, hy, hc, hcode⟩ | hc := hwhere
    · rw [hcode] at hhi
      omega
    · rw [hcode] at hhi
      have hsy := hsize y
      obtain rfl | hapart := placedFrom_apart hx hy
      · omega
      · omega
    · omega
  · have hrange := (Listing.within_of_bounds hb).1 hin
    obtain ⟨hc, hcode⟩ | ⟨y, hy, hc, hcode⟩ | hc := hwhere
    · rw [hcode] at hhi
      omega
    · rw [hcode] at hhi
      have hsy := hsize y
      have := placedFrom_mem hy
      omega
    · omega

theorem TryParts.entries_subset (t : TryParts) : t.entries ⊆ t.code.handlers := by
  intro k hk
  rcases List.mem_append.1 hk with hk | hk
  · obtain ⟨c, hc, rfl⟩ := List.mem_map.1 hk
    refine List.mem_filterMap.2 ⟨.handler (c.entry t.start t.stop), ?_, rfl⟩
    simp only [code, List.mem_append, List.mem_flatMap]
    exact .inl (.inl (.inr ⟨c, hc, by simp [CatchPart.code]⟩))
  · obtain ⟨r, hr, rfl⟩ := List.mem_map.1 hk
    refine List.mem_filterMap.2 ⟨delays t.handler r, ?_, rfl⟩
    simp only [code, back, List.mem_append]
    exact .inl (.inr (.inr (List.mem_map_of_mem hr)))

end Copies

end Checked

variable {prog : Listing} {cls : Class} {p : Nat}

/-- Searching the table finds the first entry that covers the place and accepts the class. -/
theorem Listing.handlerFor?_find {hs : List Handler}
    (hplaced : ∀ h ∈ hs, ∃ first last, prog.Bounds h.start h.stop first last) :
    handlerFor? prog cls p hs =
      .ok (hs.find? fun h => prog.within h.start h.stop p && accepts h cls) := by
  induction hs with
  | nil => rfl
  | cons h hs ih =>
    obtain ⟨first, last, hstart, hstop⟩ := hplaced h List.mem_cons_self
    have hrest := ih fun k hk => hplaced k (List.mem_cons_of_mem _ hk)
    simp only [handlerFor?, covers_eq hstart hstop, bind, Except.bind, hrest, List.find?_cons]
    cases prog.within h.start h.stop p && accepts h cls <;> rfl

/-- All ranges of a resolved listing have bounds. -/
theorem Listing.Resolved.bounds (h : prog.Resolved) :
    ∀ k ∈ prog.handlers, ∃ first last, prog.Bounds k.start k.stop first last := by
  intro k hk
  obtain ⟨first, hfirst⟩ := Listing.exists_place? (h.table k hk k.start (by simp))
  obtain ⟨last, hlast⟩ := Listing.exists_place? (h.table k hk k.stop (by simp))
  exact ⟨first, last, hfirst, hlast⟩

/-- In a table in order, the first entry that fits is the innermost one. -/
theorem Ordered.innermost {code : Code} {lo : Nat} (h : Ordered prog lo code) {k : Handler}
    (hfound : code.handlers.find? (fun h => prog.within h.start h.stop p && accepts h cls) = some k)
    {k' : Handler} (hk' : k' ∈ code.handlers) (hcovers : prog.within k'.start k'.stop p = true)
    (haccepts : accepts k' cls = true) {q : Nat} (hq : prog.within k.start k.stop q = true) :
    prog.within k'.start k'.stop q = true := by
  obtain ⟨hk, before, after, hsplit, hbefore⟩ := List.find?_eq_some_iff_append.1 hfound
  have hnested := h.nested
  obtain ⟨first, last, hb, _⟩ := h.bounds k (by simp [hsplit])
  obtain ⟨first', last', hb', _⟩ := h.bounds k' hk'
  rw [hsplit] at hnested hk'
  rw [Bool.and_eq_true] at hk
  rcases List.mem_append.1 hk' with hk' | hk'
  · have hno := hbefore k' hk'
    simp [hcovers, haccepts] at hno
  · rcases List.mem_cons.1 hk' with rfl | hk'
    · exact hq
    · have hunder := (List.pairwise_cons.1 (List.pairwise_append.1 hnested).2.1).1 k' hk'
      have hp := (Listing.within_of_bounds hb).1 hk.1
      have hp' := (Listing.within_of_bounds hb').1 hcovers
      have hq := (Listing.within_of_bounds hb).1 hq
      have hin := hunder first last first' last' hb hb' ⟨p, hp, hp'⟩
      exact (Listing.within_of_bounds hb').2 (by omega)

open Checked (stmtCode stmtsCode tryParts TryParts) in
/-- In the code of an accepted text no entry ends before it starts, and of two entries that have a
place in common the earlier one lies in the later one. The entries of a try statement cover neither
what is outside its code nor any copy of its finally clause. So what is found for an exception is
the innermost entry that takes it, and it is never one of the statement whose finally clause is
being run. -/
theorem table_nested {file source : String} {exe : Executable}
    (h : (compile file source).result = .ok exe) :
    (∀ k ∈ exe.listing.handlers, ∃ first last,
      exe.listing.Bounds k.start k.stop first last ∧ first ≤ last) ∧
    (exe.listing.handlers.Pairwise fun i j => exe.listing.Under i.start i.stop j.start j.stop) ∧
    (∃ program code n, Checked.check (compile file source).stmts = .ok program ∧
      stmtsCode program.stmts [] 0 = .ok (code, n) ∧ exe.listing.Holds (code ++ [Code.op .ret]) ∧
      ∀ body catches slot cleanup exits m part m' before after,
        stmtCode (.tryCatch body catches (.mk slot cleanup)) exits m = .ok (part, m') →
        code = before ++ part ++ after →
        ∃ t, tryParts body catches slot cleanup exits m = .ok (t, m') ∧ part = t.code ∧
          (∀ k ∈ t.entries, k ∈ exe.listing.handlers ∧ ∀ p,
            p < before.size ∨ before.size + part.size ≤ p →
              exe.listing.within k.start k.stop p = false) ∧
          ∀ copy ∈ t.copies before.size, ∀ p, copy.1 ≤ p → p < copy.1 + copy.2.size →
            (∀ k ∈ t.entries, exe.listing.within k.start k.stop p = false) ∧
              ∀ cls k, handlerFor? exe.listing cls p exe.listing.handlers = .ok (some k) →
                k ∉ t.entries) ∧
    (∀ cls p, ∃ found, handlerFor? exe.listing cls p exe.listing.handlers = .ok found ∧
      ∀ k ∈ found, exe.listing.within k.start k.stop p = true ∧ accepts k cls = true ∧
        ∀ k' ∈ exe.listing.handlers, exe.listing.within k'.start k'.stop p = true →
          accepts k' cls = true → ∀ q, exe.listing.within k.start k.stop q = true →
            exe.listing.within k'.start k'.stop q = true) := by
  obtain ⟨program, hcompiled⟩ := compile_accepted h
  obtain ⟨code, n, hcode, hholds⟩ := hcompiled.code
  have hordered : Ordered exe.listing 0 (code ++ [Code.op .ret]) :=
    Checked.ordered_append (fun hat => Checked.stmtsCode_orderly program.stmts [] hcode hat)
      (fun _ => .quiet rfl) hholds.placed
  have hplaced : ∀ k ∈ exe.listing.handlers, ∃ first last,
      exe.listing.Bounds k.start k.stop first last := by
    intro k hk
    rw [hholds.handlers] at hk
    obtain ⟨first, last, hb, _⟩ := hordered.bounds k hk
    exact ⟨first, last, hb⟩
  have hfind : ∀ cls p, handlerFor? exe.listing cls p exe.listing.handlers =
      .ok (exe.listing.handlers.find? fun k =>
        exe.listing.within k.start k.stop p && accepts k cls) := fun cls p =>
    Listing.handlerFor?_find hplaced
  refine ⟨?_, ?_, ⟨program, code, n, hcompiled.analyzed, hcode, hholds, ?_⟩, ?_⟩
  · intro k hk
    rw [hholds.handlers] at hk
    obtain ⟨first, last, hb, _, hle, _⟩ := hordered.bounds k hk
    exact ⟨first, last, hb, hle⟩
  · rw [hholds.handlers]
    exact hordered.nested
  · intro body catches slot cleanup exits m part m' before after hpart hsplit
    obtain ⟨t, ht, rfl⟩ := Checked.stmtCode_parts.1 hpart
    have hat := hholds.placed
    rw [hsplit, Code.at_append, Code.at_append, Code.at_append, Nat.zero_add] at hat
    have hparts := TryParts.placed hat.1.1.2
    refine ⟨t, ht, rfl, fun k hk => ⟨?_, fun p hp => ?_⟩, fun copy hcopy p hlo hhi => ?_⟩
    · rw [hholds.handlers, hsplit]
      have hmem := t.entries_subset hk
      simp [hmem]
    · rw [t.size_code] at hp
      exact hparts.confined hk hp
    · have hout := fun k hk => hparts.unprotected (k := k) hcopy hk hlo hhi
      refine ⟨hout, fun cls k hfound hk => ?_⟩
      rw [hfind] at hfound
      have hcovers := List.find?_some (Except.ok.inj hfound)
      simp [hout k hk] at hcovers
  · intro cls p
    refine ⟨_, hfind cls p, fun k hk => ?_⟩
    have hcovers := List.find?_some hk
    rw [Bool.and_eq_true] at hcovers
    refine ⟨hcovers.1, hcovers.2, fun k' hk' hin haccepts q hq => ?_⟩
    rw [hholds.handlers] at hk hk'
    exact hordered.innermost hk hk' hin haccepts hq

theorem table_nested_retrying : ∃ exe, (compile "" retrying).result = .ok exe ∧
    exe.listing.handlers.length = 4 ∧
    exe.listing.handlers.Pairwise fun i j => exe.listing.Under i.start i.stop j.start j.stop := by
  obtain ⟨exe, h⟩ := Compilation.result_of_failure? retrying_accepted
  have hlength : ((compile "" retrying).result.map (·.listing.handlers.length)).toOption =
      some 4 := by decide +kernel
  rw [h] at hlength
  exact ⟨exe, h, Option.some.inj hlength, (table_nested h).2.1⟩

end Jminus
