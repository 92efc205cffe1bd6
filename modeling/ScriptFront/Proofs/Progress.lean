import ScriptFront.Proofs.Ledger
import ScriptFront.Proofs.Operation

/-! Reading comes to an end, at the end of the source and without going back. Every round of
a loop over statements moves the parser on, and no loop is cut short by its bound. What
this costs is counted in tokens that the lexer was asked for. While tokens are left each
move passes one of them, and the only moves at the end token are those after a statement:
one for each list of statements that is open when the end is reached, of which there is
one for the program and one for each level that may be open. -/

namespace ScriptFront

def Event.isScanned : Event → Bool
  | .scanned _ => true
  | _ => false

namespace Parser

/-- How often the lexer was asked for a token: twice for a new parser, then once a move. -/
def pulled (p : Parser) : Nat := p.journal.countP Event.isScanned

theorem note_pulled (p : Parser) {e : Event} (other : e.isScanned = false) :
    (p.note e).pulled = p.pulled := by
  simp [pulled, note, other]

@[simp] theorem advance_pulled (p : Parser) : p.advance.pulled = p.pulled + 1 := by
  simp only [pulled, Parser.advance, note, Array.countP_push, Event.isScanned, if_true]

@[simp] theorem record_pulled (p : Parser) (d : Diagnostic) : (p.record d).pulled = p.pulled :=
  note_pulled _ rfl

@[simp] theorem record_remaining (p : Parser) (d : Diagnostic) :
    (p.record d).remaining = p.remaining := rfl

/-- A bound on what is pulled until the end is reached and `n` open lists are left. -/
def budget (n : Nat) (p : Parser) : Nat :=
  p.pulled + p.remaining + if p.remaining = 0 then 0 else n

theorem pulled_le_budget (n : Nat) (p : Parser) : p.pulled ≤ p.budget n :=
  (Nat.le_add_right _ _).trans (Nat.le_add_right _ _)

theorem budget_le (n : Nat) (p : Parser) : p.budget n ≤ p.pulled + p.remaining + n := by
  rw [budget]
  split <;> omega

theorem budget_of_end {n : Nat} {p : Parser} (stop : p.remaining = 0) : p.budget n = p.pulled := by
  simp [budget, stop]

theorem budget_of_left {n : Nat} {p : Parser} (left : 1 ≤ p.remaining) :
    p.budget n = p.pulled + p.remaining + n := by
  rw [budget, if_neg (by omega)]

structure Spends (n : Nat) (p q : Parser) : Prop where
  reach : p.Extends q
  kept : q.budget n ≤ p.budget n

namespace Spends

variable {n : Nat} {p q r : Parser}

theorem refl (n : Nat) (p : Parser) : Spends n p p := ⟨extends_frame.refl p, Nat.le_refl _⟩

theorem trans (h : Spends n p q) (k : Spends n q r) : Spends n p r :=
  ⟨extends_frame.trans h.reach k.reach, k.kept.trans h.kept⟩

theorem advance (n : Nat) (left : 1 ≤ p.remaining) : Spends n p p.advance := by
  refine ⟨extends_frame.advance p, ?_⟩
  have fewer := p.advance_remaining
  rw [budget_of_left left]
  rcases Nat.eq_zero_or_pos p.advance.remaining with stop | more
  · rw [budget_of_end stop, advance_pulled]
    omega
  · rw [budget_of_left more, advance_pulled]
    omega

theorem record (n : Nat) (p : Parser) (d : Diagnostic) : Spends n p (p.record d) := by
  refine ⟨extends_frame.record p d, Nat.le_of_eq ?_⟩
  rw [Parser.budget, record_pulled, record_remaining, Parser.budget]

theorem deeper (h : Spends n p q) : Spends (n + 1) p q := by
  have fewer := h.reach.remaining_le
  have kept := h.kept
  refine ⟨h.reach, ?_⟩
  -- One more list adds to both budgets, or only to that of `p` if the end came in between.
  rcases Nat.eq_zero_or_pos q.remaining with stop | more
  · rw [budget_of_end stop] at kept ⊢
    refine kept.trans ?_
    rcases Nat.eq_zero_or_pos p.remaining with none | left
    · rw [budget_of_end none, budget_of_end none]
    · rw [budget_of_left left, budget_of_left left]
      omega
  · have left : 1 ≤ p.remaining := by omega
    rw [budget_of_left more, budget_of_left left] at kept ⊢
    omega

/-- The move after a statement may be one at the end token. It is paid for by the list that
the statement is in, which is at its end then. -/
theorem settle (h : Spends n p q) (left : 1 ≤ p.remaining) : Spends (n + 1) p q.advance := by
  have kept := h.kept
  refine ⟨extends_frame.trans h.reach (extends_frame.advance q), ?_⟩
  rcases Nat.eq_zero_or_pos q.remaining with stop | more
  · have still : q.advance.remaining = 0 := by rw [advance_remaining, stop]
    rw [budget_of_end stop, budget_of_left left] at kept
    rw [budget_of_end still, advance_pulled, budget_of_left left]
    omega
  · exact (h.deeper.trans (.advance (n + 1) more)).kept

end Spends

def spending (n : Nat) : Account := fun p q _ => Spends n p q

theorem spending_ledger : Ledger spending fun n => spending (n + 1) where
  additive n :=
    { reach := Spends.reach
      refl := Spends.refl n
      trans := Spends.trans
      advance := Spends.advance n
      abandon := fun h => h
      nested := fun h => ⟨extends_frame.nested h.reach, h.kept⟩ }
  deeper := Spends.deeper
  reach := Spends.reach
  refl n := Spends.refl (n + 1)
  trans := Spends.trans
  whole left h _ := h.settle left
  broken left h := (h.trans (.record _ _ _)).settle left
  failed left h := (h.trans (.record _ _ _)).settle left
  skip two h := h.trans (.advance _ (by rw [advance_remaining]; omega))
  block left h _ := (Spends.advance _ left).trans h
  unclosed left h := (Spends.advance _ left).trans h

end Parser

theorem Rule.stmtsUntil_round {inner : Inner} (kept : inner.Keeps Parser.Extends) {close : Kind}
    {p : Parser} (running : ¬ (p.current.kind = close ∨ p.current.kind = .eof)) :
    ∃ (s : Option Stmt) (q : Parser), p.Extends q ∧ ∀ n, stmtsUntil inner close (n + 1) p =
      (s.toList ++ (stmtsUntil inner close n q.advance).1,
        (stmtsUntil inner close n q.advance).2) := by
  cases run : stmt inner p with
  | ok s q =>
    refine ⟨some s, q, (Keeps.stmt Parser.extends_frame kept).ok run, fun n => ?_⟩
    rw [stmtsUntil, if_neg running, run]
    rfl
  | error d q =>
    have reach := (Keeps.stmt Parser.extends_frame kept).error run
    refine ⟨none, q.record d, Parser.extends_frame.trans reach (Parser.extends_frame.record q d),
      fun n => ?_⟩
    rw [stmtsUntil, if_neg running, run]
    rfl

namespace Parser

/-- Whatever bound a loop is given that is not below the number of tokens left, it does the
same: it ends by itself. -/
structure LoopsEnd (inner : Inner) (p : Parser) : Prop where
  statements : ∀ close, ∀ n ≥ p.remaining,
    Rule.stmtsUntil inner close n p = Rule.stmtsUntil inner close p.remaining p
  operators : ∀ limit left, ∀ n ≥ p.remaining,
    Rule.operators inner limit n left p = Rule.operators inner limit p.remaining left p
  arguments : ∀ n ≥ p.remaining,
    Rule.moreArguments inner n p = Rule.moreArguments inner p.remaining p
  parameters : ∀ n ≥ p.remaining, Rule.moreParameters n p = Rule.moreParameters p.remaining p

theorem Ended.loopsEnd {inner : Inner} (kept : inner.Keeps Extends) {p : Parser}
    (ended : p.Ended) : p.LoopsEnd inner where
  statements close _ more := Rule.stmtsUntil_bound kept close ended more (Nat.le_refl _)
  operators limit _ _ more :=
    Rule.operators_bound (.operator extends_frame kept) limit ended more (Nat.le_refl _)
  arguments _ more := Rule.moreArguments_bound kept ended more (Nat.le_refl _)
  parameters _ more := Rule.moreParameters_bound ended more (Nat.le_refl _)

end Parser

namespace Parser

variable {source : String} {file : Option String} {k : Nat} {p q : Parser}

theorem StandsAt.ended (stands : p.StandsAt source file k) : p.Ended := by
  have far := Nat.le_add_right p.input.body.length (Lexer.ofSource source file).stream.body.length
  have same := standsAt_iff.1 stands
    (p.input.body.length + (Lexer.ofSource source file).stream.body.length)
  rw [TokenStream.get_of_le far, TokenStream.get_of_le (by omega)] at same
  exact (congrArg Token.kind same).trans (Lexer.stream_last_kind _)

theorem StandsAt.running (stands : p.StandsAt source file k)
    (inside : k < (Lexer.ofSource source file).stream.body.length) : p.current.kind ≠ .eof := by
  have member := TokenStream.get_mem inside
  have same : p.current = (Lexer.ofSource source file).stream.get k := standsAt_iff.1 stands 0
  rw [same]
  exact ((Lexer.ofSource source file).stream_lexical _ member).2

theorem StandsAt.of_eof (stands : p.StandsAt source file k) (stop : p.current.kind = .eof) :
    p.StandsAt source file (Lexer.ofSource source file).stream.body.length := by
  have late : (Lexer.ofSource source file).stream.body.length ≤ k :=
    Nat.le_of_not_lt fun inside => stands.running inside stop
  refine standsAt_iff.2 fun i => ?_
  rw [standsAt_iff.1 stands, TokenStream.get_of_le (by omega), TokenStream.get_of_le (by omega)]

theorem StandsAt.advance (stands : p.StandsAt source file k) :
    p.advance.StandsAt source file (k + 1) := by
  refine standsAt_iff.2 fun i => ?_
  rw [advance_input, TokenStream.get_rest, standsAt_iff.1 stands]
  congr 1
  omega

end Parser

/-- Reading ends at the end token and never goes back. Each round of a loop over statements
ends behind where it began, no loop is cut short by its bound, and there are at most 257 more
moves than tokens. -/
theorem reading_finishes (source : String) (file : Option String) :
    (readProgram source file).2.StandsAt source file (tokenCount source file) ∧
      (readProgram source file).2.current.kind = .eof ∧
      (∀ levels close i p, Parser.StandsAt source file i p → i < tokenCount source file →
        p.current.kind ≠ close →
        ∃ (s : Option Stmt) (q : Parser), (∃ j > i, q.StandsAt source file j) ∧
          ∀ n, Rule.stmtsUntil (Inner.levels levels) close (n + 1) p =
            (s.toList ++ (Rule.stmtsUntil (Inner.levels levels) close n q).1,
              (Rule.stmtsUntil (Inner.levels levels) close n q).2)) ∧
      (∀ levels i p, Parser.StandsAt source file i p → p.LoopsEnd (Inner.levels levels)) ∧
      (readProgram source file).2.pulled ≤
        (Parser.ofSource source file).pulled + (tokenCount source file + 257) := by
  rw [tokenCount_eq]
  have kept (n : Nat) : (Inner.levels n).Keeps Parser.Extends := .levels Parser.extends_frame n
  have ended : (Parser.ofSource source file).Ended := Lexer.stream_last_kind _
  have start := Parser.ofSource_standsAt source file
  have stop : (readProgram source file).2.current.kind = .eof :=
    or_self_iff.1 (Rule.stmtsLeft_stops (kept maxDepth) .eof ended)
  refine ⟨?_, stop, fun levels close i p stands inside other => ?_,
    fun levels i p stands => stands.ended.loopsEnd (kept levels), ?_⟩
  · have reach := Rule.stmtsUntil_keeps Parser.extends_frame (kept maxDepth) .eof
      (Parser.ofSource source file).remaining (Parser.ofSource source file)
    obtain ⟨k, -, stands⟩ := reach.standsAt start
    have final : (readProgram source file).2.StandsAt source file k :=
      Parser.standsAt_iff.2 fun i => Parser.standsAt_iff.1 stands i
    exact final.of_eof stop
  · have running : ¬ (p.current.kind = close ∨ p.current.kind = .eof) :=
      not_or.2 ⟨other, stands.running inside⟩
    obtain ⟨s, q, reach, round⟩ := Rule.stmtsUntil_round (kept levels) running
    obtain ⟨j, more, moved⟩ := reach.standsAt stands
    exact ⟨s, q.advance, ⟨j + 1, Nat.lt_succ_of_le more, moved.advance⟩, round⟩
  · have spent := (Parser.spending_ledger.program source file).kept
    set final := (Rule.stmtsLeft (Inner.levels maxDepth) .eof (Parser.ofSource source file)).2
    calc (readProgram source file).2.pulled
        = final.pulled := Parser.note_pulled _ rfl
      _ ≤ final.budget (maxDepth + 1) := Parser.pulled_le_budget _ _
      _ ≤ (Parser.ofSource source file).budget (maxDepth + 1) := spent
      _ ≤ (Parser.ofSource source file).pulled +
            ((Lexer.ofSource source file).stream.body.length + 257) := by
          rw [← Nat.add_assoc]
          exact Parser.budget_le _ _

theorem reading_finishes_unclosed :
    (readProgram "while (a) \x7b return" none).2.pulled = 10 ∧
      (readProgram "while (a) \x7b return" none).2.StandsAt "while (a) \x7b return" none 6 ∧
      ∃ (s : Option Stmt) (q : Parser),
        (∃ j > 0, q.StandsAt "while (a) \x7b return" none j) ∧
        ∀ n, Rule.stmtsUntil (Inner.levels 2) .rbrace (n + 1)
            (Parser.ofSource "while (a) \x7b return" none) =
          (s.toList ++ (Rule.stmtsUntil (Inner.levels 2) .rbrace n q).1,
            (Rule.stmtsUntil (Inner.levels 2) .rbrace n q).2) := by
  have start := Parser.ofSource_standsAt "while (a) \x7b return" none
  have six : tokenCount "while (a) \x7b return" none = 6 := by decide +kernel
  have facts := reading_finishes "while (a) \x7b return" none
  refine ⟨by decide +kernel, six ▸ facts.1, ?_⟩
  exact facts.2.2.1 2 .rbrace 0 _ start (six ▸ by decide) (by decide +kernel)

end ScriptFront
