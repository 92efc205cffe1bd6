import ScriptFront.Proofs.Walk

/-! Loops as they are run, with the bound that the parser gives. Each stops where its next
token is missing and otherwise does one round and goes on. -/

namespace ScriptFront

namespace Rule

variable {inner : Inner}

/-- The operators that are left, with the bound that the parser gives. -/
def operatorsLeft (inner : Inner) (limit : Precedence) (left : Expr) : Rule Expr := do
  operators inner limit (← remaining) left

theorem operatorsLeft_apply (inner : Inner) (limit : Precedence) (left : Expr) (p : Parser) :
    operatorsLeft inner limit left p = operators inner limit p.remaining left p := rfl

theorem operatorsLeft_of_looser (inner : Inner) {limit : Precedence} {p : Parser}
    (h : ¬ limit < p.peek.kind.precedence) (left : Expr) :
    operatorsLeft inner limit left p = .ok left p := by
  rw [operatorsLeft_apply]
  cases p.remaining with
  | zero => rfl
  | succ n => simp [operators_succ, h]

theorem operatorsLeft_of_tighter (kept : inner.Keeps Parser.Extends) {limit : Precedence}
    {p : Parser} {form : OperatorForm} (ended : p.Ended) (h : limit < p.peek.kind.precedence)
    (found : p.peek.kind.operatorForm? = some form) (left : Expr) :
    operatorsLeft inner limit left p =
      (operator inner left form >>= operatorsLeft inner limit) p.advance := by
  have two : 2 ≤ p.remaining := by
    refine ended.two_le_remaining fun eof => ?_
    simp [eof, Kind.operatorForm?] at found
  obtain ⟨n, bound⟩ : ∃ n, p.remaining = n + 1 := ⟨p.remaining - 1, by omega⟩
  rw [operatorsLeft_apply, bound, operators_succ]
  simp only [h, if_true, found]
  cases run : operator inner left form p.advance with
  | error d q => rw [bind_of_error run, bind_of_error run]
  | ok e q =>
    have reach := (Keeps.operator Parser.extends_frame kept left form).ok run
    have fewer := reach.remaining_le
    rw [Parser.advance_remaining] at fewer
    rw [bind_of_ok run, bind_of_ok run, operatorsLeft_apply]
    exact operators_bound (Keeps.operator Parser.extends_frame kept) limit
      (reach.ended ended.advance) (by omega) (Nat.le_refl _)

def argumentsLeft (inner : Inner) : Rule (List Expr) := do
  moreArguments inner (← remaining)

theorem argumentsLeft_of_other (inner : Inner) {p : Parser} (h : p.peek.kind ≠ .comma) :
    argumentsLeft inner p = .ok [] p := by
  change moreArguments inner p.remaining p = _
  cases p.remaining with
  | zero => rfl
  | succ n => rw [moreArguments_succ, if_neg h]

theorem argumentsLeft_of_comma (kept : inner.Keeps Parser.Extends) {p : Parser} (ended : p.Ended)
    (comma : p.peek.kind = .comma) :
    argumentsLeft inner p =
      (do return (← inner.expr .lowest) :: (← argumentsLeft inner) : Rule (List Expr))
        p.advance.advance := by
  have two := ended.two_le_remaining (comma ▸ by decide)
  obtain ⟨n, bound⟩ : ∃ n, p.remaining = n + 1 := ⟨p.remaining - 1, by omega⟩
  change moreArguments inner p.remaining p = _
  rw [bound, moreArguments_succ, if_pos comma]
  cases run : inner.expr .lowest p.advance.advance with
  | error d q => rw [bind_of_error run, bind_of_error run]
  | ok e q =>
    have reach := (kept.expr .lowest).ok run
    have fewer := reach.remaining_le
    simp only [Parser.advance_remaining] at fewer
    have same : moreArguments inner n q = argumentsLeft inner q :=
      moreArguments_bound kept (reach.ended ended.advance.advance) (by omega) (Nat.le_refl _)
    rw [bind_of_ok run, bind_of_ok run]
    simp only [bind, EStateM.bind, same]

def parametersLeft : Rule (List Identifier) := do
  moreParameters (← remaining)

theorem parametersLeft_of_other {p : Parser} (h : p.peek.kind ≠ .comma) :
    parametersLeft p = .ok [] p := by
  change moreParameters p.remaining p = _
  cases p.remaining with
  | zero => rfl
  | succ n => rw [moreParameters_succ, if_neg h]

theorem parametersLeft_of_comma {p : Parser} (ended : p.Ended) (comma : p.peek.kind = .comma)
    (ident : p.advance.peek.kind = .ident) :
    parametersLeft p =
      (do return (← name) :: (← parametersLeft) : Rule (List Identifier)) p.advance.advance := by
  have two := ended.two_le_remaining (comma ▸ by decide)
  obtain ⟨n, bound⟩ : ∃ n, p.remaining = n + 1 := ⟨p.remaining - 1, by omega⟩
  change moreParameters p.remaining p = _
  have same : moreParameters n p.advance.advance = parametersLeft p.advance.advance :=
    moreParameters_bound ended.advance.advance (by simp only [Parser.advance_remaining]; omega)
      (Nat.le_refl _)
  rw [bound, moreParameters_succ, if_pos comma]
  simp only [bind, EStateM.bind, expectPeek, ident, if_true, name, current, pure,
    EStateM.pure, same]

theorem stmtsUntil_bound (kept : inner.Keeps Parser.Extends) (close : Kind) {n m : Nat}
    {p : Parser} (ended : p.Ended) (hn : p.remaining ≤ n) (hm : p.remaining ≤ m) :
    stmtsUntil inner close n p = stmtsUntil inner close m p := by
  refine loop_bound _ Parser.remaining Parser.Ended ?_ ?_ ended hn hm
  · intro p n ended empty
    have eof : p.current.kind = .eof := ended.current_eof empty
    simp only [stmtsUntil, eof, or_true, if_true]
  · intro p n m ended ih
    rw [stmtsUntil, stmtsUntil]
    split
    · rfl
    · next running =>
      have one := ended.one_le_remaining fun eof => running (.inr eof)
      cases run : stmt inner p with
      | ok s q =>
        have reach := (Keeps.stmt Parser.extends_frame kept).ok run
        have fewer := reach.remaining_le
        simp only [ih q.advance (reach.ended ended) (by rw [Parser.advance_remaining]; omega)]
      | error d q =>
        have reach := (Keeps.stmt Parser.extends_frame kept).error run
        have fewer := reach.remaining_le
        have short : (q.record d).advance.remaining < p.remaining := by
          rw [Parser.advance_remaining]
          change q.remaining - 1 < _
          omega
        exact ih (q.record d).advance (reach.ended ended) short

def stmtsLeft (inner : Inner) (close : Kind) (p : Parser) : List Stmt × Parser :=
  stmtsUntil inner close p.remaining p

theorem stmtsLeft_of_stop (inner : Inner) {close : Kind} {p : Parser}
    (h : p.current.kind = close ∨ p.current.kind = .eof) : stmtsLeft inner close p = ([], p) := by
  rw [stmtsLeft]
  cases p.remaining with
  | zero => rfl
  | succ n => rw [stmtsUntil, if_pos h]

theorem stmtsLeft_of_ok (kept : inner.Keeps Parser.Extends) {close : Kind} {p q : Parser} {s : Stmt}
    (ended : p.Ended) (running : ¬ (p.current.kind = close ∨ p.current.kind = .eof))
    (run : stmt inner p = .ok s q) :
    stmtsLeft inner close p =
      (s :: (stmtsLeft inner close q.advance).1, (stmtsLeft inner close q.advance).2) := by
  have one := ended.one_le_remaining fun eof => running (.inr eof)
  have reach := (Keeps.stmt Parser.extends_frame kept).ok run
  have fewer := reach.remaining_le
  obtain ⟨n, bound⟩ : ∃ n, p.remaining = n + 1 := ⟨p.remaining - 1, by omega⟩
  have same : stmtsUntil inner close n q.advance = stmtsLeft inner close q.advance :=
    stmtsUntil_bound kept close (reach.ended ended) (by rw [Parser.advance_remaining]; omega)
      (Nat.le_refl _)
  rw [stmtsLeft, bound, stmtsUntil, if_neg running]
  simp only [run, same]

theorem stmtsLeft_of_error (kept : inner.Keeps Parser.Extends) {close : Kind} {p q : Parser}
    {d : Diagnostic} (ended : p.Ended)
    (running : ¬ (p.current.kind = close ∨ p.current.kind = .eof))
    (run : stmt inner p = .error d q) :
    stmtsLeft inner close p = stmtsLeft inner close (q.record d).advance := by
  have one := ended.one_le_remaining fun eof => running (.inr eof)
  have reach := (Keeps.stmt Parser.extends_frame kept).error run
  have fewer := reach.remaining_le
  obtain ⟨n, bound⟩ : ∃ n, p.remaining = n + 1 := ⟨p.remaining - 1, by omega⟩
  have same : stmtsUntil inner close n (q.record d).advance =
      stmtsLeft inner close (q.record d).advance := by
    refine stmtsUntil_bound kept close (reach.ended ended) ?_ (Nat.le_refl _)
    rw [Parser.advance_remaining]
    change q.remaining - 1 ≤ n
    omega
  rw [stmtsLeft, bound, stmtsUntil, if_neg running]
  simp only [run, same]

theorem stmtsLeft_stops (kept : inner.Keeps Parser.Extends) (close : Kind) {p : Parser}
    (ended : p.Ended) :
    (stmtsLeft inner close p).2.current.kind = close ∨
      (stmtsLeft inner close p).2.current.kind = .eof := by
  induction left : p.remaining using Nat.strongRecOn generalizing p with
  | _ size ih =>
    by_cases stop : p.current.kind = close ∨ p.current.kind = .eof
    · rwa [stmtsLeft_of_stop inner stop]
    · have one := ended.one_le_remaining fun eof => stop (.inr eof)
      cases run : stmt inner p with
      | ok s q =>
        have reach := (Keeps.stmt Parser.extends_frame kept).ok run
        have fewer := reach.remaining_le
        rw [stmtsLeft_of_ok kept ended stop run]
        exact ih q.advance.remaining (by rw [Parser.advance_remaining]; omega)
          (reach.ended ended) rfl
      | error d q =>
        have reach := (Keeps.stmt Parser.extends_frame kept).error run
        have fewer := reach.remaining_le
        rw [stmtsLeft_of_error kept ended stop run]
        refine ih (q.record d).advance.remaining ?_ (reach.ended ended) rfl
        rw [Parser.advance_remaining]
        change q.remaining - 1 < size
        omega

theorem diagnostics_prefix_stmtsLeft (kept : inner.Keeps Parser.Extends) {close : Kind} {p : Parser}
    (ended : p.Ended)
    (running : ¬ (p.current.kind = close ∨ p.current.kind = .eof)) :
    diagnostics (stmt inner p) <+: (stmtsLeft inner close p).2.errors.toList := by
  cases run : stmt inner p with
  | ok s q =>
    rw [stmtsLeft_of_ok kept ended running run]
    exact (stmtsUntil_keeps Parser.extends_frame kept close _ q.advance).errors
  | error d q =>
    rw [stmtsLeft_of_error kept ended running run, diagnostics, ← Array.toList_push]
    exact (stmtsUntil_keeps Parser.extends_frame kept close _ (q.record d).advance).errors

def closeBlock (token : Token) (body : List Stmt) : Rule Block := do
  let closing ← current
  if closing.kind = .rbrace then return .mk token body
  else fail (.unexpectedToken .rbrace closing.kind)

theorem closeBlock_keeps (token : Token) (body : List Stmt) :
    (closeBlock token body).Keeps Parser.Extends := by
  refine .bind Parser.extends_frame (.current Parser.extends_frame) fun closing => ?_
  split
  · exact .pure Parser.extends_frame _
  · exact .fail Parser.extends_frame _

theorem bracedStmts_apply (inner : Inner) (p : Parser) :
    bracedStmts inner p = closeBlock p.current (stmtsLeft inner .rbrace p.advance).1
      (stmtsLeft inner .rbrace p.advance).2 := rfl

end Rule

end ScriptFront
