import Mathlib.Tactic.Common
import ScriptFront.Proofs.Frame

/-! The bound on a loop never cuts it short. Every round passes over at least one token
and the end token stops all loops, so any bound from the number of tokens left upwards
gives the same result. -/

namespace ScriptFront

namespace Parser

def Ended (p : Parser) : Prop := p.input.last.kind = .eof

theorem Extends.ended {p q : Parser} (h : p.Extends q) (ended : p.Ended) : q.Ended :=
  (congrArg Token.kind h.last).trans ended

theorem Ended.advance {p : Parser} (ended : p.Ended) : p.advance.Ended := ended

theorem current_of_body {p : Parser} {t : Token} {ts : List Token} (h : p.input.body = t :: ts) :
    p.current = t := by simp [current, TokenStream.get, h]

theorem peek_of_body {p : Parser} {t u : Token} {ts : List Token}
    (h : p.input.body = t :: u :: ts) : p.peek = u := by simp [peek, TokenStream.get, h]

theorem current_of_nil {p : Parser} (h : p.input.body = []) : p.current = p.input.last := by
  simp [current, TokenStream.get, h]

theorem peek_of_tail_nil {p : Parser} (h : p.input.body.tail = []) : p.peek = p.input.last := by
  rcases body : p.input.body with _ | ⟨t, _ | ⟨u, ts⟩⟩
  · simp [peek, TokenStream.get, body]
  · simp [peek, TokenStream.get, body]
  · simp [body] at h

theorem peek_of_tail {p : Parser} {u : Token} {ts : List Token} (h : p.input.body.tail = u :: ts) :
    p.peek = u := by
  rcases body : p.input.body with _ | ⟨t, rest⟩
  · simp [body] at h
  · rw [body, List.tail_cons] at h
    exact peek_of_body (h ▸ body)

theorem Ended.peek_eof {p : Parser} (ended : p.Ended) (h : p.remaining ≤ 1) :
    p.peek.kind = .eof := by
  have none : p.input.body.tail = [] := List.length_eq_zero_iff.1 (by
    rw [List.length_tail]
    change p.remaining - 1 = 0
    omega)
  exact (congrArg Token.kind (peek_of_tail_nil none)).trans ended

theorem Ended.current_eof {p : Parser} (ended : p.Ended) (h : p.remaining = 0) :
    p.current.kind = .eof :=
  (congrArg Token.kind (current_of_nil (List.length_eq_zero_iff.1 h))).trans ended

theorem Ended.two_le_remaining {p : Parser} (ended : p.Ended) (h : p.peek.kind ≠ .eof) :
    2 ≤ p.remaining := by
  by_contra few
  exact h (ended.peek_eof (by omega))

theorem Ended.one_le_remaining {p : Parser} (ended : p.Ended) (h : p.current.kind ≠ .eof) :
    1 ≤ p.remaining := by
  by_contra few
  exact h (ended.current_eof (by omega))

/-- The tokens behind the current one. -/
def ahead (p : Parser) : List Token := p.input.body.tail

@[simp] theorem advance_body (p : Parser) : p.advance.input.body = p.ahead := rfl

theorem Ended.body_eq {p : Parser} (ended : p.Ended) (h : p.current.kind ≠ .eof) :
    p.input.body = p.current :: p.ahead := by
  rcases body : p.input.body with _ | ⟨t, ts⟩
  · exact absurd (ended.current_eof (List.length_eq_zero_iff.2 body)) h
  · rw [current_of_body body, ahead, body, List.tail_cons]

theorem Ended.ahead_eq {p : Parser} (ended : p.Ended) (h : p.peek.kind ≠ .eof) :
    p.ahead = p.peek :: p.advance.ahead := by
  have shifted := ended.advance.body_eq (by rwa [advance_current])
  rwa [advance_current] at shifted

theorem Ended.peek_eof_or_mem {p : Parser} {rest : List Token} (ended : p.Ended)
    (h : p.ahead = rest) : p.peek.kind = .eof ∨ p.peek ∈ rest.head? := by
  cases rest with
  | nil => exact .inl ((congrArg Token.kind (peek_of_tail_nil h)).trans ended)
  | cons t rest => exact .inr (congrArg some (peek_of_tail h).symm)

end Parser

/-- Two bounds on a loop agree where each round makes its state smaller and a state of
no size stops it. -/
theorem loop_bound {ι ρ : Type} (loop : Nat → ι → ρ) (size : ι → Nat) (Good : ι → Prop)
    (stop : ∀ i n, Good i → size i = 0 → loop (n + 1) i = loop 0 i)
    (round : ∀ i n m, Good i → (∀ j, Good j → size j < size i → loop n j = loop m j) →
      loop (n + 1) i = loop (m + 1) i)
    {n m : Nat} {i : ι} (good : Good i) (hn : size i ≤ n) (hm : size i ≤ m) :
    loop n i = loop m i := by
  induction n generalizing m i with
  | zero =>
    cases m with
    | zero => rfl
    | succ m => exact (stop i m good (by omega)).symm
  | succ n ih =>
    cases m with
    | zero => exact stop i n good (by omega)
    | succ m => exact round i n m good fun j hj smaller => ih hj (by omega) (by omega)

namespace Rule

variable {inner : Inner}

theorem tighterOperator_apply (limit : Precedence) (p : Parser) :
    tighterOperator limit p =
      .ok (if limit < p.peek.kind.precedence then p.peek.kind.operatorForm? else none) p := by
  by_cases tighter : limit < p.peek.kind.precedence
  · have other : p.peek.kind ≠ .semicolon := by
      intro h
      rw [h] at tighter
      exact absurd tighter (Nat.not_lt_zero _)
    simp [tighterOperator, tighter, other]
  · simp [tighterOperator, tighter]

theorem operators_succ (inner : Inner) (limit : Precedence) (n : Nat) (left : Expr) (p : Parser) :
    operators inner limit (n + 1) left p =
      match if limit < p.peek.kind.precedence then p.peek.kind.operatorForm? else none with
      | none => .ok left p
      | some form => (operator inner left form >>= operators inner limit n) p.advance := by
  rw [operators, bind_of_ok (tighterOperator_apply limit p)]
  cases if limit < p.peek.kind.precedence then p.peek.kind.operatorForm? else none <;> rfl

theorem operators_bound
    (kept : ∀ left form, (operator inner left form).Keeps Parser.Extends) (limit : Precedence)
    {n m : Nat} {left : Expr} {p : Parser} (ended : p.Ended) (hn : p.remaining ≤ n)
    (hm : p.remaining ≤ m) :
    operators inner limit n left p = operators inner limit m left p := by
  refine loop_bound (fun n (i : Expr × Parser) => operators inner limit n i.1 i.2)
    (fun i => i.2.remaining) (fun i => i.2.Ended) ?_ ?_ (i := (left, p)) ended hn hm
  · rintro ⟨left, p⟩ n ended empty
    have eof : p.peek.kind = .eof := ended.peek_eof (by simp [empty])
    simp only [operators_succ, eof]
    rfl
  · rintro ⟨left, p⟩ n m ended ih
    simp only [operators_succ]
    split
    · rfl
    · next form found =>
      have two : 2 ≤ p.remaining := by
        refine ended.two_le_remaining fun eof => ?_
        simp [eof, Kind.operatorForm?] at found
      cases run : operator inner left form p.advance with
      | error d q => rw [bind_of_error run, bind_of_error run]
      | ok e q =>
        have reach := (kept left form).ok run
        have fewer := reach.remaining_le
        rw [Parser.advance_remaining] at fewer
        rw [bind_of_ok run, bind_of_ok run]
        exact ih (e, q) (reach.ended ended.advance) (by dsimp only; omega)

theorem moreArguments_succ (inner : Inner) (n : Nat) (p : Parser) :
    moreArguments inner (n + 1) p =
      if p.peek.kind = .comma then
        (do return (← inner.expr .lowest) :: (← moreArguments inner n) : Rule (List Expr))
          p.advance.advance
      else .ok [] p := by
  rw [moreArguments, bind_peekIs]
  by_cases comma : p.peek.kind = .comma
  · simp only [comma, decide_true, if_true]
    rfl
  · simp only [comma, decide_false, if_false]
    rfl

theorem moreArguments_bound (kept : inner.Keeps Parser.Extends) {n m : Nat} {p : Parser}
    (ended : p.Ended) (hn : p.remaining ≤ n) (hm : p.remaining ≤ m) :
    moreArguments inner n p = moreArguments inner m p := by
  refine loop_bound _ Parser.remaining Parser.Ended ?_ ?_ ended hn hm
  · intro p n ended empty
    have eof : p.peek.kind = .eof := ended.peek_eof (by simp [empty])
    simp only [moreArguments_succ, eof]
    rfl
  · intro p n m ended ih
    rw [moreArguments_succ, moreArguments_succ]
    split
    · next comma =>
      have two := ended.two_le_remaining (comma ▸ by decide)
      cases run : inner.expr .lowest p.advance.advance with
      | error d q => rw [bind_of_error run, bind_of_error run]
      | ok e q =>
        have reach := (kept.expr .lowest).ok run
        have fewer := reach.remaining_le
        simp only [Parser.advance_remaining] at fewer
        rw [bind_of_ok run, bind_of_ok run]
        simp only [bind, EStateM.bind, ih q (reach.ended ended.advance.advance) (by omega)]
    · rfl

theorem moreParameters_succ (n : Nat) (p : Parser) :
    moreParameters (n + 1) p =
      if p.peek.kind = .comma then
        (do expectPeek .ident; return (← name) :: (← moreParameters n) : Rule (List Identifier))
          p.advance
      else .ok [] p := by
  rw [moreParameters, bind_peekIs]
  by_cases comma : p.peek.kind = .comma
  · simp only [comma, decide_true, if_true]
    rfl
  · simp only [comma, decide_false, if_false]
    rfl

theorem moreParameters_bound {n m : Nat} {p : Parser} (ended : p.Ended) (hn : p.remaining ≤ n)
    (hm : p.remaining ≤ m) : moreParameters n p = moreParameters m p := by
  refine loop_bound _ Parser.remaining Parser.Ended ?_ ?_ ended hn hm
  · intro p n ended empty
    have eof : p.peek.kind = .eof := ended.peek_eof (by simp [empty])
    simp only [moreParameters_succ, eof]
    rfl
  · intro p n m ended ih
    rw [moreParameters_succ, moreParameters_succ]
    split
    · next comma =>
      have two := ended.two_le_remaining (comma ▸ by decide)
      by_cases ident : p.advance.peek.kind = .ident
      · have same := ih p.advance.advance ended.advance.advance (by
          simp only [Parser.advance_remaining]; omega)
        simp only [bind, EStateM.bind, expectPeek, ident, if_true, name, current, pure,
          EStateM.pure, same]
      · simp only [bind, EStateM.bind, expectPeek, ident, if_false]
    · rfl

end Rule

end ScriptFront
