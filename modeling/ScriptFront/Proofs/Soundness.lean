import ScriptFront.Proofs.Remainder
import ScriptFront.Proofs.Layer
import ScriptFront.Proofs.Scan

/-! What the parser accepts without a complaint has a derivation. Each rule that succeeds
and records nothing has read exactly the tokens of its tree, at the layer its limit asks
for, and has stopped where no operator could go on. The invariant of the operator loop is
that the next token binds no tighter than the layer reached so far. -/

namespace ScriptFront

open ScriptFront.Derivation

/-- From `p` to `q` the tokens `ts` are read and nothing is recorded. -/
structure Parser.Reads (p q : Parser) (ts : List Token) : Prop where
  body : p.input.body = ts ++ q.ahead
  errors : q.errors = p.errors

structure Inner.Sound (inner : Inner) (k : Nat) : Prop where
  kept : inner.Keeps Parser.Extends
  expr : ∀ {limit p e q}, limit ≠ .call → p.Ended → inner.expr limit p = .ok e q →
    q.errors = p.errors → ∃ ts n, Expression limit.layer ts e n ∧ n ≤ k ∧ p.Reads q ts ∧
      ¬ limit < q.peek.kind.precedence
  block : ∀ {p b q}, p.Ended → p.current.kind = .lbrace → inner.block p = .ok b q →
    q.errors = p.errors → ∃ ts n, Braced ts b n ∧ n ≤ k ∧ p.Reads q ts

namespace Parser

theorem Extends.errors_eq {p q r : Parser} (h : p.Extends q) (k : q.Extends r)
    (quiet : r.errors = p.errors) : q.errors = p.errors ∧ r.errors = q.errors := by
  have fewer := h.errors.length_le
  have same : p.errors.toList = q.errors.toList :=
    h.errors.eq_of_length (Nat.le_antisymm fewer (quiet ▸ k.errors.length_le))
  have eq : q.errors = p.errors := Array.toList_inj.1 same.symm
  exact ⟨eq, quiet.trans eq.symm⟩

theorem Extends.errors_ne {p q r : Parser} {d : Diagnostic} (h : p.Extends q)
    (k : (q.record d).Extends r) : r.errors ≠ p.errors := by
  intro quiet
  have first := h.errors.length_le
  have second := k.errors.length_le
  rw [quiet, record_errors, Array.toList_push, List.length_append, List.length_singleton] at second
  omega

end Parser

namespace Rule

theorem expectPeek_eq_ok {kind : Kind} {p q : Parser} {u : Unit} :
    expectPeek kind p = .ok u q ↔ p.peek.kind = kind ∧ q = p.advance := by
  unfold expectPeek
  split <;> simp_all [eq_comm]

theorem nested_eq_ok {α : Type} {rule : Rule α} {p q : Parser} {a : α} :
    nested rule p = .ok a q ↔ p.depth < maxDepth ∧
      ∃ r, rule { p with depth := p.depth + 1 } = .ok a r ∧
        q = { r with depth := r.depth - 1 } := by
  unfold nested
  by_cases room : p.depth < maxDepth
  · cases run : rule { p with depth := p.depth + 1 } <;> simp [room, eq_comm]
  · simp [room, fail]

variable {inner : Inner} {k : Nat}

theorem group_sound (sound : inner.Sound k) {p q : Parser} {e : Expr} (ended : p.Ended)
    (kind : p.current.kind = .lparen) (run : group inner p = .ok e q)
    (quiet : q.errors = p.errors) :
    ∃ ts n, Parenthesised ts e n ∧ n ≤ k ∧ p.Reads q ts := by
  obtain ⟨_, _, ⟨⟩, run⟩ := bind_eq_ok.1 run
  obtain ⟨e, m, read, run⟩ := bind_eq_ok.1 run
  obtain ⟨_, _, close, ⟨⟩⟩ := bind_eq_ok.1 run
  obtain ⟨closing, rfl⟩ := expectPeek_eq_ok.1 close
  obtain ⟨ts, n, derived, few, reads, -⟩ := sound.expr (by decide) ended.advance read quiet
  have reach := (sound.kept.expr .lowest).ok read
  have rest := (reach.ended ended).ahead_eq (closing ▸ by decide)
  refine ⟨_, n, .mk kind derived closing, few, ?_, quiet⟩
  rw [ended.body_eq (kind ▸ by decide), ← Parser.advance_body, reads.body, rest]
  simp

theorem condition_sound (sound : inner.Sound k) {p q : Parser} {e : Expr} (ended : p.Ended)
    (run : condition inner p = .ok e q) (quiet : q.errors = p.errors) :
    ∃ ts n, Parenthesised ts e n ∧ n ≤ k ∧ p.advance.Reads q ts := by
  obtain ⟨_, _, opening, run⟩ := bind_eq_ok.1 run
  obtain ⟨kind, rfl⟩ := expectPeek_eq_ok.1 opening
  exact group_sound sound ended.advance (p.advance_current ▸ kind) run quiet

theorem bracedBlock_sound (sound : inner.Sound k) {p q : Parser} {b : Block} (ended : p.Ended)
    (run : bracedBlock inner p = .ok b q) (quiet : q.errors = p.errors) :
    ∃ ts n, Braced ts b n ∧ n ≤ k ∧ p.advance.Reads q ts := by
  obtain ⟨_, _, opening, run⟩ := bind_eq_ok.1 run
  obtain ⟨kind, rfl⟩ := expectPeek_eq_ok.1 opening
  exact sound.block ended.advance (p.advance_current ▸ kind) run quiet

theorem alternative_sound (sound : inner.Sound k) {p q : Parser} {b : Option Block}
    (ended : p.Ended)
    (run : alternative inner p = .ok b q) (quiet : q.errors = p.errors) :
    ∃ ts n, Alternative ts b n ∧ n ≤ k ∧ p.advance.Reads q ts := by
  obtain ⟨_, _, ⟨⟩, run⟩ := bind_eq_ok.1 run
  by_cases found : p.peek.kind = .elseWord
  · simp only [found, decide_true, if_true] at run
    obtain ⟨_, _, ⟨⟩, run⟩ := bind_eq_ok.1 run
    obtain ⟨b, m, read, ⟨⟩⟩ := bind_eq_ok.1 run
    obtain ⟨ts, n, derived, few, reads⟩ := bracedBlock_sound sound ended.advance read quiet
    refine ⟨_, n, .block found derived, few, ?_, quiet⟩
    rw [Parser.advance_body, ended.ahead_eq (found ▸ by decide), ← Parser.advance_body, reads.body]
    rfl
  · simp only [found, decide_false] at run
    cases run
    exact ⟨[], 0, .missing, Nat.zero_le k, rfl, rfl⟩

theorem conditional_sound (sound : inner.Sound k) {p q : Parser} {e : Expr} (ended : p.Ended)
    (kind : p.current.kind = .ifWord) (run : conditional inner p = .ok e q)
    (quiet : q.errors = p.errors) :
    ∃ ts n, Expression .call ts e n ∧ n ≤ k + 1 ∧ p.Reads q ts := by
  obtain ⟨_, _, ⟨⟩, run⟩ := bind_eq_ok.1 run
  obtain ⟨test, a, first, run⟩ := bind_eq_ok.1 run
  obtain ⟨consequence, b, second, run⟩ := bind_eq_ok.1 run
  obtain ⟨otherwise, c, third, ⟨⟩⟩ := bind_eq_ok.1 run
  have toA := (Keeps.condition Parser.extends_frame sound.kept).ok first
  have toB := (Keeps.bracedBlock Parser.extends_frame sound.kept).ok second
  have toC := (Keeps.alternative Parser.extends_frame sound.kept).ok third
  obtain ⟨quietA, rest⟩ := toA.errors_eq (Parser.extends_frame.trans toB toC) quiet
  obtain ⟨quietB, quietC⟩ := toB.errors_eq toC rest
  obtain ⟨ts, n, hn, fewN, readsA⟩ := condition_sound sound ended first quietA
  obtain ⟨us, m, hm, fewM, readsB⟩ := bracedBlock_sound sound (toA.ended ended) second quietB
  obtain ⟨vs, l, hl, fewL, readsC⟩ :=
    alternative_sound sound (toB.ended (toA.ended ended)) third quietC
  refine ⟨_, _, .conditional kind hn hm hl, by omega, ?_, quiet⟩
  rw [ended.body_eq (kind ▸ by decide), ← Parser.advance_body, readsA.body, ← Parser.advance_body,
    readsB.body, ← Parser.advance_body, readsC.body]
  simp

theorem moreParameters_sound {n : Nat} {p q : Parser} {names : List Identifier} (ended : p.Ended)
    (run : moreParameters n p = .ok names q) {t : Token} (ident : t.kind = .ident) :
    q.errors = p.errors ∧
      ∃ us, Parameters (t :: us) (⟨t, t.literal⟩ :: names) ∧ p.ahead = us ++ q.ahead := by
  induction n generalizing p names t with
  | zero => cases run; exact ⟨rfl, [], .one ident, rfl⟩
  | succ n ih =>
    rw [moreParameters_succ] at run
    by_cases comma : p.peek.kind = .comma
    · rw [if_pos comma] at run
      obtain ⟨_, _, expected, run⟩ := bind_eq_ok.1 run
      obtain ⟨next, rfl⟩ := expectPeek_eq_ok.1 expected
      obtain ⟨_, _, ⟨⟩, run⟩ := bind_eq_ok.1 run
      obtain ⟨others, m, more, ⟨⟩⟩ := bind_eq_ok.1 run
      rw [← Parser.advance_current] at next
      obtain ⟨quiet, us, derived, body⟩ := ih ended.advance.advance more next
      refine ⟨quiet, _, .more ident comma derived, ?_⟩
      rw [ended.ahead_eq (comma ▸ by decide), ← Parser.advance_body,
        ended.advance.advance.body_eq (next ▸ by decide), body]
      rfl
    · rw [if_neg comma] at run
      cases run
      exact ⟨rfl, [], .one ident, rfl⟩

theorem function_sound (sound : inner.Sound k) {p q : Parser} {e : Expr} (ended : p.Ended)
    (kind : p.current.kind = .functionWord) (run : function inner p = .ok e q)
    (quiet : q.errors = p.errors) :
    ∃ ts n, Expression .call ts e n ∧ n ≤ k + 1 ∧ p.Reads q ts := by
  obtain ⟨_, _, ⟨⟩, run⟩ := bind_eq_ok.1 run
  obtain ⟨_, _, opening, run⟩ := bind_eq_ok.1 run
  obtain ⟨left, rfl⟩ := expectPeek_eq_ok.1 opening
  obtain ⟨names, a, list, run⟩ := bind_eq_ok.1 run
  obtain ⟨body, b, block, ⟨⟩⟩ := bind_eq_ok.1 run
  obtain ⟨_, _, ⟨⟩, list⟩ := bind_eq_ok.1 list
  have start : p.input.body = p.current :: p.peek :: p.advance.ahead := by
    rw [ended.body_eq (kind ▸ by decide), ended.ahead_eq (left ▸ by decide)]
  by_cases closed : p.advance.peek.kind = .rparen
  · simp only [closed, decide_true, if_true] at list
    obtain ⟨_, _, ⟨⟩, ⟨⟩⟩ := bind_eq_ok.1 list
    obtain ⟨us, n, derived, few, reads⟩ :=
      bracedBlock_sound sound ended.advance.advance block quiet
    refine ⟨_, _, .function kind left closed derived, by omega, ?_, quiet⟩
    rw [start, ended.advance.ahead_eq (closed ▸ by decide), ← Parser.advance_body, reads.body]
    rfl
  · simp only [closed, decide_false] at list
    obtain ⟨_, _, expected, list⟩ := bind_eq_ok.1 list
    obtain ⟨ident, rfl⟩ := expectPeek_eq_ok.1 expected
    obtain ⟨_, _, ⟨⟩, list⟩ := bind_eq_ok.1 list
    obtain ⟨_, _, ⟨⟩, list⟩ := bind_eq_ok.1 list
    obtain ⟨others, c, more, list⟩ := bind_eq_ok.1 list
    obtain ⟨_, _, close, ⟨⟩⟩ := bind_eq_ok.1 list
    obtain ⟨right, rfl⟩ := expectPeek_eq_ok.1 close
    rw [← Parser.advance_current] at ident
    obtain ⟨quietC, ts, parameters, listed⟩ :=
      moreParameters_sound ended.advance.advance more ident
    have endedC :=
      ((Keeps.moreParameters Parser.extends_frame _).ok more).ended ended.advance.advance
    obtain ⟨us, n, derived, few, reads⟩ :=
      bracedBlock_sound sound endedC.advance block (quiet.trans quietC.symm)
    refine ⟨_, _, .functionOf kind left parameters right derived, by omega, ?_, quiet⟩
    rw [start, ← Parser.advance_body p.advance, ended.advance.advance.body_eq (ident ▸ by decide),
      listed, endedC.ahead_eq (right ▸ by decide), ← Parser.advance_body c.advance, reads.body]
    simp

/-- The first operand, with the layer it belongs to. What follows a prefix operator was
read as far as its operand goes, so no call is left over. -/
theorem firstOperand_sound (sound : inner.Sound k) {p q : Parser} {e : Expr} (ended : p.Ended)
    (run : firstOperand inner p = .ok e q) (quiet : q.errors = p.errors) :
    ∃ layer ts n, Expression layer ts e n ∧ n ≤ k + 1 ∧ p.Reads q ts ∧
      Layer.unary.rank ≤ layer.rank ∧ q.peek.kind.precedence.rank ≤ layer.rank := by
  obtain ⟨_, _, ⟨⟩, run⟩ := bind_eq_ok.1 run
  have tight : ∀ q : Parser, q.peek.kind.precedence.rank ≤ Layer.call.rank := fun q =>
    q.peek.kind.precedence_rank_le
  have call : Layer.unary.rank ≤ Layer.call.rank := by decide
  cases kind : p.current.kind <;> simp only [kind, Kind.operandForm?] at run
  case ident =>
    cases run
    have body := ended.body_eq (kind ▸ by decide)
    exact ⟨.call, _, 1, .identifier kind, by omega, ⟨body, rfl⟩, call, tight _⟩
  case int =>
    have body := ended.body_eq (kind ▸ by decide)
    obtain ⟨_, _, ⟨⟩, run⟩ := bind_eq_ok.1 run
    cases number : integerValue? p.current.literal with
    | none => simp only [number] at run; cases run
    | some value =>
      simp only [number] at run
      cases run
      exact ⟨.call, _, 1, .integer kind (integerValue?_eq_some.1 number), by omega, ⟨body, rfl⟩,
        call, tight _⟩
  case trueWord | falseWord =>
    cases run
    have body := ended.body_eq (kind ▸ by decide)
    exact ⟨.call, _, 1, .boolean (by simp [kind]), by omega, ⟨body, rfl⟩, call, tight _⟩
  case bang | minus =>
    have body := ended.body_eq (kind ▸ by decide)
    obtain ⟨_, _, ⟨⟩, run⟩ := bind_eq_ok.1 run
    obtain ⟨_, _, ⟨⟩, run⟩ := bind_eq_ok.1 run
    obtain ⟨operand, m, read, ⟨⟩⟩ := bind_eq_ok.1 run
    obtain ⟨ts, n, derived, few, reads, stop⟩ := sound.expr (by decide) ended.advance read quiet
    refine ⟨.unary, _, _, .unary (by simp [kind]) derived, by omega, ⟨?_, quiet⟩, Nat.le_refl _,
      Nat.le_of_not_lt stop⟩
    rw [body, ← Parser.advance_body, reads.body]
    rfl
  case lparen =>
    obtain ⟨ts, n, derived, few, reads⟩ := group_sound sound ended kind run quiet
    exact ⟨.call, ts, n + 1, .group derived, by omega, reads, call, tight q⟩
  case ifWord =>
    obtain ⟨ts, n, derived, few, reads⟩ := conditional_sound sound ended kind run quiet
    exact ⟨.call, ts, n, derived, few, reads, call, tight q⟩
  case functionWord =>
    obtain ⟨ts, n, derived, few, reads⟩ := function_sound sound ended kind run quiet
    exact ⟨.call, ts, n, derived, few, reads, call, tight q⟩
  all_goals cases run

theorem moreArguments_sound (sound : inner.Sound k) {n : Nat} {p q : Parser} {es : List Expr}
    (ended : p.Ended) (run : moreArguments inner n p = .ok es q) (quiet : q.errors = p.errors)
    {ts : List Token} {e : Expr} {l : Nat} (first : Expression .equality ts e l) (few : l ≤ k) :
    ∃ us m, Arguments (ts ++ us) (e :: es) m ∧ m ≤ k ∧ p.ahead = us ++ q.ahead := by
  induction n generalizing p es ts e l with
  | zero => cases run; exact ⟨[], l, by simpa using .one first, few, rfl⟩
  | succ n ih =>
    rw [moreArguments_succ] at run
    by_cases comma : p.peek.kind = .comma
    · rw [if_pos comma] at run
      obtain ⟨second, a, read, run⟩ := bind_eq_ok.1 run
      obtain ⟨others, b, more, ⟨⟩⟩ := bind_eq_ok.1 run
      have toA := (sound.kept.expr .lowest).ok read
      have toB := (Keeps.moreArguments Parser.extends_frame sound.kept n).ok more
      obtain ⟨quietA, quietB⟩ := toA.errors_eq toB quiet
      obtain ⟨us, m, derived, fewM, reads, -⟩ :=
        sound.expr (by decide) ended.advance.advance read quietA
      obtain ⟨vs, l, others, fewL, rest⟩ :=
        ih (toA.ended ended.advance.advance) more quietB derived fewM
      refine ⟨_, _, .more first comma others, by omega, ?_⟩
      rw [ended.ahead_eq (comma ▸ by decide), ← Parser.advance_body, reads.body, rest]
      simp
    · rw [if_neg comma] at run
      cases run
      exact ⟨[], l, by simpa using .one first, few, rfl⟩

theorem call_sound (sound : inner.Sound k) {p q : Parser} {callee e : Expr} (ended : p.Ended)
    (kind : p.current.kind = .lparen) (run : call inner callee p = .ok e q)
    (quiet : q.errors = p.errors) {ts : List Token} {n : Nat}
    (function : Expression .call ts callee n) (few : n ≤ k + 1) :
    ∃ us m, Expression .call (ts ++ us) e m ∧ m ≤ k + 1 ∧ p.Reads q us := by
  obtain ⟨_, _, ⟨⟩, run⟩ := bind_eq_ok.1 run
  obtain ⟨es, a, list, ⟨⟩⟩ := bind_eq_ok.1 run
  obtain ⟨_, _, ⟨⟩, list⟩ := bind_eq_ok.1 list
  by_cases closed : p.peek.kind = .rparen
  · simp only [closed, decide_true, if_true] at list
    obtain ⟨_, _, ⟨⟩, ⟨⟩⟩ := bind_eq_ok.1 list
    refine ⟨_, n, .call function kind closed, few, ?_, quiet⟩
    rw [ended.body_eq (kind ▸ by decide), ended.ahead_eq (closed ▸ by decide)]
    rfl
  · simp only [closed, decide_false] at list
    obtain ⟨_, _, ⟨⟩, list⟩ := bind_eq_ok.1 list
    obtain ⟨first, b, read, list⟩ := bind_eq_ok.1 list
    obtain ⟨_, _, ⟨⟩, list⟩ := bind_eq_ok.1 list
    obtain ⟨others, c, more, list⟩ := bind_eq_ok.1 list
    obtain ⟨_, _, close, ⟨⟩⟩ := bind_eq_ok.1 list
    obtain ⟨right, rfl⟩ := expectPeek_eq_ok.1 close
    have toB := (sound.kept.expr .lowest).ok read
    have toC := (Keeps.moreArguments Parser.extends_frame sound.kept _).ok more
    obtain ⟨quietB, quietC⟩ := toB.errors_eq toC quiet
    obtain ⟨us, m, derived, fewM, reads, -⟩ := sound.expr (by decide) ended.advance read quietB
    obtain ⟨vs, l, list, fewL, rest⟩ :=
      moreArguments_sound sound (toB.ended ended.advance) more quietC derived fewM
    refine ⟨_, _, .callWith function kind list right, by omega, ?_, quiet⟩
    rw [ended.body_eq (kind ▸ by decide), ← Parser.advance_body, reads.body, rest,
      (toC.ended (toB.ended ended.advance)).ahead_eq (right ▸ by decide)]
    simp

/-- Left operands are of the layer of the operator, right operands of the next one. -/
theorem binary_sound (sound : inner.Sound k) {p q : Parser} {left e : Expr} {layer : Layer}
    (ended : p.Ended) (member : p.current.kind ∈ layer.operators)
    (run : binary inner left p = .ok e q) (quiet : q.errors = p.errors) {ts : List Token} {n : Nat}
    (first : Expression layer ts left n) (few : n ≤ k + 1) :
    ∃ us m, Expression layer (ts ++ us) e m ∧ m ≤ k + 1 ∧ p.Reads q us ∧
      q.peek.kind.precedence.rank ≤ layer.rank := by
  obtain ⟨form, precedence, next, proper⟩ := Layer.mem_operators member
  have alive : p.current.kind ≠ .eof := fun eof => by rw [eof] at form; cases form
  obtain ⟨_, _, ⟨⟩, run⟩ := bind_eq_ok.1 run
  obtain ⟨_, _, ⟨⟩, run⟩ := bind_eq_ok.1 run
  obtain ⟨right, m, read, ⟨⟩⟩ := bind_eq_ok.1 run
  rw [precedence] at read
  obtain ⟨us, m, second, fewM, reads, stop⟩ := sound.expr proper ended.advance read quiet
  refine ⟨_, _, .binary first member (next ▸ second), by omega, ⟨?_, quiet⟩, Nat.le_of_not_lt stop⟩
  rw [ended.body_eq alive, ← Parser.advance_body, reads.body]
  rfl

theorem operator_sound (sound : inner.Sound k) {limit : Precedence} {form : OperatorForm}
    {p q : Parser} {left e : Expr} (ended : p.Ended)
    (found : p.current.kind.operatorForm? = some form) (above : limit < p.current.kind.precedence)
    (run : operator inner left form p = .ok e q) (quiet : q.errors = p.errors) {layer : Layer}
    {ts : List Token} {n : Nat} (derived : Expression layer ts left n) (few : n ≤ k + 1)
    (reach : limit.layer.rank ≤ layer.rank)
    (tight : p.current.kind.precedence.rank ≤ layer.rank) :
    ∃ own us m, Expression own (ts ++ us) e m ∧ m ≤ k + 1 ∧ p.Reads q us ∧
      limit.layer.rank ≤ own.rank ∧ q.peek.kind.precedence.rank ≤ own.rank := by
  cases form with
  | call =>
    have paren := Kind.eq_lparen_of_call found
    rw [paren] at tight
    obtain rfl : layer = .call := Layer.rank_inj (Nat.le_antisymm layer.rank_le tight)
    obtain ⟨us, m, applied, fewM, reads⟩ := call_sound sound ended paren run quiet derived few
    exact ⟨.call, us, m, applied, fewM, reads, reach, Kind.precedence_rank_le _⟩
  | binary =>
    obtain ⟨own, member⟩ := Kind.exists_layer found
    have precedence := (Layer.mem_operators member).2.1
    rw [precedence] at above tight
    obtain ⟨us, m, whole, fewM, reads, stop⟩ :=
      binary_sound sound ended member run quiet (derived.loosenTo tight) few
    exact ⟨own, us, m, whole, fewM, reads, Precedence.rank_layer_le above, stop⟩

/-- The operator loop keeps the left operand derived at a layer that the next token does
not bind tighter than. -/
theorem operators_sound (sound : inner.Sound k) {limit : Precedence} {n : Nat} {left e : Expr}
    {p q : Parser} (ended : p.Ended) (bound : p.remaining ≤ n)
    (run : operators inner limit n left p = .ok e q) (quiet : q.errors = p.errors)
    {layer : Layer} {ts : List Token} {l : Nat} (derived : Expression layer ts left l)
    (few : l ≤ k + 1) (reach : limit.layer.rank ≤ layer.rank)
    (tight : p.peek.kind.precedence.rank ≤ layer.rank) :
    ∃ us m, Expression limit.layer (ts ++ us) e m ∧ m ≤ k + 1 ∧ p.ahead = us ++ q.ahead ∧
      ¬ limit < q.peek.kind.precedence := by
  induction n generalizing left p layer ts l with
  | zero =>
    have eof := ended.peek_eof (Nat.le_succ_of_le bound)
    cases run
    refine ⟨[], l, by simpa using derived.loosenTo reach, few, rfl, ?_⟩
    rw [eof]
    exact Nat.not_lt_zero _
  | succ n ih =>
    rw [operators_succ] at run
    split at run
    · next none =>
      cases run
      refine ⟨[], l, by simpa using derived.loosenTo reach, few, rfl, fun lt => ?_⟩
      rw [if_pos lt] at none
      have some := (Kind.operatorForm?_isSome q.peek.kind).2
        (Nat.lt_of_le_of_lt (Nat.zero_le _) lt)
      simp [none] at some
    · next form found =>
      have above : limit < p.peek.kind.precedence := by
        by_contra loose
        rw [if_neg loose] at found
        cases found
      rw [if_pos above] at found
      have alive : p.peek.kind ≠ .eof := fun eof => by rw [eof] at found; cases found
      have two := ended.two_le_remaining alive
      obtain ⟨grown, m, step, loop⟩ := bind_eq_ok.1 run
      have toM := (Keeps.operator Parser.extends_frame sound.kept left form).ok step
      have toQ := (Keeps.operators Parser.extends_frame sound.kept limit n grown).ok loop
      obtain ⟨quietM, quietQ⟩ := toM.errors_eq toQ quiet
      have fewer := toM.remaining_le
      rw [Parser.advance_remaining] at fewer
      rw [← Parser.advance_current] at found above tight
      obtain ⟨own, us, _, longer, fewM, reads, reachM, tightM⟩ :=
        operator_sound sound ended.advance found above step quietM derived few reach tight
      obtain ⟨vs, h, whole, fewH, rest, stop⟩ :=
        ih (toM.ended ended.advance) (by omega) loop quietQ longer fewM reachM tightM
      refine ⟨us ++ vs, h, by simpa using whole, fewH, ?_, stop⟩
      rw [← Parser.advance_body, reads.body, rest]
      simp

theorem expression_sound (sound : inner.Sound k) {limit : Precedence} {p q : Parser} {e : Expr}
    (proper : limit ≠ .call) (ended : p.Ended) (run : expression inner limit p = .ok e q)
    (quiet : q.errors = p.errors) :
    ∃ ts n, Expression limit.layer ts e n ∧ n ≤ k + 1 ∧ p.Reads q ts ∧
      ¬ limit < q.peek.kind.precedence := by
  obtain ⟨left, m, first, run⟩ := bind_eq_ok.1 run
  obtain ⟨_, _, ⟨⟩, run⟩ := bind_eq_ok.1 run
  have toM := (Keeps.firstOperand Parser.extends_frame sound.kept).ok first
  have toQ := (Keeps.operators Parser.extends_frame sound.kept limit _ left).ok run
  obtain ⟨quietM, quietQ⟩ := toM.errors_eq toQ quiet
  obtain ⟨layer, ts, n, derived, few, reads, high, tight⟩ :=
    firstOperand_sound sound ended first quietM
  have reach : limit.layer.rank ≤ Layer.unary.rank := by
    cases limit <;> first | decide | exact absurd rfl proper
  obtain ⟨us, h, whole, fewH, rest, stop⟩ :=
    operators_sound sound (toM.ended ended) (Nat.le_refl _) run quietQ derived few
      (Nat.le_trans reach high) tight
  refine ⟨ts ++ us, h, whole, fewH, ⟨?_, quiet⟩, stop⟩
  rw [reads.body, rest]
  simp

theorem value_sound (sound : inner.Sound k) {p q : Parser} {v : Option Expr} (ended : p.Ended)
    (run : value inner p = .ok v q) (quiet : q.errors = p.errors) :
    ∃ e ts n, v = some e ∧ Expression .equality ts e n ∧ n ≤ k ∧ p.Reads q ts ∧
      q.peek.kind ∉ continuations := by
  unfold value optional at run
  cases read : inner.expr .lowest p with
  | ok e m =>
    simp only [read] at run
    cases run
    obtain ⟨ts, n, derived, few, reads, stop⟩ := sound.expr (by decide) ended read quiet
    exact ⟨e, ts, n, rfl, derived, few, reads, fun on => stop ((Kind.mem_continuations _).1 on)⟩
  | error d m =>
    simp only [read] at run
    cases run
    have reach := (sound.kept.expr .lowest).error read
    exact absurd quiet (reach.errors_ne (Parser.extends_frame.refl _))

theorem skipSemicolon_sound {p q : Parser} {u : Unit} (ended : p.Ended)
    (run : skipSemicolon p = .ok u q) :
    ∃ ts exposed, Terminator ts exposed ∧ p.advance.Reads q ts ∧
      (exposed = true → q.peek = p.peek) := by
  unfold skipSemicolon at run
  by_cases kind : p.peek.kind = .semicolon
  · rw [if_pos kind] at run
    cases run
    exact ⟨_, false, .semicolon kind, ⟨ended.ahead_eq (kind ▸ by decide), rfl⟩, by simp⟩
  · rw [if_neg kind] at run
    cases run
    exact ⟨[], true, .missing, ⟨rfl, rfl⟩, fun _ => rfl⟩

theorem closing_sound (sound : inner.Sound k) {p m q : Parser} {v : Option Expr} {u : Unit}
    (ended : p.Ended) (read : value inner p = .ok v m) (skip : skipSemicolon m = .ok u q)
    (quiet : q.errors = p.errors) :
    ∃ e ts us n exposed, v = some e ∧ Expression .equality ts e n ∧ n ≤ k ∧
      Terminator us exposed ∧ p.Reads q (ts ++ us) ∧
      (exposed = true → q.peek.kind ∉ continuations) := by
  have toM := (Keeps.value Parser.extends_frame sound.kept).ok read
  have toQ := (Keeps.skipSemicolon Parser.extends_frame).ok skip
  obtain ⟨quietM, -⟩ := toM.errors_eq toQ quiet
  obtain ⟨e, ts, n, rfl, derived, few, reads, apart⟩ := value_sound sound ended read quietM
  obtain ⟨us, exposed, stop, closed, same⟩ := skipSemicolon_sound (toM.ended ended) skip
  refine ⟨e, ts, us, n, exposed, rfl, derived, few, stop, ⟨?_, quiet⟩, fun h => same h ▸ apart⟩
  rw [reads.body, ← Parser.advance_body, closed.body]
  simp

theorem varStmt_sound (sound : inner.Sound k) {p q : Parser} {s : Stmt} (ended : p.Ended)
    (kind : p.current.kind = .varWord) (run : varStmt inner p = .ok s q)
    (quiet : q.errors = p.errors) :
    ∃ ts n exposed, Statement ts s n exposed ∧ n ≤ k ∧ p.Reads q ts ∧
      (exposed = true → q.peek.kind ∉ continuations) := by
  obtain ⟨_, _, ⟨⟩, run⟩ := bind_eq_ok.1 run
  obtain ⟨_, _, expected, run⟩ := bind_eq_ok.1 run
  obtain ⟨ident, rfl⟩ := expectPeek_eq_ok.1 expected
  obtain ⟨_, _, ⟨⟩, run⟩ := bind_eq_ok.1 run
  obtain ⟨_, _, expected, run⟩ := bind_eq_ok.1 run
  obtain ⟨assign, rfl⟩ := expectPeek_eq_ok.1 expected
  obtain ⟨_, _, ⟨⟩, run⟩ := bind_eq_ok.1 run
  obtain ⟨v, m, read, run⟩ := bind_eq_ok.1 run
  obtain ⟨_, _, skip, ⟨⟩⟩ := bind_eq_ok.1 run
  obtain ⟨e, ts, us, n, exposed, rfl, derived, few, stop, reads, apart⟩ :=
    closing_sound sound ended.advance.advance.advance read skip quiet
  have name : p.advance.current.kind = .ident := p.advance_current ▸ ident
  refine ⟨_, n, exposed, .var kind name assign derived stop, few, ⟨?_, quiet⟩, apart⟩
  rw [ended.body_eq (kind ▸ by decide), ← Parser.advance_body,
    ended.advance.body_eq (name ▸ by decide), ended.advance.ahead_eq (assign ▸ by decide),
    ← Parser.advance_body p.advance.advance, reads.body]
  rfl

theorem returnStmt_sound (sound : inner.Sound k) {p q : Parser} {s : Stmt} (ended : p.Ended)
    (kind : p.current.kind = .returnWord) (run : returnStmt inner p = .ok s q)
    (quiet : q.errors = p.errors) :
    ∃ ts n exposed, Statement ts s n exposed ∧ n ≤ k ∧ p.Reads q ts ∧
      (exposed = true → q.peek.kind ∉ continuations) := by
  obtain ⟨_, _, ⟨⟩, run⟩ := bind_eq_ok.1 run
  obtain ⟨_, _, ⟨⟩, run⟩ := bind_eq_ok.1 run
  obtain ⟨v, m, read, run⟩ := bind_eq_ok.1 run
  obtain ⟨_, _, skip, ⟨⟩⟩ := bind_eq_ok.1 run
  obtain ⟨e, ts, us, n, exposed, rfl, derived, few, stop, reads, apart⟩ :=
    closing_sound sound ended.advance read skip quiet
  refine ⟨_, n, exposed, .ret kind derived stop, few, ⟨?_, quiet⟩, apart⟩
  rw [ended.body_eq (kind ▸ by decide), ← Parser.advance_body, reads.body]
  rfl

theorem whileStmt_sound (sound : inner.Sound k) {p q : Parser} {s : Stmt} (ended : p.Ended)
    (kind : p.current.kind = .whileWord) (run : whileStmt inner p = .ok s q)
    (quiet : q.errors = p.errors) :
    ∃ ts n, Statement ts s n false ∧ n ≤ k ∧ p.Reads q ts := by
  obtain ⟨_, _, ⟨⟩, run⟩ := bind_eq_ok.1 run
  obtain ⟨test, a, first, run⟩ := bind_eq_ok.1 run
  obtain ⟨body, b, second, run⟩ := bind_eq_ok.1 run
  obtain ⟨_, c, skip, ⟨⟩⟩ := bind_eq_ok.1 run
  have toA := (Keeps.condition Parser.extends_frame sound.kept).ok first
  have toB := (Keeps.bracedBlock Parser.extends_frame sound.kept).ok second
  have toC := (Keeps.skipSemicolon Parser.extends_frame).ok skip
  obtain ⟨quietA, rest⟩ := toA.errors_eq (Parser.extends_frame.trans toB toC) quiet
  obtain ⟨quietB, -⟩ := toB.errors_eq toC rest
  have endedB := toB.ended (toA.ended ended)
  obtain ⟨ts, n, hn, fewN, readsA⟩ := condition_sound sound ended first quietA
  obtain ⟨us, m, hm, fewM, readsB⟩ := bracedBlock_sound sound (toA.ended ended) second quietB
  obtain ⟨vs, missing, stop, closed, -⟩ := skipSemicolon_sound endedB skip
  refine ⟨_, _, .loop kind hn hm stop, by omega, ?_, quiet⟩
  rw [ended.body_eq (kind ▸ by decide), ← Parser.advance_body, readsA.body, ← Parser.advance_body,
    readsB.body, ← Parser.advance_body, closed.body]
  simp

theorem expressionStmt_sound (sound : inner.Sound k) {p q : Parser} {s : Stmt} (ended : p.Ended)
    (run : expressionStmt inner p = .ok s q) (quiet : q.errors = p.errors) :
    ∃ ts n exposed, Statement ts s n exposed ∧ n ≤ k ∧ p.Reads q ts ∧
      (exposed = true → q.peek.kind ∉ continuations) := by
  obtain ⟨_, _, ⟨⟩, run⟩ := bind_eq_ok.1 run
  obtain ⟨v, m, read, run⟩ := bind_eq_ok.1 run
  obtain ⟨_, _, skip, ⟨⟩⟩ := bind_eq_ok.1 run
  obtain ⟨e, ts, us, n, exposed, rfl, derived, few, stop, reads, apart⟩ :=
    closing_sound sound ended read skip quiet
  obtain ⟨first, ts, rfl, -⟩ := derived.exists_head
  rw [Parser.current_of_body (by rw [reads.body, List.append_assoc, List.cons_append])]
  exact ⟨_, n, exposed, .expression derived stop, few, reads, apart⟩

theorem stmt_sound (sound : inner.Sound k) {p q : Parser} {s : Stmt} (ended : p.Ended)
    (run : stmt inner p = .ok s q) (quiet : q.errors = p.errors) :
    ∃ ts n exposed, Statement ts s n exposed ∧ n ≤ k ∧ p.Reads q ts ∧
      (exposed = true → q.peek.kind ∉ continuations) := by
  obtain ⟨_, _, ⟨⟩, run⟩ := bind_eq_ok.1 run
  cases kind : p.current.kind <;> simp only [kind, Kind.stmtForm?] at run
  case varWord => exact varStmt_sound sound ended kind run quiet
  case returnWord => exact returnStmt_sound sound ended kind run quiet
  case whileWord =>
    obtain ⟨ts, n, derived, few, reads⟩ := whileStmt_sound sound ended kind run quiet
    exact ⟨ts, n, false, derived, few, reads, by simp⟩
  all_goals exact expressionStmt_sound sound ended run quiet

theorem stmtsUntil_sound (sound : inner.Sound k) {close : Kind} {n : Nat} {p q : Parser}
    {ss : List Stmt} (ended : p.Ended) (bound : p.remaining ≤ n)
    (run : stmtsUntil inner close n p = (ss, q)) (quiet : q.errors = p.errors) :
    ∃ ts m, Statements ts ss m ∧ m ≤ k ∧ p.input.body = ts ++ q.input.body ∧
      (q.current.kind = close ∨ q.current.kind = .eof) := by
  induction n generalizing p ss with
  | zero =>
    cases run
    exact ⟨[], 0, .nil, Nat.zero_le k, rfl, .inr (ended.current_eof (by omega))⟩
  | succ n ih =>
    rw [stmtsUntil] at run
    split at run
    · next stop =>
      cases run
      exact ⟨[], 0, .nil, Nat.zero_le k, rfl, stop⟩
    · next running =>
      have one := ended.one_le_remaining fun eof => running (.inr eof)
      cases read : stmt inner p with
      | ok s m =>
        simp only [read, Prod.mk.injEq] at run
        obtain ⟨rfl, rfl⟩ := run
        have toM := (Keeps.stmt Parser.extends_frame sound.kept).ok read
        have toQ := stmtsUntil_keeps Parser.extends_frame sound.kept close n m.advance
        have fewer := toM.remaining_le
        obtain ⟨quietM, quietQ⟩ := toM.errors_eq
          (Parser.extends_frame.trans (Parser.extends_frame.advance m) toQ) quiet
        obtain ⟨ts, l, exposed, first, fewL, reads, apart⟩ := stmt_sound sound ended read quietM
        obtain ⟨us, h, others, fewH, rest, stop⟩ := ih (toM.ended ended).advance
          (by rw [Parser.advance_remaining]; omega) rfl quietQ
        refine ⟨ts ++ us, _, .cons first others ?_, by omega, ?_, stop⟩
        · intro open_ t head
          obtain ⟨us, rfl⟩ : ∃ vs, us = t :: vs := List.head?_eq_some_iff.1 head
          exact Parser.peek_of_tail (p := m) rest ▸ apart open_
        · rw [reads.body, ← Parser.advance_body, rest]
          simp
      | error d m =>
        simp only [read] at run
        have toM := (Keeps.stmt Parser.extends_frame sound.kept).error read
        have toQ := stmtsUntil_keeps Parser.extends_frame sound.kept close n (m.record d).advance
        rw [run] at toQ
        exact absurd quiet (toM.errors_ne
          (Parser.extends_frame.trans (Parser.extends_frame.advance _) toQ))

theorem bracedStmts_sound (sound : inner.Sound k) {p q : Parser} {b : Block} (ended : p.Ended)
    (kind : p.current.kind = .lbrace) (run : bracedStmts inner p = .ok b q)
    (quiet : q.errors = p.errors) :
    ∃ ts n, Braced ts b n ∧ n ≤ k + 1 ∧ p.Reads q ts := by
  obtain ⟨_, _, ⟨⟩, run⟩ := bind_eq_ok.1 run
  obtain ⟨_, _, ⟨⟩, run⟩ := bind_eq_ok.1 run
  obtain ⟨_, _, ⟨⟩, run⟩ := bind_eq_ok.1 run
  obtain ⟨_, _, ⟨⟩, run⟩ := bind_eq_ok.1 run
  have toM := stmtsUntil_keeps Parser.extends_frame sound.kept .rbrace p.advance.remaining p.advance
  generalize body : stmtsUntil inner .rbrace p.advance.remaining p.advance = result at run toM
  obtain ⟨ss, m⟩ := result
  dsimp only at run toM
  by_cases closing : m.current.kind = .rbrace
  · rw [if_pos closing] at run
    cases run
    obtain ⟨ts, n, derived, few, rest, -⟩ :=
      stmtsUntil_sound sound ended.advance (Nat.le_refl _) body quiet
    refine ⟨_, n + 1, .mk kind derived closing, by omega, ?_, quiet⟩
    rw [ended.body_eq (kind ▸ by decide), ← Parser.advance_body, rest,
      (toM.ended ended).body_eq (closing ▸ by decide)]
    simp
  · rw [if_neg closing] at run
    cases run

end Rule

theorem Inner.Sound.above {inner : Inner} {k : Nat} (sound : inner.Sound k) :
    inner.above.Sound (k + 1) where
  kept := sound.kept.above Parser.extends_frame
  expr := by
    intro limit p e q proper ended run quiet
    obtain ⟨-, r, deeper, rfl⟩ := Rule.nested_eq_ok.1 run
    obtain ⟨ts, n, derived, few, reads, stop⟩ :=
      Rule.expression_sound (p := { p with depth := p.depth + 1 }) sound proper ended deeper quiet
    exact ⟨ts, n, derived, few, ⟨reads.body, quiet⟩, stop⟩
  block := by
    intro p b q ended kind run quiet
    obtain ⟨-, r, deeper, rfl⟩ := Rule.nested_eq_ok.1 run
    obtain ⟨ts, n, derived, few, reads⟩ :=
      Rule.bracedStmts_sound (p := { p with depth := p.depth + 1 }) sound ended kind deeper quiet
    exact ⟨ts, n, derived, few, reads.body, quiet⟩

theorem Inner.Sound.levels (k : Nat) : (Inner.levels k).Sound k := by
  induction k with
  | zero => exact ⟨.levels Parser.extends_frame 0, nofun, nofun⟩
  | succ k ih => exact ih.above

theorem parse_of_isEmpty {source : String} {file : Option String}
    (h : (readProgram source file).2.errors.isEmpty) :
    parse source file = .ok (readProgram source file).1 := by
  change (readProgram source file).2.verdict (readProgram source file).1 = _
  rw [Parser.verdict, if_pos h]

theorem parse_of_errors {source : String} {file : Option String}
    (h : (readProgram source file).2.errors.toList ≠ []) :
    parse source file = .error (readProgram source file).2.errors.toList := by
  have some : ¬ (readProgram source file).2.errors.isEmpty := fun none =>
    h (Array.toList_eq_nil_iff.2 (Array.isEmpty_iff.1 none))
  change (readProgram source file).2.verdict (readProgram source file).1 = _
  rw [Parser.verdict, if_neg some]

theorem verdict_eq_ok {p : Parser} {program result : Program} (h : p.verdict program = .ok result) :
    p.errors = #[] ∧ result = program := by
  unfold Parser.verdict at h
  split at h
  · next none =>
    cases h
    exact ⟨Array.isEmpty_iff.1 none, rfl⟩
  · cases h

structure Parser.Fresh (p : Parser) : Prop where
  ended : p.Ended
  running : ∀ t ∈ p.input.body, t.kind ≠ .eof
  depth : p.depth = 0
  errors : p.errors = #[]

theorem Parser.ofSource_fresh (source : String) (file : Option String) :
    (Parser.ofSource source file).Fresh :=
  ⟨Lexer.stream_last_kind _, fun t member => (Lexer.stream_lexical _ t member).2, rfl, rfl⟩

theorem Parser.ofSource_body (source : String) (file : Option String) :
    (Parser.ofSource source file).input.body = (tokenize source file).dropLast := by
  rw [tokenize_dropLast]
  rfl

theorem Parser.Fresh.inner {p : Parser} (fresh : p.Fresh) : p.inner = Inner.levels maxDepth := by
  rw [Parser.inner, fresh.depth, Nat.sub_zero]

theorem Parser.Fresh.derives {p : Parser} (fresh : p.Fresh) (quiet : p.program.2.errors = #[]) :
    ∃ n ≤ maxDepth, Derives p.input.body p.program.1 n := by
  generalize run : Rule.stmtsUntil p.inner .eof p.remaining p = result
  obtain ⟨ss, q⟩ := result
  have whole : p.program = (⟨ss⟩, q.note (.parsed ss.length q.errors.size)) := by
    rw [Parser.program, Parser.stmtsUntil, run]
  rw [whole] at quiet ⊢
  have sound : p.inner.Sound maxDepth := fresh.inner ▸ Inner.Sound.levels maxDepth
  obtain ⟨ts, n, derived, few, body, stop⟩ :=
    Rule.stmtsUntil_sound sound fresh.ended (Nat.le_refl _) run (quiet.trans fresh.errors.symm)
  have finished : q.input.body = [] := by
    rcases left : q.input.body with _ | ⟨t, rest⟩
    · rfl
    · have kind : t.kind = .eof := by
        rw [← Parser.current_of_body left]
        rcases stop with eof | eof <;> exact eof
      exact absurd kind (fresh.running t (by rw [body, left]; simp))
  rw [finished, List.append_nil] at body
  exact ⟨n, few, body ▸ derived⟩

/-- What the parser accepts has a derivation that opens at most 256 levels at once. -/
theorem derives_of_parse (source : String) (file : Option String) (program : Program)
    (accepted : parse source file = .ok program) :
    ∃ n ≤ 256, Derives (tokenize source file).dropLast program n := by
  obtain ⟨quiet, rfl⟩ := verdict_eq_ok accepted
  obtain ⟨n, few, derived⟩ := (Parser.ofSource_fresh source file).derives quiet
  exact ⟨n, few, Parser.ofSource_body source file ▸ derived⟩

theorem derives_of_parse_operators :
    ∃ program, parse "a+b*-c" none = .ok program ∧
      ∃ n ≤ 256, Derives (tokenize "a+b*-c" none).dropLast program n := by
  have accepted : parse "a+b*-c" none = .ok (readProgram "a+b*-c" none).1 :=
    parse_of_isEmpty (by decide +kernel)
  exact ⟨_, accepted, derives_of_parse _ _ _ accepted⟩

end ScriptFront
