import ScriptFront.Proofs.Remainder
import ScriptFront.Proofs.Layer

/-! What has a derivation is read as its tree, up to the nesting limit and no further.
`Delivers k n` says both at once for a rule that has `k` levels left and a derivation that
opens `n`: if they suffice the rule yields the tree and stops before the rest, and if not
the first new diagnostic is the one for the nesting limit. The operator loop is entered in
the middle of a derivation: a left operand is read by the same call as the whole, and the
loop goes on from there. -/

namespace ScriptFront

open ScriptFront.Derivation

variable {α β : Type}

namespace Parser

/-- The first new diagnostic is that nesting is too deep. -/
def TooDeep (p : Parser) (diagnostics : List Diagnostic) : Prop :=
  ∃ d : Diagnostic, d.cause = .nestingTooDeep maxDepth ∧ p.errors.toList ++ [d] <+: diagnostics

structure Reaches (p q : Parser) (rest : List Token) : Prop where
  ahead : q.ahead = rest
  last : q.input.last = p.input.last
  depth : q.depth = p.depth
  errors : q.errors = p.errors

structure Ready (p : Parser) (k : Nat) : Prop where
  ended : p.Ended
  depth : p.depth + k = maxDepth

theorem Reaches.ready {p q : Parser} {rest : List Token} {k : Nat} (h : p.Reaches q rest)
    (ready : p.Ready k) : q.Ready k :=
  ⟨(congrArg Token.kind h.last).trans ready.ended, h.depth ▸ ready.depth⟩

theorem Reaches.trans {p q r : Parser} {rest more : List Token} (h : p.Reaches q rest)
    (k : q.Reaches r more) : p.Reaches r more :=
  ⟨k.ahead, k.last.trans h.last, k.depth.trans h.depth, k.errors.trans h.errors⟩

theorem Reaches.here {p : Parser} {rest : List Token} (h : p.ahead = rest) : p.Reaches p rest :=
  ⟨h, rfl, rfl, rfl⟩

theorem Ready.advance {p : Parser} {k : Nat} (ready : p.Ready k) : p.advance.Ready k :=
  ⟨ready.ended, ready.depth⟩

theorem Reaches.advance {p q : Parser} {t : Token} {rest : List Token}
    (h : p.Reaches q (t :: rest)) :
    p.Reaches q.advance rest :=
  ⟨congrArg List.tail h.ahead, h.last, h.depth, h.errors⟩

theorem Reaches.peek {p q : Parser} {t : Token} {rest : List Token} (h : p.Reaches q (t :: rest)) :
    q.peek = t := peek_of_tail h.ahead

end Parser

namespace Rule

theorem expectPeek_of_kind {kind : Kind} {p : Parser} (h : p.peek.kind = kind) :
    expectPeek kind p = .ok () p.advance := by simp [expectPeek, h]

/-- With `k` levels left a rule yields `a` and stops before `rest`, if `n` levels suffice;
else the nesting limit is the first thing it finds wrong. -/
structure Delivers (k n : Nat) (p : Parser) (rest : List Token)
    (result : EStateM.Result Diagnostic Parser α) (a : α) : Prop where
  ok : n ≤ k → ∃ q, result = .ok a q ∧ p.Reaches q rest
  deep : k < n → p.TooDeep (diagnostics result)

namespace Delivers

variable {k n m : Nat} {p : Parser} {rest more : List Token}

theorem of_ok {rule : Rule α} {a : α} {q : Parser} (run : rule p = .ok a q) (h : p.Reaches q rest) :
    Delivers k 0 p rest (rule p) a :=
  ⟨fun _ => ⟨q, run, h⟩, fun deep => absurd deep (Nat.not_lt_zero k)⟩

theorem bind {x : Rule α} {f : α → Rule β} {a : α} {b : β} (first : Delivers k n p rest (x p) a)
    (kept : ∀ a, (f a).Keeps Parser.Extends)
    (next : ∀ q, p.Reaches q rest → Delivers k m q more (f a q) b) :
    Delivers k (max n m) p more ((x >>= f) p) b := by
  refine ⟨fun few => ?_, fun deep => ?_⟩
  · obtain ⟨q, run, reach⟩ := first.ok (by omega)
    obtain ⟨r, result, further⟩ := (next q reach).ok (by omega)
    exact ⟨r, by rw [bind_of_ok run, result], reach.trans further⟩
  · by_cases few : n ≤ k
    · obtain ⟨q, run, reach⟩ := first.ok few
      obtain ⟨d, cause, found⟩ := (next q reach).deep (by omega)
      rw [reach.errors] at found
      exact ⟨d, cause, by rwa [bind_of_ok run]⟩
    · obtain ⟨d, cause, found⟩ := first.deep (by omega)
      exact ⟨d, cause, found.trans (diagnostics_prefix_bind kept p)⟩

theorem andThen {x : Rule α} {f : α → Rule β} {a : α} {b : β} (first : Delivers k n p rest (x p) a)
    (kept : ∀ a, (f a).Keeps Parser.Extends)
    (next : ∀ q, p.Reaches q rest → ∃ r, f a q = .ok b r ∧ q.Reaches r more) :
    Delivers k n p more ((x >>= f) p) b := by
  have both : Delivers k (max n 0) p more ((x >>= f) p) b := first.bind kept fun q reach => by
    obtain ⟨r, run, further⟩ := next q reach
    exact .of_ok run further
  rwa [Nat.max_zero] at both

theorem map {x : Rule α} {a : α} (first : Delivers k n p rest (x p) a) (f : α → β) :
    Delivers k n p rest ((x >>= fun a => pure (f a)) p) (f a) :=
  first.andThen (fun _ => .pure Parser.extends_frame _) fun q reach => ⟨q, rfl, .here reach.ahead⟩

theorem closed {x : Rule α} {a : α} {right : Token} (closing : right.kind = .rparen)
    (first : Delivers k n p (right :: rest) (x p) a) :
    Delivers k n p rest ((x >>= fun a => do expectPeek .rparen; return a) p) a := by
  refine first.andThen (fun _ => ?_) fun q reach => ?_
  · exact .bind Parser.extends_frame (.expectPeek Parser.extends_frame _) fun _ =>
      .pure Parser.extends_frame _
  · have kind : q.peek.kind = .rparen := reach.peek ▸ closing
    exact ⟨q.advance, bind_of_ok (expectPeek_of_kind kind),
      (Parser.Reaches.here reach.ahead).advance⟩

theorem of_reaches {q : Parser} {result : EStateM.Result Diagnostic Parser α} {a : α}
    (reach : p.Reaches q more) (h : Delivers k n q rest result a) :
    Delivers k n p rest result a := by
  refine ⟨fun few => ?_, fun deep => ?_⟩
  · obtain ⟨r, run, further⟩ := h.ok few
    exact ⟨r, run, reach.trans further⟩
  · obtain ⟨d, cause, found⟩ := h.deep deep
    exact ⟨d, cause, reach.errors ▸ found⟩

theorem of_advance {result : EStateM.Result Diagnostic Parser α} {a : α}
    (h : Delivers k n p.advance rest result a) : Delivers k n p rest result a :=
  .of_reaches (q := p.advance) ⟨rfl, rfl, rfl, rfl⟩ h

theorem succ {result : EStateM.Result Diagnostic Parser α} {a : α}
    (h : Delivers k n p rest result a) : Delivers (k + 1) (n + 1) p rest result a :=
  ⟨fun few => h.ok (by omega), fun deep => h.deep (by omega)⟩

end Delivers

end Rule

/-- What may follow an expression whose operators bind at least as tightly as `rank`. -/
def Follows (rank : Nat) (rest : List Token) : Prop :=
  ∀ t ∈ rest.head?, t.kind.precedence.rank ≤ rank ∧ t.kind ≠ .elseWord

/-- Rules for inner expressions and blocks that read all that has a derivation with at most
`k` levels. -/
structure Inner.Complete (inner : Inner) (k : Nat) : Prop where
  kept : inner.Keeps Parser.Extends
  expr : ∀ {limit ts e n p rest}, limit ≠ .call → Expression limit.layer ts e n → p.Ready k →
    p.input.body = ts ++ rest → Follows limit.rank rest →
    Rule.Delivers k n p rest (inner.expr limit p) e
  block : ∀ {ts b n p rest}, Braced ts b n → p.Ready k → p.input.body = ts ++ rest →
    Rule.Delivers k n p rest (inner.block p) b

theorem Follows.cons {rank : Nat} {t : Token} {rest : List Token} {kind : Kind} (h : t.kind = kind)
    (loose : kind.precedence.rank ≤ rank ∧ kind ≠ .elseWord) : Follows rank (t :: rest) := by
  intro u head
  cases head
  rwa [h]

theorem Follows.lparen {t : Token} {rest : List Token} (h : t.kind = .lparen) :
    Follows Layer.call.rank (t :: rest) := .cons h (by decide)

theorem Follows.operator {layer : Layer} {t : Token} {rest : List Token}
    (h : t.kind ∈ layer.operators) : Follows layer.rank (t :: rest) := by
  obtain ⟨form, precedence, -⟩ := Layer.mem_operators h
  refine .cons rfl ⟨by rw [precedence]; exact Nat.le_refl _, fun other => ?_⟩
  rw [other] at form
  cases form

theorem Follows.mono {a b : Nat} {rest : List Token} (h : Follows a rest) (le : a ≤ b) :
    Follows b rest := fun t head => ⟨Nat.le_trans (h t head).1 le, (h t head).2⟩

theorem Inner.Complete.lowest {inner : Inner} {k n : Nat} {p : Parser} {ts rest : List Token}
    {e : Expr} (complete : inner.Complete k) (derived : Expression .equality ts e n)
    (ready : p.Ready k) (body : p.input.body = ts ++ rest) (follows : Follows 0 rest) :
    Rule.Delivers k n p rest (inner.expr .lowest p) e :=
  complete.expr (by decide : Precedence.lowest ≠ .call) derived ready body follows

namespace Rule

variable {inner : Inner} {k n m : Nat} {p : Parser} {ts rest : List Token}

theorem group_complete (complete : inner.Complete k) {e : Expr} (derived : Parenthesised ts e n)
    (ready : p.Ready k) (body : p.input.body = ts ++ rest) :
    Delivers k n p rest (group inner p) e := by
  cases derived with
  | @mk left right us _ _ opening inside closing =>
    have ahead : p.advance.input.body = us ++ right :: rest := by
      rw [Parser.advance_body, Parser.ahead, body]
      simp
    have first := complete.lowest inside ready.advance ahead
      (.cons closing (by decide))
    exact (first.closed closing).of_advance

theorem condition_complete (complete : inner.Complete k) {e : Expr} (derived : Parenthesised ts e n)
    (ready : p.Ready k) (ahead : p.ahead = ts ++ rest) :
    Delivers k n p rest (condition inner p) e := by
  have inside := group_complete complete derived ready.advance ahead
  cases derived with
  | @mk left right us _ _ opening _ _ =>
    have kind : p.peek.kind = .lparen := Parser.peek_of_tail ahead ▸ opening
    have entered : condition inner p = group inner p.advance := bind_of_ok (expectPeek_of_kind kind)
    rw [entered]
    exact inside.of_advance

theorem bracedBlock_complete (complete : inner.Complete k) {b : Block} (derived : Braced ts b n)
    (ready : p.Ready k) (ahead : p.ahead = ts ++ rest) :
    Delivers k n p rest (bracedBlock inner p) b := by
  have inside := complete.block derived ready.advance ahead
  cases derived with
  | @mk left right us _ _ opening _ _ =>
    have kind : p.peek.kind = .lbrace := Parser.peek_of_tail ahead ▸ opening
    have entered : bracedBlock inner p = inner.block p.advance :=
      bind_of_ok (expectPeek_of_kind kind)
    rw [entered]
    exact inside.of_advance

theorem alternative_complete (complete : inner.Complete k) {b : Option Block}
    (derived : Alternative ts b n) (ready : p.Ready k) (ahead : p.ahead = ts ++ rest) {rank : Nat}
    (follows : Follows rank rest) : Delivers k n p rest (alternative inner p) b := by
  cases derived with
  | missing =>
    have other : p.peek.kind ≠ .elseWord := by
      rcases ready.ended.peek_eof_or_mem ahead with eof | head
      · rw [eof]
        decide
      · exact (follows _ head).2
    have run : alternative inner p = .ok none p := by
      rw [alternative, bind_peekIs]
      simp only [other, decide_false]
      rfl
    exact .of_ok run (.here ahead)
  | @block word us _ _ kind body =>
    have peek : p.peek = word := Parser.peek_of_tail ahead
    have run : alternative inner p =
        (bracedBlock inner >>= fun b => pure (some b) : Rule (Option Block)) p.advance := by
      rw [alternative, bind_peekIs]
      simp only [peek, kind, decide_true, if_true]
      rfl
    have ahead : p.advance.ahead = us ++ rest := by
      rw [Parser.ahead, Parser.advance_body, ahead]
      rfl
    rw [run]
    exact ((bracedBlock_complete complete body ready.advance ahead).map some).of_advance

theorem conditional_complete (complete : inner.Complete k) {us vs : List Token} {test : Expr}
    {consequence : Block} {otherwise : Option Block} {j : Nat} {word : Token}
    (current : p.current = word) (condition : Parenthesised ts test n)
    (body : Braced us consequence m) (alternative : Alternative vs otherwise j) (ready : p.Ready k)
    (ahead : p.ahead = ts ++ (us ++ (vs ++ rest))) {rank : Nat} (follows : Follows rank rest) :
    Delivers k (max n (max m j)) p rest (conditional inner p)
      (.conditional word test consequence otherwise) := by
  subst current
  have frame := Parser.extends_frame
  change Delivers k _ p rest ((Rule.condition inner >>= fun test => bracedBlock inner >>=
    fun consequence => Rule.alternative inner >>= fun otherwise =>
      pure (.conditional p.current test consequence otherwise) : Rule Expr) p) _
  refine (condition_complete complete condition ready ahead).bind (fun _ => ?_) fun q first => ?_
  · exact .bind frame (.bracedBlock frame complete.kept) fun _ =>
      .bind frame (.alternative frame complete.kept) fun _ => .pure frame _
  refine (bracedBlock_complete complete body (first.ready ready) first.ahead).bind (fun _ => ?_)
    fun r second => ?_
  · exact .bind frame (.alternative frame complete.kept) fun _ => .pure frame _
  have third := alternative_complete complete alternative (second.ready (first.ready ready))
    second.ahead follows
  exact third.map _

theorem parametersLeft_complete {names : List Identifier} {right : Token}
    (closing : right.kind = .rparen) (derived : Parameters ts names) (ended : p.Ended)
    (body : p.input.body = ts ++ right :: rest) :
    ∃ q, (do return (← name) :: (← parametersLeft) : Rule (List Identifier)) p = .ok names q ∧
      p.Reaches q (right :: rest) := by
  induction derived generalizing p with
  | @one t ident =>
    have current : p.current = t := Parser.current_of_body body
    have ahead : p.ahead = right :: rest := by rw [Parser.ahead, body]; rfl
    have other : p.peek.kind ≠ .comma := by rw [Parser.peek_of_tail ahead, closing]; decide
    have named : name p = .ok ⟨t, t.literal⟩ p := by rw [← current]; rfl
    refine ⟨p, ?_, .here ahead⟩
    rw [bind_of_ok named, bind_of_ok (parametersLeft_of_other other), pure_apply]
  | @more t comma us names ident separator others ih =>
    have current : p.current = t := Parser.current_of_body body
    have ahead : p.ahead = comma :: (us ++ right :: rest) := by rw [Parser.ahead, body]; rfl
    have named : name p = .ok ⟨t, t.literal⟩ p := by rw [← current]; rfl
    have peek : p.peek.kind = .comma := Parser.peek_of_tail ahead ▸ separator
    have next : p.advance.ahead = us ++ right :: rest := by
      rw [Parser.ahead, Parser.advance_body, ahead]
      rfl
    have head : p.advance.peek.kind = .ident := by
      cases others with
      | one ident | more ident _ _ => exact Parser.peek_of_tail next ▸ ident
    obtain ⟨q, run, reach⟩ := ih ended.advance.advance next
    refine ⟨q, ?_, reach.ahead, reach.last, reach.depth, reach.errors⟩
    rw [bind_of_ok named]
    rw [bind_of_ok ((parametersLeft_of_comma ended peek head).trans run), pure_apply]

theorem parameters_of_none (closing : p.peek.kind = .rparen) : parameters p = .ok [] p.advance := by
  rw [parameters, bind_peekIs]
  simp only [closing, decide_true, if_true]
  rfl

theorem parameters_complete {names : List Identifier} {right : Token}
    (closing : right.kind = .rparen) (derived : Parameters ts names) (ended : p.Ended)
    (ahead : p.ahead = ts ++ right :: rest) :
    ∃ q, parameters p = .ok names q ∧ p.Reaches q rest := by
  have head : p.peek.kind = .ident := by
    cases derived with
    | one ident | more ident _ _ => exact Parser.peek_of_tail ahead ▸ ident
  obtain ⟨q, run, reach⟩ := parametersLeft_complete closing derived ended.advance ahead
  have closed : q.peek.kind = .rparen := reach.peek ▸ closing
  obtain ⟨first, r, named, run⟩ := bind_eq_ok.1 run
  obtain ⟨others, r, listed, run⟩ := bind_eq_ok.1 run
  cases run
  have further := reach.advance
  refine ⟨q.advance, ?_, further.ahead, further.last, further.depth, further.errors⟩
  rw [parameters, bind_peekIs]
  simp only [head, reduceCtorEq, decide_false, if_false, Bool.false_eq_true]
  rw [bind_of_ok (expectPeek_of_kind head), bind_of_ok named]
  change (parametersLeft >>= _) _ = _
  rw [bind_of_ok listed, bind_of_ok (expectPeek_of_kind closed), pure_apply]

theorem function_complete (complete : inner.Complete k) {us : List Token} {names : List Identifier}
    {block : Block} {word : Token} (current : p.current = word) (opening : p.peek.kind = .lparen)
    (read : ∃ q, parameters p.advance = .ok names q ∧ p.advance.Reaches q (us ++ rest))
    (body : Braced us block n) (ready : p.Ready k) :
    Delivers k n p rest (function inner p) (.function word names block) := by
  subst current
  obtain ⟨q, run, reach⟩ := read
  have entered : function inner p = (bracedBlock inner >>= fun block =>
      pure (.function p.current names block) : Rule Expr) q := by
    rw [function, bind_current]
    rw [bind_of_ok (expectPeek_of_kind opening), bind_of_ok run]
  have inside := bracedBlock_complete complete body (reach.ready ready.advance) reach.ahead
  rw [entered]
  exact .of_advance (.of_reaches reach (inside.map (Expr.function p.current names)))

theorem binary_complete (complete : inner.Complete k) (left : Expr) {right : Expr} {t : Token}
    (current : p.current = t) (limit : t.kind.precedence ≠ .call)
    (derived : Expression t.kind.precedence.layer ts right n) (ready : p.Ready k)
    (ahead : p.ahead = ts ++ rest) (follows : Follows t.kind.precedence.rank rest) :
    Delivers k n p rest (binary inner left p) (.binary t left t.literal right) := by
  subst current
  have inside := complete.expr limit derived ready.advance ahead follows
  exact (inside.map (Expr.binary p.current left p.current.literal)).of_advance

theorem unary_complete (complete : inner.Complete k) {e : Expr} {t : Token}
    (current : p.current = t)
    (derived : Expression .unary ts e n) (ready : p.Ready k) (ahead : p.ahead = ts ++ rest)
    (follows : Follows Precedence.unary.rank rest) :
    Delivers k n p rest (unary inner p) (.unary t t.literal e) := by
  subst current
  have inside := complete.expr (by decide : Precedence.unary ≠ .call) derived ready.advance
    ahead follows
  exact (inside.map (Expr.unary p.current p.current.literal)).of_advance

def argumentList (inner : Inner) : Rule (List Expr) := do
  return (← inner.expr .lowest) :: (← argumentsLeft inner)

theorem argumentsLeft_keeps (kept : inner.Keeps Parser.Extends) :
    (argumentsLeft inner).Keeps Parser.Extends :=
  .bind Parser.extends_frame (.remaining Parser.extends_frame) fun n =>
    .moreArguments Parser.extends_frame kept n

theorem argumentList_complete (complete : inner.Complete k) {es : List Expr} {right : Token}
    (closing : right.kind = .rparen) :
    ∀ {ts n p}, Arguments ts es n → p.Ready k → p.input.body = ts ++ right :: rest →
      Delivers k n p (right :: rest) (argumentList inner p) es
  | _, _, p, .one argument, ready, body => by
    have first := complete.lowest argument ready body
      (.cons closing (by decide))
    refine first.andThen (fun _ => ?_) fun q reach => ?_
    · exact .bind Parser.extends_frame (argumentsLeft_keeps complete.kept) fun _ =>
        .pure Parser.extends_frame _
    · have other : q.peek.kind ≠ .comma := by
        rw [reach.peek, closing]
        decide
      exact ⟨q, bind_of_ok (argumentsLeft_of_other inner other), .here reach.ahead⟩
  | _, _, p, @Arguments.more comma ts us _ _ _ _ argument separator others, ready, body => by
    have body : p.input.body = ts ++ comma :: (us ++ right :: rest) := by rw [body]; simp
    have first := complete.lowest argument ready body
      (.cons separator (by decide))
    refine first.bind (fun _ => ?_) fun q reach => ?_
    · exact .bind Parser.extends_frame (argumentsLeft_keeps complete.kept) fun _ =>
        .pure Parser.extends_frame _
    · have comma : q.peek.kind = .comma := reach.peek ▸ separator
      have ready := reach.ready ready
      have next := argumentList_complete complete closing others ready.advance.advance
        (congrArg List.tail reach.ahead)
      have entered : argumentsLeft inner q = argumentList inner q.advance.advance :=
        argumentsLeft_of_comma complete.kept ready.ended comma
      rw [← entered] at next
      exact next.of_advance.of_advance.map _

theorem call_of_none (inner : Inner) (callee : Expr) {left : Token} (current : p.current = left)
    (closing : p.peek.kind = .rparen) :
    call inner callee p = .ok (.call left callee []) p.advance := by
  subst current
  have run : arguments inner p = .ok [] p.advance := by
    rw [arguments, bind_peekIs]
    simp only [closing, decide_true, if_true]
    rfl
  exact bind_of_ok run

theorem arguments_of_some (other : p.peek.kind ≠ .rparen) :
    arguments inner p =
      (argumentList inner >>= fun es => do expectPeek .rparen; return es) p.advance := by
  rw [arguments, bind_peekIs]
  simp only [other, decide_false, Bool.false_eq_true, if_false, argumentList]
  simp only [bind_assoc, pure_bind]
  rfl

theorem arguments_complete (complete : inner.Complete k) {es : List Expr} {right : Token}
    (closing : right.kind = .rparen) (derived : Arguments ts es n) (ready : p.Ready k)
    (ahead : p.ahead = ts ++ right :: rest) :
    Delivers k n p rest (arguments inner p) es := by
  have other : p.peek.kind ≠ .rparen := by
    obtain ⟨t, us, rfl, operand⟩ : ∃ t us, ts = t :: us ∧ t.kind.operandForm?.isSome := by
      cases derived with
      | one argument => exact argument.exists_head
      | more argument _ _ =>
        obtain ⟨t, us, rfl, head⟩ := argument.exists_head
        exact ⟨t, _, rfl, head⟩
    rw [Parser.peek_of_tail ahead]
    intro kind
    rw [kind] at operand
    exact absurd operand (by decide)
  rw [arguments_of_some other]
  have list := argumentList_complete complete closing derived ready.advance ahead
  exact (list.closed closing).of_advance

theorem call_complete (complete : inner.Complete k) (callee : Expr) {es : List Expr}
    {left right : Token} (current : p.current = left) (closing : right.kind = .rparen)
    (derived : Arguments ts es n) (ready : p.Ready k) (ahead : p.ahead = ts ++ right :: rest) :
    Delivers k n p rest (call inner callee p) (.call left callee es) := by
  subst current
  exact (arguments_complete complete closing derived ready ahead).map (Expr.call p.current callee)

/-- A result of reading an expression is that of the loop over operators, entered with `e` as
its left operand just before `rest`, if `n` levels suffice. -/
structure Resumes (inner : Inner) (limit : Precedence) (k n : Nat) (p : Parser) (rest : List Token)
    (result : EStateM.Result Diagnostic Parser Expr) (e : Expr) : Prop where
  ok : n ≤ k → ∃ q, p.Reaches q rest ∧ result = operatorsLeft inner limit e q
  deep : k < n → p.TooDeep (diagnostics result)

theorem operatorsLeft_keeps (kept : inner.Keeps Parser.Extends) (limit : Precedence) (left : Expr) :
    (operatorsLeft inner limit left).Keeps Parser.Extends :=
  .bind Parser.extends_frame (.remaining Parser.extends_frame) fun n =>
    .operators Parser.extends_frame kept limit n left

namespace Resumes

variable {limit : Precedence} {e : Expr} {k n m : Nat} {more : List Token}

theorem of_first (kept : inner.Keeps Parser.Extends)
    (first : Delivers k n p rest (firstOperand inner p) e) :
    Resumes inner limit k n p rest (expression inner limit p) e := by
  refine ⟨fun few => ?_, fun deep => ?_⟩
  · obtain ⟨q, run, reach⟩ := first.ok few
    exact ⟨q, reach, bind_of_ok run⟩
  · obtain ⟨d, cause, found⟩ := first.deep deep
    exact ⟨d, cause, found.trans (diagnostics_prefix_bind (operatorsLeft_keeps kept limit) p)⟩

theorem operator (kept : inner.Keeps Parser.Extends) {left : Expr} {form : OperatorForm}
    {t : Token} {result : EStateM.Result Diagnostic Parser Expr} (ended : p.Ended)
    (resumed : Resumes inner limit k n p (t :: more) result left)
    (tight : limit < t.kind.precedence) (found : t.kind.operatorForm? = some form)
    (round : ∀ q, p.Reaches q (t :: more) →
      Delivers k m q rest (Rule.operator inner left form q.advance) e) :
    Resumes inner limit k (max n m) p rest result e := by
  have looped : ∀ q, p.Reaches q (t :: more) → operatorsLeft inner limit left q =
      (Rule.operator inner left form >>= operatorsLeft inner limit) q.advance := fun q reach =>
    operatorsLeft_of_tighter kept ((congrArg Token.kind reach.last).trans ended)
      (by rwa [reach.peek]) (by rwa [reach.peek]) left
  refine ⟨fun few => ?_, fun deep => ?_⟩
  · obtain ⟨q, reach, rfl⟩ := resumed.ok (by omega)
    obtain ⟨r, run, further⟩ := (round q reach).ok (by omega)
    exact ⟨r, reach.trans further, by rw [looped q reach, bind_of_ok run]⟩
  · by_cases few : n ≤ k
    · obtain ⟨q, reach, rfl⟩ := resumed.ok few
      obtain ⟨d, cause, seen⟩ := (round q reach).deep (by omega)
      rw [looped q reach]
      refine ⟨d, cause, ?_⟩
      rw [← reach.errors]
      exact seen.trans (diagnostics_prefix_bind (operatorsLeft_keeps kept limit) q.advance)
    · exact resumed.deep (by omega)

end Resumes

theorem firstOperand_apply (form : OperandForm) (h : p.current.kind.operandForm? = some form) :
    firstOperand inner p = operand inner form p := by
  rw [firstOperand, bind_current, h]

section Operand

variable {t : Token} {ts us : List Token} {e : Expr} {block : Block}

theorem firstOperand_identifier (kind : t.kind = .ident) (body : p.input.body = t :: rest) :
    Delivers (k + 1) 1 p rest (firstOperand inner p) (.identifier ⟨t, t.literal⟩) := by
  obtain rfl : p.current = t := Parser.current_of_body body
  rw [firstOperand_apply .identifier (by rw [kind]; rfl)]
  exact .succ (.of_ok rfl (.here (congrArg List.tail body)))

theorem firstOperand_integer {value : Int32} (kind : t.kind = .int)
    (numeral : Numeral t.literal value) (body : p.input.body = t :: rest) :
    Delivers (k + 1) 1 p rest (firstOperand inner p) (.integer t value) := by
  obtain rfl : p.current = t := Parser.current_of_body body
  have run : integer p = .ok (.integer p.current value) p := by
    rw [integer, bind_current, integerValue?_eq_some.2 numeral]
    rfl
  rw [firstOperand_apply .integer (by rw [kind]; rfl)]
  exact .succ (.of_ok run (.here (congrArg List.tail body)))

theorem firstOperand_boolean {value : Bool}
    (kind : t.kind = if value then .trueWord else .falseWord) (body : p.input.body = t :: rest) :
    Delivers (k + 1) 1 p rest (firstOperand inner p) (.boolean t value) := by
  obtain rfl : p.current = t := Parser.current_of_body body
  have same : decide (p.current.kind = .trueWord) = value := by rw [kind]; cases value <;> rfl
  have run : boolean p = .ok (.boolean p.current value) p := by rw [← same]; rfl
  rw [firstOperand_apply .boolean (by rw [kind]; cases value <;> rfl)]
  exact .succ (.of_ok run (.here (congrArg List.tail body)))

theorem firstOperand_group (complete : inner.Complete k) (inside : Parenthesised ts e n)
    (ready : p.Ready k) (body : p.input.body = ts ++ rest) :
    Delivers (k + 1) (n + 1) p rest (firstOperand inner p) e := by
  have kind : p.current.kind = .lparen := by
    obtain ⟨opening, _, _⟩ := inside
    exact Parser.current_of_body body ▸ opening
  rw [firstOperand_apply .group (by rw [kind]; rfl)]
  exact (group_complete complete inside ready body).succ

theorem firstOperand_conditional (complete : inner.Complete k) {vs : List Token}
    {otherwise : Option Block} {j : Nat} (kind : t.kind = .ifWord)
    (condition : Parenthesised ts e n) (consequence : Braced us block m)
    (alternative : Alternative vs otherwise j) (ready : p.Ready k)
    (body : p.input.body = t :: (ts ++ (us ++ vs)) ++ rest) {rank : Nat}
    (follows : Follows rank rest) :
    Delivers (k + 1) (max n (max m j) + 1) p rest (firstOperand inner p)
      (.conditional t e block otherwise) := by
  have current : p.current = t := Parser.current_of_body body
  rw [firstOperand_apply .conditional (by rw [current, kind]; rfl)]
  refine (conditional_complete complete current condition consequence alternative ready ?_
    follows).succ
  rw [Parser.ahead, body]
  simp

theorem firstOperand_function (complete : inner.Complete k) {left right : Token}
    (kind : t.kind = .functionWord) (opening : left.kind = .lparen)
    (closing : right.kind = .rparen) (inside : Braced us block n) (ready : p.Ready k)
    (body : p.input.body = t :: left :: right :: us ++ rest) :
    Delivers (k + 1) (n + 1) p rest (firstOperand inner p) (.function t [] block) := by
  have current : p.current = t := Parser.current_of_body body
  have behind : p.advance.ahead = right :: (us ++ rest) := congrArg (·.tail.tail) body
  have closed : p.advance.peek.kind = .rparen := Parser.peek_of_tail behind ▸ closing
  rw [firstOperand_apply .function (by rw [current, kind]; rfl)]
  exact (function_complete complete current (Parser.peek_of_body body ▸ opening)
    ⟨_, parameters_of_none closed, (Parser.Reaches.here behind).advance⟩ inside ready).succ

theorem firstOperand_functionOf (complete : inner.Complete k) {left right : Token}
    {names : List Identifier} (kind : t.kind = .functionWord) (opening : left.kind = .lparen)
    (parameters : Parameters ts names) (closing : right.kind = .rparen)
    (inside : Braced us block n) (ready : p.Ready k)
    (body : p.input.body = t :: left :: (ts ++ right :: us) ++ rest) :
    Delivers (k + 1) (n + 1) p rest (firstOperand inner p) (.function t names block) := by
  have current : p.current = t := Parser.current_of_body body
  rw [firstOperand_apply .function (by rw [current, kind]; rfl)]
  refine (function_complete complete current (Parser.peek_of_body body ▸ opening)
    (parameters_complete closing parameters ready.ended.advance ?_) inside ready).succ
  rw [Parser.ahead, Parser.advance_body, Parser.ahead, body]
  simp

theorem firstOperand_unary (complete : inner.Complete k) (kind : t.kind = .bang ∨ t.kind = .minus)
    (operand : Expression .unary ts e n) (ready : p.Ready k) (body : p.input.body = t :: ts ++ rest)
    (follows : Follows Layer.unary.rank rest) :
    Delivers (k + 1) (n + 1) p rest (firstOperand inner p) (.unary t t.literal e) := by
  have current : p.current = t := Parser.current_of_body body
  have form : p.current.kind.operandForm? = some .unary := by
    rcases kind with kind | kind <;> rw [current, kind] <;> rfl
  rw [firstOperand_apply .unary form]
  exact (unary_complete complete current operand ready (congrArg List.tail body) follows).succ

end Operand

namespace Resumes

variable {limit : Precedence} {left right : Token} {us : List Token} {callee : Expr}
  {result : EStateM.Result Diagnostic Parser Expr}

theorem call (complete : inner.Complete k) (loose : limit ≠ .call) (ended : p.Ended)
    (opening : left.kind = .lparen) (closing : right.kind = .rparen)
    (resumed : Resumes inner limit (k + 1) n p (left :: right :: rest) result callee) :
    Resumes inner limit (k + 1) n p rest result (.call left callee []) := by
  have round : Resumes inner limit (k + 1) (max n 0) p rest result (.call left callee []) := by
    refine resumed.operator complete.kept ended
      (by rw [opening]; exact Precedence.lt_call loose) (by rw [opening]; rfl) fun q reach => ?_
    have current : q.advance.current = left := by rw [Parser.advance_current, reach.peek]
    have behind : q.advance.ahead = right :: rest := congrArg List.tail reach.ahead
    have closed : q.advance.peek.kind = .rparen := Parser.peek_of_tail behind ▸ closing
    have called := call_of_none inner callee current closed
    exact .of_advance (.of_ok called (Parser.Reaches.here behind).advance)
  rwa [Nat.max_zero] at round

theorem callWith (complete : inner.Complete k) (loose : limit ≠ .call) (ready : p.Ready k)
    {es : List Expr} (opening : left.kind = .lparen) (list : Arguments us es m)
    (closing : right.kind = .rparen)
    (resumed : Resumes inner limit (k + 1) n p (left :: (us ++ [right] ++ rest)) result callee) :
    Resumes inner limit (k + 1) (max n (m + 1)) p rest result (.call left callee es) := by
  refine resumed.operator complete.kept ready.ended
    (by rw [opening]; exact Precedence.lt_call loose) (by rw [opening]; rfl) fun q reach => ?_
  have current : q.advance.current = left := by rw [Parser.advance_current, reach.peek]
  have behind : q.advance.ahead = us ++ right :: rest :=
    (congrArg List.tail reach.ahead).trans (List.append_assoc us [right] rest)
  have called := call_complete complete callee current closing list
    (reach.ready ready).advance behind
  exact called.succ.of_advance

theorem binary (complete : inner.Complete k) {layer : Layer} {t : Token} {first second : Expr}
    (kind : t.kind ∈ layer.operators) (tight : limit < t.kind.precedence)
    (operand : Expression layer.tighter us second m) (ready : p.Ready k)
    (follows : Follows layer.rank rest)
    (resumed : Resumes inner limit (k + 1) n p (t :: (us ++ rest)) result first) :
    Resumes inner limit (k + 1) (max n (m + 1)) p rest result
      (.binary t first t.literal second) := by
  obtain ⟨form, precedence, tighter, notCall⟩ := Layer.mem_operators kind
  refine resumed.operator complete.kept ready.ended tight form fun q reach => ?_
  have current : q.advance.current = t := by rw [Parser.advance_current, reach.peek]
  have read := binary_complete complete first current (precedence ▸ notCall)
    (precedence ▸ tighter ▸ operand) (reach.ready ready).advance (congrArg List.tail reach.ahead)
    (precedence ▸ follows)
  exact read.succ.of_advance

end Resumes

/-- Reading an expression passes through each expression that its derivation has on the
left: all of them begin at the same token, and the loop over operators takes up the rest. -/
theorem expression_resumes (complete : inner.Complete k) {limit : Precedence}
    (loose : limit ≠ .call) :
    ∀ {layer ts e n p rest}, Expression layer ts e n → limit.layer.rank ≤ layer.rank →
      p.Ready k → p.input.body = ts ++ rest → Follows layer.rank rest →
      Resumes inner limit (k + 1) n p rest (expression inner limit p) e
  | _, _, _, _, _, _, .identifier kind, _, _, body, _ =>
    .of_first complete.kept (firstOperand_identifier kind body)
  | _, _, _, _, _, _, .integer kind numeral, _, _, body, _ =>
    .of_first complete.kept (firstOperand_integer kind numeral body)
  | _, _, _, _, _, _, .boolean kind, _, _, body, _ =>
    .of_first complete.kept (firstOperand_boolean kind body)
  | _, _, _, _, _, _, .group inside, _, ready, body, _ =>
    .of_first complete.kept (firstOperand_group complete inside ready body)
  | _, _, _, _, _, _, .conditional kind condition block otherwise, _, ready, body, follows =>
    .of_first complete.kept
      (firstOperand_conditional complete kind condition block otherwise ready body follows)
  | _, _, _, _, _, _, .function kind opening closing inside, _, ready, body, _ =>
    .of_first complete.kept
      (firstOperand_function complete kind opening closing inside ready body)
  | _, _, _, _, _, _, .functionOf kind opening parameters closing inside, _, ready, body, _ =>
    .of_first complete.kept
      (firstOperand_functionOf complete kind opening parameters closing inside ready body)
  | _, _, _, _, _, _, .unary kind operand, _, ready, body, follows =>
    .of_first complete.kept (firstOperand_unary complete kind operand ready body follows)
  | _, _, _, _, _, _, .call function opening closing, inside, ready, body, _ =>
    .call complete loose ready.ended opening closing
      (expression_resumes complete loose function inside ready
        (body.trans (List.append_assoc ..)) (.lparen opening))
  | _, _, _, _, _, _, .callWith function opening list closing, inside, ready, body, _ =>
    .callWith complete loose ready opening list closing
      (expression_resumes complete loose function inside ready
        (body.trans (List.append_assoc ..)) (.lparen opening))
  | _, _, _, _, _, _, .binary first kind second, inside, ready, body, follows =>
    .binary complete kind (Precedence.lt_of_rank_layer_le inside kind) second ready follows
      (expression_resumes complete loose first inside ready (body.trans (List.append_assoc ..))
        (.operator kind))
  | _, _, _, _, _, _, .loosen tight, inside, ready, body, follows =>
    expression_resumes complete loose tight (Nat.le_trans inside (Layer.rank_le_tighter _)) ready
      body (follows.mono (Layer.rank_le_tighter _))

theorem expression_complete (complete : inner.Complete k) {limit : Precedence}
    (loose : limit ≠ .call)
    {e : Expr} (derived : Expression limit.layer ts e n) (ready : p.Ready k)
    (body : p.input.body = ts ++ rest) (follows : Follows limit.rank rest) :
    Delivers (k + 1) n p rest (expression inner limit p) e := by
  have resumed := expression_resumes complete loose derived (Nat.le_refl _) ready body
    (follows.mono limit.rank_le_layer)
  refine ⟨fun few => ?_, resumed.deep⟩
  obtain ⟨q, reach, run⟩ := resumed.ok few
  have stops : ¬ limit < q.peek.kind.precedence := by
    rcases (reach.ready ready).ended.peek_eof_or_mem reach.ahead with eof | head
    · rw [eof]
      exact Nat.not_lt_zero _
    · exact Nat.not_lt_of_le (follows _ head).1
  exact ⟨q, run.trans (operatorsLeft_of_looser inner stops e), reach⟩

theorem value_complete (complete : inner.Complete k) {e : Expr}
    (derived : Expression .equality ts e n)
    (ready : p.Ready k) (body : p.input.body = ts ++ rest) (follows : Follows 0 rest) :
    Delivers k n p rest (value inner p) (some e) := by
  have inside := complete.lowest derived ready body follows
  refine ⟨fun few => ?_, fun deep => ?_⟩
  · obtain ⟨q, run, reach⟩ := inside.ok few
    exact ⟨q, by rw [value, optional, run], reach⟩
  · obtain ⟨d, cause, found⟩ := inside.deep deep
    refine ⟨d, cause, ?_⟩
    rw [value, optional]
    cases run : inner.expr .lowest p with
    | ok a q => rwa [run] at found
    | error c q =>
      rw [run] at found
      simpa [diagnostics] using found

end Rule

/-- What may follow a statement; an exposed one must not be continued by it. -/
def Separate (exposed : Bool) (rest : List Token) : Prop :=
  ∀ t ∈ rest.head?, t.kind ≠ .semicolon ∧ t.kind ≠ .elseWord ∧
    (exposed = true → t.kind ∉ continuations)

namespace Rule

variable {inner : Inner} {k n m : Nat} {p : Parser} {ts us rest : List Token} {exposed : Bool}

theorem follows_of_terminator (stop : Terminator us exposed) (separate : Separate exposed rest) :
    Follows 0 (us ++ rest) := by
  cases stop with
  | semicolon kind => exact .cons kind (by decide)
  | missing =>
    intro t head
    obtain ⟨_, other, apart⟩ := separate t head
    refine ⟨?_, other⟩
    have loose : ¬ Precedence.lowest < t.kind.precedence := fun tight =>
      apart rfl ((Kind.mem_continuations _).2 tight)
    exact Nat.le_of_not_lt loose

theorem skipSemicolon_complete (stop : Terminator us exposed) {flag : Bool}
    (separate : Separate flag rest) (ended : p.Ended) (ahead : p.ahead = us ++ rest) :
    ∃ q, skipSemicolon p = .ok () q ∧ p.Reaches q rest := by
  cases stop with
  | @semicolon t kind =>
    have peek : p.peek.kind = .semicolon := Parser.peek_of_tail ahead ▸ kind
    exact ⟨p.advance, by rw [skipSemicolon, if_pos peek], (Parser.Reaches.here ahead).advance⟩
  | missing =>
    have peek : p.peek.kind ≠ .semicolon := by
      rcases ended.peek_eof_or_mem ahead with eof | head
      · rw [eof]
        decide
      · exact (separate _ head).1
    exact ⟨p, by rw [skipSemicolon, if_neg peek], .here ahead⟩

theorem Delivers.terminated {x : Rule α} {a : α} (first : Delivers k n p (us ++ rest) (x p) a)
    (stop : Terminator us exposed) {flag : Bool} (separate : Separate flag rest) (ended : p.Ended)
    (f : α → β) :
    Delivers k n p rest ((x >>= fun a => do skipSemicolon; return f a) p) (f a) := by
  refine first.andThen (fun _ => ?_) fun q reach => ?_
  · exact .bind Parser.extends_frame (.skipSemicolon Parser.extends_frame) fun _ =>
      .pure Parser.extends_frame _
  · obtain ⟨r, run, further⟩ := skipSemicolon_complete stop separate
      ((congrArg Token.kind reach.last).trans ended) reach.ahead
    exact ⟨r, by rw [bind_of_ok run, pure_apply], further⟩

theorem stmt_keyword (form : StmtForm) (h : p.current.kind.stmtForm? = some form) :
    stmt inner p = keywordStmt inner form p := by
  rw [stmt, bind_current, h]

theorem stmt_expression (h : p.current.kind.stmtForm? = none) :
    stmt inner p = expressionStmt inner p := by
  rw [stmt, bind_current, h]

theorem varStmt_complete (complete : inner.Complete k) {word name sign : Token} {e : Expr}
    (current : p.current = word) (ident : name.kind = .ident) (assign : sign.kind = .assign)
    (derived : Expression .equality ts e n) (stop : Terminator us exposed) (ready : p.Ready k)
    (ahead : p.ahead = name :: sign :: (ts ++ (us ++ rest))) (separate : Separate exposed rest) :
    Delivers k n p rest (varStmt inner p) (.var word ⟨name, name.literal⟩ (some e)) := by
  have second : p.advance.ahead = sign :: (ts ++ (us ++ rest)) := congrArg List.tail ahead
  have third : p.advance.advance.ahead = ts ++ (us ++ rest) := congrArg List.tail second
  have named : Rule.name p.advance = .ok ⟨name, name.literal⟩ p.advance := by
    rw [← Parser.peek_of_tail ahead, ← Parser.advance_current]
    rfl
  have entered : varStmt inner p = (value inner >>= fun value => do
      skipSemicolon; return .var word ⟨name, name.literal⟩ value : Rule Stmt)
        p.advance.advance.advance := by
    rw [varStmt, bind_current, current]
    rw [bind_of_ok (expectPeek_of_kind (Parser.peek_of_tail ahead ▸ ident)), bind_of_ok named]
    rw [bind_of_ok (expectPeek_of_kind (Parser.peek_of_tail second ▸ assign))]
    rfl
  have read := value_complete complete derived ready.advance.advance.advance third
    (follows_of_terminator stop separate)
  have whole := read.terminated stop separate ready.ended (Stmt.var word ⟨name, name.literal⟩)
  rw [← entered] at whole
  exact whole.of_advance.of_advance.of_advance

theorem stmt_complete (complete : inner.Complete k) {s : Stmt} (derived : Statement ts s n exposed)
    (ready : p.Ready k) (body : p.input.body = ts ++ rest) (separate : Separate exposed rest) :
    Delivers k n p rest (stmt inner p) s := by
  cases derived with
  | @var word name sign ts us e _ _ kind ident assign value stop =>
    have current : p.current = word := Parser.current_of_body body
    have ahead : p.ahead = name :: sign :: (ts ++ (us ++ rest)) := by rw [Parser.ahead, body]; simp
    rw [stmt_keyword .var (by rw [current, kind]; rfl)]
    exact varStmt_complete complete current ident assign value stop ready ahead separate
  | @ret word ts us e _ _ kind value stop =>
    obtain rfl : p.current = word := Parser.current_of_body body
    have ahead : p.ahead = ts ++ (us ++ rest) := by rw [Parser.ahead, body]; simp
    rw [stmt_keyword .ret (by rw [kind]; rfl)]
    have read := value_complete complete value ready.advance ahead
      (follows_of_terminator stop separate)
    exact (read.terminated stop separate ready.ended (Stmt.ret p.current)).of_advance
  | @loop word ts us vs test block _ _ _ kind condition block stop =>
    obtain rfl : p.current = word := Parser.current_of_body body
    have ahead : p.ahead = ts ++ (us ++ (vs ++ rest)) := by rw [Parser.ahead, body]; simp
    rw [stmt_keyword .loop (by rw [kind]; rfl)]
    refine (condition_complete complete condition ready ahead).bind (fun _ => ?_) fun q reach => ?_
    · exact .bind Parser.extends_frame (.bracedBlock Parser.extends_frame complete.kept) fun _ =>
        .bind Parser.extends_frame (.skipSemicolon Parser.extends_frame) fun _ =>
          .pure Parser.extends_frame _
    · have ready := reach.ready ready
      have read := bracedBlock_complete complete block ready reach.ahead
      exact read.terminated stop separate ready.ended (Stmt.loop p.current test)
  | @expression first ts us e _ _ value stop =>
    obtain rfl : p.current = first := Parser.current_of_body body
    have body : p.input.body = p.current :: ts ++ (us ++ rest) := by rw [body]; simp
    have form : p.current.kind.stmtForm? = none := by
      obtain ⟨t, vs, same, operand⟩ := value.exists_head
      obtain ⟨rfl, rfl⟩ := List.cons.inj same
      exact Kind.stmtForm?_of_operand operand
    rw [stmt_expression form]
    have read := value_complete complete value ready body (follows_of_terminator stop separate)
    exact read.terminated stop separate ready.ended (Stmt.expression p.current)

end Rule

/-- Nothing is recorded on the way to `q`, where `rest` is all that is left. -/
structure Parser.Arrives (p q : Parser) (rest : List Token) : Prop where
  body : q.input.body = rest
  last : q.input.last = p.input.last
  depth : q.depth = p.depth
  errors : q.errors = p.errors

namespace Rule

variable {inner : Inner} {k n m : Nat} {p : Parser} {ts us rest : List Token} {close : Kind}

/-- What closes a list of statements cannot begin one. -/
def Closes (close : Kind) (rest : List Token) : Prop :=
  (close = .rbrace ∨ close = .eof) ∧ ∀ t ∈ rest.head?, t.kind = close

theorem Closes.separate {exposed : Bool} (h : Closes close rest) : Separate exposed rest := by
  intro t head
  rw [h.2 t head]
  rcases h.1 with rfl | rfl <;> exact ⟨by decide, by decide, fun _ => by decide⟩

theorem Closes.stops (h : Closes close rest) (ended : p.Ended) (body : p.input.body = rest) :
    p.current.kind = close ∨ p.current.kind = .eof := by
  cases rest with
  | nil => exact .inr ((congrArg Token.kind (Parser.current_of_nil body)).trans ended)
  | cons t rest => exact .inl (Parser.current_of_body body ▸ h.2 t rfl)

theorem separate_of_statements {exposed : Bool} {ss : List Stmt} (derived : Statements us ss m)
    (apart : exposed = true → ∀ t ∈ us.head?, t.kind ∉ continuations) (closes : Closes close rest) :
    Separate exposed (us ++ rest) := by
  cases derived with
  | nil => exact closes.separate
  | cons head tail _ =>
    obtain ⟨t, vs, rfl, starts⟩ := head.exists_head
    intro u first
    cases first
    exact ⟨starts.ne.1, starts.ne.2.1, fun h => apart h t rfl⟩

theorem stmtsLeft_complete (complete : inner.Complete k) (closes : Closes close rest) :
    ∀ {ts ss n p}, Statements ts ss n → p.Ready k → p.input.body = ts ++ rest →
      (n ≤ k → ∃ q, stmtsLeft inner close p = (ss, q) ∧ p.Arrives q rest) ∧
        (k < n → p.TooDeep (stmtsLeft inner close p).2.errors.toList)
  | _, _, _, p, .nil, ready, body =>
    ⟨fun _ => ⟨p, stmtsLeft_of_stop inner (closes.stops ready.ended body), body, rfl, rfl, rfl⟩,
      fun deep => absurd deep (Nat.not_lt_zero k)⟩
  | _, _, _, p, @Statements.cons ts us s ss n m exposed head tail apart, ready, body => by
    have body : p.input.body = ts ++ (us ++ rest) := by rw [body]; simp
    have running : ¬ (p.current.kind = close ∨ p.current.kind = .eof) := by
      obtain ⟨t, vs, rfl, starts⟩ := head.exists_head
      rw [Parser.current_of_body body]
      rintro (h | h)
      · rcases closes.1 with rfl | rfl
        · exact starts.ne.2.2.1 h
        · exact starts.ne.2.2.2 h
      · exact starts.ne.2.2.2 h
    have first := stmt_complete complete head ready body
      (separate_of_statements tail apart closes)
    by_cases few : n ≤ k
    · obtain ⟨q, run, reach⟩ := first.ok few
      obtain ⟨fits, exceeds⟩ := stmtsLeft_complete complete closes tail
        (reach.ready ready).advance reach.ahead
      rw [stmtsLeft_of_ok complete.kept ready.ended running run]
      refine ⟨fun enough => ?_, fun deep => ?_⟩
      · obtain ⟨r, result, arrive⟩ := fits (by omega)
        rw [result]
        exact ⟨r, rfl, arrive.body, arrive.last.trans reach.last, arrive.depth.trans reach.depth,
          arrive.errors.trans reach.errors⟩
      · obtain ⟨d, cause, found⟩ := exceeds (by omega)
        exact ⟨d, cause, by rwa [Parser.advance_errors, reach.errors] at found⟩
    · refine ⟨fun enough => absurd enough (by omega), fun _ => ?_⟩
      obtain ⟨d, cause, found⟩ := first.deep (by omega)
      exact ⟨d, cause, found.trans
        (diagnostics_prefix_stmtsLeft complete.kept ready.ended running)⟩

theorem bracedStmts_complete (complete : inner.Complete k) {b : Block} (derived : Braced ts b n)
    (ready : p.Ready k) (body : p.input.body = ts ++ rest) :
    Delivers (k + 1) n p rest (bracedStmts inner p) b := by
  cases derived with
  | @mk left right ts ss n opening statements closing =>
    obtain rfl : p.current = left := Parser.current_of_body body
    have ahead : p.ahead = ts ++ right :: rest := by rw [Parser.ahead, body]; simp
    have closes : Closes .rbrace (right :: rest) := by
      refine ⟨.inl rfl, fun t head => ?_⟩
      cases head
      exact closing
    obtain ⟨fits, exceeds⟩ := stmtsLeft_complete complete closes statements ready.advance ahead
    rw [bracedStmts_apply]
    refine .succ ⟨fun few => ?_, fun deep => ?_⟩
    · obtain ⟨q, run, arrive⟩ := fits few
      have closed : q.current.kind = .rbrace := Parser.current_of_body arrive.body ▸ closing
      rw [run, closeBlock, bind_current, if_pos closed]
      exact ⟨q, rfl, congrArg List.tail arrive.body, arrive.last, arrive.depth, arrive.errors⟩
    · obtain ⟨d, cause, found⟩ := exceeds deep
      exact ⟨d, cause, found.trans (diagnostics_of_keeps (closeBlock_keeps _ _) _)⟩

theorem nested_complete {rule : Rule α} {a : α} (room : p.depth < maxDepth)
    (inside : Delivers k n { p with depth := p.depth + 1 } rest
      (rule { p with depth := p.depth + 1 }) a) :
    Delivers k n p rest (nested rule p) a := by
  rw [nested, if_pos room]
  refine ⟨fun few => ?_, fun deep => ?_⟩
  · obtain ⟨q, run, reach⟩ := inside.ok few
    rw [run]
    exact ⟨_, rfl, reach.ahead, reach.last, by rw [reach.depth]; rfl, reach.errors⟩
  · obtain ⟨d, cause, found⟩ := inside.deep deep
    refine ⟨d, cause, found.trans ?_⟩
    cases rule { p with depth := p.depth + 1 } with
    | ok a q => exact List.prefix_rfl
    | error d q => exact List.prefix_rfl

theorem fail_complete {a : α} (pos : 0 < n) :
    Delivers 0 n p rest (fail (.nestingTooDeep maxDepth) p) a := by
  refine ⟨fun few => absurd few (by omega), fun _ => ?_⟩
  exact ⟨⟨.nestingTooDeep maxDepth, p.current.position⟩, rfl, List.prefix_rfl⟩

end Rule

namespace Inner

theorem Complete.above {inner : Inner} {k : Nat} (complete : inner.Complete k) :
    inner.above.Complete (k + 1) where
  kept := complete.kept.above Parser.extends_frame
  expr loose derived ready body follows := by
    have depth := ready.depth
    refine Rule.nested_complete (by omega) ?_
    exact Rule.expression_complete complete loose derived ⟨ready.ended, by dsimp only; omega⟩ body
      follows
  block derived ready body := by
    have depth := ready.depth
    refine Rule.nested_complete (by omega) ?_
    exact Rule.bracedStmts_complete complete derived ⟨ready.ended, by dsimp only; omega⟩ body

theorem complete_levels (k : Nat) : (levels k).Complete k := by
  induction k with
  | zero =>
    refine ⟨.levels Parser.extends_frame 0, fun _ derived _ _ _ => ?_, fun derived _ _ => ?_⟩
    · exact Rule.fail_complete derived.pos
    · obtain ⟨_, _, _⟩ := derived
      exact Rule.fail_complete (Nat.succ_pos _)
  | succ k ih => exact ih.above

end Inner

end ScriptFront
