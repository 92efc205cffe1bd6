import ScriptFront.Proofs.Chronology
import ScriptFront.Proofs.Nodes
import ScriptFront.Proofs.Soundness
import ScriptFront.Proofs.Truthfulness

/-! Where the tokens of a tree come from. Whatever the parser had to leave out, the nodes of
the tree it returns are drawn from the tokens of the source in order: each node holds a
token that says what the node says, and no token is held twice. Only the token of an
expression statement is not its own; it is the one that the statement begins with. A rule
that succeeds draws its nodes from the tokens between the parsers before and after it, so
rules that follow each other draw from lists that follow each other. A rule that fails
leaves nothing behind, and the tokens that it has passed over are not seen again. -/

namespace ScriptFront

namespace Node

def token : Node → Token
  | .name identifier => identifier.token
  | .expr e => e.token
  | .block b => b.token
  | .stmt s => s.token

/-- Whether the node's token is its own. -/
def isListed : Node → Bool
  | .stmt s => !s.isExpression
  | _ => true

end Node

/-- The tokens that nodes have of their own. -/
def listed (ns : List Node) : List Token := (ns.filter Node.isListed).map Node.token

def Program.bodies (program : Program) : List (List Stmt) :=
  program.statements :: program.nodes.filterMap fun
    | .block b => some b.body
    | _ => none

def Identifier.Agrees (name : Identifier) : Prop :=
  name.token.kind = .ident ∧ name.value = name.token.literal

def Expr.Agrees : Expr → Prop
  | .identifier name => name.Agrees
  | .integer token value => token.kind = .int ∧ value.toInt = numeralValue token.literal
  | .boolean token value => token.kind = if value then .trueWord else .falseWord
  | .unary token operator _ => token.kind ∈ [.bang, .minus] ∧ operator = token.literal
  | .binary token _ operator _ =>
    token.kind ∈ [.eq, .notEq, .lessThan, .greaterThan, .plus, .minus, .asterisk, .slash] ∧
      operator = token.literal
  | .conditional token _ _ _ => token.kind = .ifWord
  | .function token _ _ => token.kind = .functionWord
  | .call token _ _ => token.kind = .lparen

def Stmt.Agrees : Stmt → Prop
  | .var token _ _ => token.kind = .varWord
  | .ret token _ => token.kind = .returnWord
  | .loop token _ _ => token.kind = .whileWord
  | .expression _ _ | .block _ => True

def Node.Agrees : Node → Prop
  | .name identifier => identifier.Agrees
  | .expr e => e.Agrees
  | .block b => b.token.kind = .lbrace
  | .stmt s => s.Agrees

def Consecutive (ss : List Stmt) : Prop :=
  ss.Pairwise fun s t => ∀ n ∈ s.nodes, ∀ m ∈ t.nodes, n.token.first < m.token.first

/-- A statement's token begins no later than any token in it, and the statements of a block
are consecutive. -/
def Node.InOrder : Node → Prop
  | .block b => Consecutive b.body
  | .stmt s => ∀ n ∈ s.nodes, s.token.first ≤ n.token.first
  | _ => True

/-- The nodes hold tokens from a list, those of their own in its order. -/
structure Drawn (ns : List Node) (ts : List Token) : Prop where
  sublist : (listed ns).Sublist ts
  mem : ∀ n ∈ ns, n.token ∈ ts
  agrees : ∀ n ∈ ns, n.Agrees
  inOrder : ∀ n ∈ ns, n.InOrder

namespace Drawn

variable {ns ms : List Node} {ts us : List Token}

theorem nil (ts : List Token) : Drawn [] ts :=
  ⟨List.nil_sublist ts, List.forall_mem_nil _, List.forall_mem_nil _, List.forall_mem_nil _⟩

theorem append (h : Drawn ns ts) (k : Drawn ms us) : Drawn (ns ++ ms) (ts ++ us) where
  sublist := by
    rw [listed, List.filter_append, List.map_append]
    exact h.sublist.append k.sublist
  mem := List.forall_mem_append.2 ⟨fun n own => List.mem_append_left us (h.mem n own),
    fun n own => List.mem_append_right ts (k.mem n own)⟩
  agrees := List.forall_mem_append.2 ⟨h.agrees, k.agrees⟩
  inOrder := List.forall_mem_append.2 ⟨h.inOrder, k.inOrder⟩

theorem mono (h : Drawn ns ts) (sub : ts.Sublist us) : Drawn ns us :=
  ⟨h.sublist.trans sub, fun n own => sub.mem (h.mem n own), h.agrees, h.inOrder⟩

theorem cons_shared {n : Node} (h : Drawn ns ts) (shared : n.isListed = false)
    (mem : n.token ∈ ts) (agrees : n.Agrees) (inOrder : n.InOrder) : Drawn (n :: ns) ts where
  sublist := by
    rw [listed, List.filter_cons_of_neg (by simp [shared])]
    exact h.sublist
  mem := List.forall_mem_cons.2 ⟨mem, h.mem⟩
  agrees := List.forall_mem_cons.2 ⟨agrees, h.agrees⟩
  inOrder := List.forall_mem_cons.2 ⟨inOrder, h.inOrder⟩

theorem singleton {n : Node} (agrees : n.Agrees) (inOrder : n.InOrder) :
    Drawn [n] [n.token] where
  sublist := by
    rw [listed]
    exact List.filter_sublist.map Node.token
  mem := List.forall_mem_singleton.2 (List.mem_singleton_self _)
  agrees := List.forall_mem_singleton.2 agrees
  inOrder := List.forall_mem_singleton.2 inOrder

end Drawn

namespace Parser

/-- The nodes are drawn from the tokens that are read from `p` to `q`, the current one of
either included. -/
def Draws (p q : Parser) (ns : List Node) : Prop :=
  ∃ ts, p.input.body = ts ++ q.ahead ∧ Drawn ns ts

theorem Extends.ordered {p q : Parser} (h : p.Extends q) (ordered : p.input.Ordered) :
    q.input.Ordered where
  increasing := by
    refine ordered.increasing.sublist ?_
    rw [TokenStream.toList, TokenStream.toList, h.last]
    exact h.body.sublist.append_right _
  running t member := ordered.running t (h.body.mem member)
  ended := h.ended ordered.ended

theorem Extends.draws {p q : Parser} (h : p.Extends q) : p.Draws q [] := by
  obtain ⟨ts, body⟩ := h.body
  obtain ⟨us, rest⟩ := List.tail_suffix q.input.body
  refine ⟨ts ++ us, ?_, .nil _⟩
  rw [← body, ← rest, List.append_assoc]
  rfl

namespace Draws

variable {p q r : Parser} {ns ms : List Node}

theorem refl (p : Parser) : p.advance.Draws p [] := ⟨[], rfl, .nil []⟩

theorem trans (h : p.Draws q ns) (k : q.advance.Draws r ms) : p.Draws r (ns ++ ms) := by
  obtain ⟨ts, body, drawn⟩ := h
  obtain ⟨us, rest, others⟩ := k
  refine ⟨ts ++ us, ?_, drawn.append others⟩
  rw [body, ← advance_body, rest, List.append_assoc]

theorem of_suffix (h : q.Draws r ns) (suffix : q.input.body <:+ p.input.body) : p.Draws r ns := by
  obtain ⟨us, body⟩ := suffix
  obtain ⟨ts, rest, drawn⟩ := h
  refine ⟨us ++ ts, ?_, drawn.mono (List.sublist_append_right us ts)⟩
  rw [← body, rest, List.append_assoc]

theorem of_advance (h : p.advance.Draws q ns) : p.Draws q ns :=
  h.of_suffix (List.tail_suffix p.input.body)

theorem advance (h : p.Draws q ns) : p.Draws q.advance ns := by
  have whole := h.trans (refl q.advance).of_advance
  rwa [List.append_nil] at whole

theorem cons {n : Node} (h : p.advance.Draws q ns) (ended : p.Ended)
    (running : p.current.kind ≠ .eof) (own : n.token = p.current) (agrees : n.Agrees)
    (inOrder : n.InOrder) : p.Draws q (n :: ns) := by
  obtain ⟨ts, body, drawn⟩ := h
  refine ⟨p.current :: ts, ?_, ?_⟩
  · rw [ended.body_eq running, ← advance_body, body]
    rfl
  · have first := Drawn.singleton agrees inOrder
    rw [own] at first
    exact first.append drawn

theorem cons_name (h : p.advance.Draws q ns) (ended : p.Ended) (ident : p.current.kind = .ident) :
    p.Draws q (.name ⟨p.current, p.current.literal⟩ :: ns) :=
  h.cons ended (ident ▸ by decide) rfl ⟨ident, rfl⟩ trivial

variable (ordered : p.input.Ordered)
include ordered

theorem first_le (h : p.Draws q ns) : ∀ n ∈ ns, p.current.first ≤ n.token.first := by
  intro n member
  obtain ⟨ts, body, drawn⟩ := h
  have inside : n.token ∈ p.input.body := by
    rw [body]
    exact List.mem_append_left _ (drawn.mem n member)
  rcases start : p.input.body with _ | ⟨t, rest⟩
  · rw [start] at inside
    cases inside
  · have increasing := (List.pairwise_append.1 ordered.increasing).1
    rw [start] at increasing inside
    rw [current_of_body start]
    rcases List.mem_cons.1 inside with same | later
    · exact Nat.le_of_eq (congrArg Token.first same.symm)
    · exact Nat.le_of_lt ((List.pairwise_cons.1 increasing).1 _ later)

theorem first_lt (h : p.Draws q ns) (k : q.advance.Draws r ms) :
    ∀ n ∈ ns, ∀ m ∈ ms, n.token.first < m.token.first := by
  intro n earlier m later
  obtain ⟨ts, body, drawn⟩ := h
  obtain ⟨us, rest, others⟩ := k
  have increasing := (List.pairwise_append.1 ordered.increasing).1
  rw [body, ← advance_body, rest, List.pairwise_append] at increasing
  exact increasing.2.2 _ (drawn.mem n earlier) _ (List.mem_append_left _ (others.mem m later))

variable (running : p.current.kind ≠ .eof)
include running

theorem keyword {s : Stmt} (h : p.advance.Draws q ns) (shape : s.nodes = .stmt s :: ns)
    (own : s.token = p.current) (agrees : s.Agrees) : p.Draws q s.nodes := by
  have inOrder : (Node.stmt s).InOrder := by
    intro n member
    rw [shape] at member
    rcases List.mem_cons.1 member with rfl | part
    · exact Nat.le_refl _
    · rw [own]
      exact h.of_advance.first_le ordered n part
  rw [shape]
  exact h.cons ordered.ended running own agrees inOrder

theorem expression {v : Option Expr} (h : p.Draws q (valueNodes v)) (reach : p.Extends q) :
    p.Draws q (Stmt.expression p.current v).nodes := by
  have inOrder : (Node.stmt (.expression p.current v)).InOrder := by
    intro n member
    rcases List.mem_cons.1 member with rfl | part
    · exact Nat.le_refl _
    · exact h.first_le ordered n part
  obtain ⟨ts, body, drawn⟩ := h
  have start := Ended.body_eq ordered.ended running
  have shared : p.current ∈ ts := by
    cases ts with
    | nil =>
      have fewer := reach.body.length_le
      have same := congrArg List.length body
      rw [List.nil_append, ahead, List.length_tail] at same
      rw [start, List.length_cons] at fewer same
      omega
    | cons t ts =>
      rw [start] at body
      rw [(List.cons.inj body).1]
      exact List.mem_cons_self
  exact ⟨ts, body, drawn.cons_shared rfl shared trivial inOrder⟩

end Draws

end Parser

structure Inner.Draws (inner : Inner) : Prop where
  kept : inner.Keeps Parser.Extends
  expr : ∀ {limit p e q}, p.input.Ordered → inner.expr limit p = .ok e q → p.Draws q e.nodes
  block : ∀ {p b q}, p.input.Ordered → p.current.kind = .lbrace → inner.block p = .ok b q →
    p.Draws q b.nodes

namespace Rule

theorem moreParameters_draws {n : Nat} {p q : Parser} {names : List Identifier}
    (ordered : p.input.Ordered) (run : moreParameters n p = .ok names q) :
    p.advance.Draws q (names.map .name) := by
  induction n generalizing p names with
  | zero => cases run; exact .refl q
  | succ n ih =>
    rw [moreParameters_succ] at run
    by_cases comma : p.peek.kind = .comma
    · rw [if_pos comma] at run
      obtain ⟨_, _, expected, run⟩ := bind_eq_ok.1 run
      obtain ⟨ident, rfl⟩ := expectPeek_eq_ok.1 expected
      obtain ⟨_, _, ⟨⟩, run⟩ := bind_eq_ok.1 run
      obtain ⟨others, m, more, ⟨⟩⟩ := bind_eq_ok.1 run
      rw [← Parser.advance_current] at ident
      have own := ih ordered.rest.rest more
      exact (own.cons_name ordered.ended ident).of_advance
    · rw [if_neg comma] at run
      cases run
      exact .refl q

theorem parameters_draws {p q : Parser} {names : List Identifier} (ordered : p.input.Ordered)
    (run : parameters p = .ok names q) : p.advance.Draws q (names.map .name) := by
  obtain ⟨_, _, ⟨⟩, run⟩ := bind_eq_ok.1 run
  by_cases closed : p.peek.kind = .rparen
  · simp only [closed, decide_true, if_true] at run
    obtain ⟨_, _, ⟨⟩, ⟨⟩⟩ := bind_eq_ok.1 run
    exact (Parser.Draws.refl p).advance
  · simp only [closed, decide_false] at run
    obtain ⟨_, _, expected, run⟩ := bind_eq_ok.1 run
    obtain ⟨ident, rfl⟩ := expectPeek_eq_ok.1 expected
    obtain ⟨_, _, ⟨⟩, run⟩ := bind_eq_ok.1 run
    obtain ⟨_, _, ⟨⟩, run⟩ := bind_eq_ok.1 run
    obtain ⟨others, c, more, run⟩ := bind_eq_ok.1 run
    obtain ⟨_, _, close, ⟨⟩⟩ := bind_eq_ok.1 run
    obtain ⟨-, rfl⟩ := expectPeek_eq_ok.1 close
    rw [← Parser.advance_current] at ident
    have own := moreParameters_draws ordered.rest more
    exact (own.cons_name ordered.ended ident).advance

theorem skipSemicolon_draws {p q r : Parser} {u : Unit} {ns : List Node} (h : p.Draws q ns)
    (run : skipSemicolon q = .ok u r) : p.Draws r ns := by
  unfold skipSemicolon at run
  split at run <;> cases run
  · exact h.advance
  · exact h

variable {inner : Inner} (draws : inner.Draws)
include draws

theorem group_draws {p q : Parser} {e : Expr} (ordered : p.input.Ordered)
    (run : group inner p = .ok e q) : p.Draws q e.nodes := by
  obtain ⟨_, _, ⟨⟩, run⟩ := bind_eq_ok.1 run
  obtain ⟨e, m, read, run⟩ := bind_eq_ok.1 run
  obtain ⟨_, _, close, ⟨⟩⟩ := bind_eq_ok.1 run
  obtain ⟨-, rfl⟩ := expectPeek_eq_ok.1 close
  exact (draws.expr ordered.rest read).of_advance.advance

theorem condition_draws {p q : Parser} {e : Expr} (ordered : p.input.Ordered)
    (run : condition inner p = .ok e q) : p.advance.Draws q e.nodes := by
  obtain ⟨_, _, opening, run⟩ := bind_eq_ok.1 run
  obtain ⟨-, rfl⟩ := expectPeek_eq_ok.1 opening
  exact group_draws draws ordered.rest run

theorem bracedBlock_draws {p q : Parser} {b : Block} (ordered : p.input.Ordered)
    (run : bracedBlock inner p = .ok b q) : p.advance.Draws q b.nodes := by
  obtain ⟨_, _, opening, run⟩ := bind_eq_ok.1 run
  obtain ⟨kind, rfl⟩ := expectPeek_eq_ok.1 opening
  exact draws.block ordered.rest (p.advance_current ▸ kind) run

theorem alternative_draws {p q : Parser} {b : Option Block} (ordered : p.input.Ordered)
    (run : alternative inner p = .ok b q) : p.advance.Draws q (alternativeNodes b) := by
  obtain ⟨_, _, ⟨⟩, run⟩ := bind_eq_ok.1 run
  by_cases found : p.peek.kind = .elseWord
  · simp only [found, decide_true, if_true] at run
    obtain ⟨_, _, ⟨⟩, run⟩ := bind_eq_ok.1 run
    obtain ⟨b, m, read, ⟨⟩⟩ := bind_eq_ok.1 run
    exact (bracedBlock_draws draws ordered.rest read).of_advance
  · simp only [found, decide_false] at run
    cases run
    exact .refl p

theorem conditional_draws {p q : Parser} {e : Expr} (ordered : p.input.Ordered)
    (kind : p.current.kind = .ifWord) (run : conditional inner p = .ok e q) :
    p.Draws q e.nodes := by
  obtain ⟨_, _, ⟨⟩, run⟩ := bind_eq_ok.1 run
  obtain ⟨test, a, first, run⟩ := bind_eq_ok.1 run
  obtain ⟨consequence, b, second, run⟩ := bind_eq_ok.1 run
  obtain ⟨otherwise, c, third, ⟨⟩⟩ := bind_eq_ok.1 run
  have orderedA := ((Keeps.condition Parser.extends_frame draws.kept).ok first).ordered ordered
  have orderedB := ((Keeps.bracedBlock Parser.extends_frame draws.kept).ok second).ordered orderedA
  have parts := (condition_draws draws ordered first).trans
    ((bracedBlock_draws draws orderedA second).trans (alternative_draws draws orderedB third))
  exact parts.cons ordered.ended (kind ▸ by decide) rfl kind trivial

theorem function_draws {p q : Parser} {e : Expr} (ordered : p.input.Ordered)
    (kind : p.current.kind = .functionWord) (run : function inner p = .ok e q) :
    p.Draws q e.nodes := by
  obtain ⟨_, _, ⟨⟩, run⟩ := bind_eq_ok.1 run
  obtain ⟨_, _, opening, run⟩ := bind_eq_ok.1 run
  obtain ⟨-, rfl⟩ := expectPeek_eq_ok.1 opening
  obtain ⟨names, a, list, run⟩ := bind_eq_ok.1 run
  obtain ⟨body, b, block, ⟨⟩⟩ := bind_eq_ok.1 run
  have orderedA := ((Keeps.parameters Parser.extends_frame).ok list).ordered ordered.rest
  have parts := (parameters_draws ordered.rest list).of_advance.trans
    (bracedBlock_draws draws orderedA block)
  exact parts.cons ordered.ended (kind ▸ by decide) rfl kind trivial

theorem firstOperand_draws {p q : Parser} {e : Expr} (ordered : p.input.Ordered)
    (run : firstOperand inner p = .ok e q) : p.Draws q e.nodes := by
  obtain ⟨_, _, ⟨⟩, run⟩ := bind_eq_ok.1 run
  have ended : p.Ended := ordered.ended
  cases kind : p.current.kind <;> simp only [kind, Kind.operandForm?] at run
  case ident =>
    cases run
    exact (Parser.Draws.refl p).cons_name ended kind
  case int =>
    obtain ⟨_, _, ⟨⟩, run⟩ := bind_eq_ok.1 run
    cases number : integerValue? p.current.literal with
    | none => simp only [number] at run; cases run
    | some value =>
      simp only [number] at run
      cases run
      have agrees : value.toInt = numeralValue p.current.literal := by
        rw [numeralValue, ← decimalValue_eq_ofDigits]
        exact (integerValue?_eq_some.1 number).value
      exact (Parser.Draws.refl p).cons ended (kind ▸ by decide) rfl ⟨kind, agrees⟩ trivial
  case trueWord | falseWord =>
    cases run
    refine (Parser.Draws.refl p).cons ended (kind ▸ by decide) rfl ?_ trivial
    simp [Node.Agrees, Expr.Agrees, kind]
  case bang | minus =>
    obtain ⟨_, _, ⟨⟩, run⟩ := bind_eq_ok.1 run
    obtain ⟨_, _, ⟨⟩, run⟩ := bind_eq_ok.1 run
    obtain ⟨operand, m, read, ⟨⟩⟩ := bind_eq_ok.1 run
    have part := draws.expr ordered.rest read
    exact part.cons ended (kind ▸ by decide) rfl ⟨by simp [kind], rfl⟩ trivial
  case lparen => exact group_draws draws ordered run
  case ifWord => exact conditional_draws draws ordered kind run
  case functionWord => exact function_draws draws ordered kind run
  all_goals cases run

theorem moreArguments_draws {n : Nat} {p q : Parser} {es : List Expr} (ordered : p.input.Ordered)
    (run : moreArguments inner n p = .ok es q) : p.advance.Draws q (argumentNodes es) := by
  induction n generalizing p es with
  | zero => cases run; exact .refl q
  | succ n ih =>
    rw [moreArguments_succ] at run
    by_cases comma : p.peek.kind = .comma
    · rw [if_pos comma] at run
      obtain ⟨e, m, read, run⟩ := bind_eq_ok.1 run
      obtain ⟨others, _, more, ⟨⟩⟩ := bind_eq_ok.1 run
      have orderedM := ((draws.kept.expr .lowest).ok read).ordered ordered.rest.rest
      exact ((draws.expr ordered.rest.rest read).trans (ih orderedM more)).of_advance
    · rw [if_neg comma] at run
      cases run
      exact .refl q

theorem arguments_draws {p q : Parser} {es : List Expr} (ordered : p.input.Ordered)
    (run : arguments inner p = .ok es q) : p.advance.Draws q (argumentNodes es) := by
  obtain ⟨_, _, ⟨⟩, run⟩ := bind_eq_ok.1 run
  by_cases closed : p.peek.kind = .rparen
  · simp only [closed, decide_true, if_true] at run
    obtain ⟨_, _, ⟨⟩, ⟨⟩⟩ := bind_eq_ok.1 run
    exact (Parser.Draws.refl p).advance
  · simp only [closed, decide_false] at run
    obtain ⟨_, _, ⟨⟩, run⟩ := bind_eq_ok.1 run
    obtain ⟨e, m, read, run⟩ := bind_eq_ok.1 run
    obtain ⟨_, _, ⟨⟩, run⟩ := bind_eq_ok.1 run
    obtain ⟨others, c, more, run⟩ := bind_eq_ok.1 run
    obtain ⟨_, _, close, ⟨⟩⟩ := bind_eq_ok.1 run
    obtain ⟨-, rfl⟩ := expectPeek_eq_ok.1 close
    have orderedM := ((draws.kept.expr .lowest).ok read).ordered ordered.rest
    exact ((draws.expr ordered.rest read).trans (moreArguments_draws draws orderedM more)).advance

theorem operator_draws {p q : Parser} {left e : Expr} {form : OperatorForm}
    (ordered : p.input.Ordered) (found : p.current.kind.operatorForm? = some form)
    (run : operator inner left form p = .ok e q) :
    ∃ ns, e.nodes = left.nodes ++ ns ∧ p.Draws q ns := by
  have running : p.current.kind ≠ .eof := by
    intro eof
    rw [eof] at found
    cases found
  cases form with
  | binary =>
    obtain ⟨_, _, ⟨⟩, run⟩ := bind_eq_ok.1 run
    obtain ⟨_, _, ⟨⟩, run⟩ := bind_eq_ok.1 run
    obtain ⟨right, m, read, ⟨⟩⟩ := bind_eq_ok.1 run
    refine ⟨_, rfl, (draws.expr ordered.rest read).cons ordered.ended running rfl ?_ trivial⟩
    refine ⟨?_, rfl⟩
    revert found
    change p.current.kind.operatorForm? = some .binary → p.current.kind ∈ _
    cases p.current.kind <;> decide
  | call =>
    obtain ⟨_, _, ⟨⟩, run⟩ := bind_eq_ok.1 run
    obtain ⟨es, m, list, ⟨⟩⟩ := bind_eq_ok.1 run
    refine ⟨_, rfl, (arguments_draws draws ordered list).cons ordered.ended running rfl ?_ trivial⟩
    revert found
    change p.current.kind.operatorForm? = some .call → p.current.kind = .lparen
    cases p.current.kind <;> decide

/-- What was drawn so far is the operand on the left of the operators that follow. -/
theorem operators_draws {limit : Precedence} {n : Nat} {start p q : Parser} {left e : Expr}
    (ordered : p.input.Ordered) (before : start.Draws p left.nodes)
    (run : operators inner limit n left p = .ok e q) : start.Draws q e.nodes := by
  induction n generalizing p left with
  | zero => cases run; exact before
  | succ n ih =>
    rw [operators_succ] at run
    split at run
    · cases run
      exact before
    · next form found =>
      obtain ⟨whole, m, read, run⟩ := bind_eq_ok.1 run
      have reach := (Keeps.operator Parser.extends_frame draws.kept left form).ok read
      have operator : p.advance.current.kind.operatorForm? = some form := by
        rw [Parser.advance_current]
        split at found
        · exact found
        · cases found
      obtain ⟨ns, nodes, drawn⟩ := operator_draws draws ordered.rest operator read
      refine ih (reach.ordered ordered.rest) ?_ run
      rw [nodes]
      exact before.trans drawn

theorem expression_draws {limit : Precedence} {p q : Parser} {e : Expr} (ordered : p.input.Ordered)
    (run : expression inner limit p = .ok e q) : p.Draws q e.nodes := by
  obtain ⟨left, m, first, run⟩ := bind_eq_ok.1 run
  obtain ⟨_, _, ⟨⟩, run⟩ := bind_eq_ok.1 run
  have reach := (Keeps.firstOperand Parser.extends_frame draws.kept).ok first
  exact operators_draws draws (reach.ordered ordered) (firstOperand_draws draws ordered first) run

theorem value_draws {f : Option Expr → Stmt} {p q : Parser} {s : Stmt} (ordered : p.input.Ordered)
    (run : (do let v ← value inner; skipSemicolon; return f v : Rule Stmt) p = .ok s q) :
    ∃ v, s = f v ∧ p.Draws q (valueNodes v) := by
  obtain ⟨v, m, read, run⟩ := bind_eq_ok.1 run
  obtain ⟨_, _, skip, ⟨⟩⟩ := bind_eq_ok.1 run
  refine ⟨v, rfl, ?_⟩
  have drawn : p.Draws m (valueNodes v) := by
    unfold value optional at read
    cases inside : inner.expr .lowest p with
    | ok e m =>
      rw [inside] at read
      cases read
      exact draws.expr ordered inside
    | error d m =>
      rw [inside] at read
      cases read
      exact ((draws.kept.expr .lowest).error inside).draws
  exact skipSemicolon_draws drawn skip

theorem stmt_draws {p q : Parser} {s : Stmt} (ordered : p.input.Ordered)
    (running : p.current.kind ≠ .eof) (run : stmt inner p = .ok s q) : p.Draws q s.nodes := by
  have reach := (Keeps.stmt Parser.extends_frame draws.kept).ok run
  obtain ⟨_, _, ⟨⟩, run⟩ := bind_eq_ok.1 run
  cases kind : p.current.kind <;> simp only [kind, Kind.stmtForm?] at run
  case varWord =>
    obtain ⟨_, _, ⟨⟩, run⟩ := bind_eq_ok.1 run
    obtain ⟨_, _, expected, run⟩ := bind_eq_ok.1 run
    obtain ⟨ident, rfl⟩ := expectPeek_eq_ok.1 expected
    obtain ⟨_, _, ⟨⟩, run⟩ := bind_eq_ok.1 run
    obtain ⟨_, _, sign, run⟩ := bind_eq_ok.1 run
    obtain ⟨-, rfl⟩ := expectPeek_eq_ok.1 sign
    obtain ⟨_, _, ⟨⟩, run⟩ := bind_eq_ok.1 run
    obtain ⟨v, rfl, value⟩ := value_draws draws ordered.rest.rest.rest run
    rw [← Parser.advance_current] at ident
    exact (value.of_advance.cons_name ordered.ended ident).keyword ordered running rfl rfl kind
  case returnWord =>
    obtain ⟨_, _, ⟨⟩, run⟩ := bind_eq_ok.1 run
    obtain ⟨_, _, ⟨⟩, run⟩ := bind_eq_ok.1 run
    obtain ⟨v, rfl, value⟩ := value_draws draws ordered.rest run
    exact value.keyword ordered running rfl rfl kind
  case whileWord =>
    obtain ⟨_, _, ⟨⟩, run⟩ := bind_eq_ok.1 run
    obtain ⟨test, a, first, run⟩ := bind_eq_ok.1 run
    obtain ⟨body, b, second, run⟩ := bind_eq_ok.1 run
    obtain ⟨_, _, skip, ⟨⟩⟩ := bind_eq_ok.1 run
    have orderedA := ((Keeps.condition Parser.extends_frame draws.kept).ok first).ordered ordered
    have parts := (condition_draws draws ordered first).trans
      (bracedBlock_draws draws orderedA second)
    exact (skipSemicolon_draws parts skip).keyword ordered running rfl rfl kind
  all_goals
    obtain ⟨_, _, ⟨⟩, run⟩ := bind_eq_ok.1 run
    obtain ⟨v, rfl, value⟩ := value_draws draws ordered run
    exact value.expression ordered running reach

theorem stmtsUntil_draws (close : Kind) (n : Nat) {p : Parser} (ordered : p.input.Ordered) :
    p.Draws (stmtsUntil inner close n p).2 (statementNodes (stmtsUntil inner close n p).1) ∧
      Consecutive (stmtsUntil inner close n p).1 := by
  induction n generalizing p with
  | zero => exact ⟨(Parser.Draws.refl p).of_advance, .nil⟩
  | succ n ih =>
    rw [stmtsUntil]
    split
    · exact ⟨(Parser.Draws.refl p).of_advance, .nil⟩
    · next running =>
      cases run : stmt inner p with
      | ok s q =>
        have reach := (Keeps.stmt Parser.extends_frame draws.kept).ok run
        have drawn := stmt_draws draws ordered (fun eof => running (.inr eof)) run
        obtain ⟨others, consecutive⟩ := ih (p := q.advance) (reach.ordered ordered).rest
        refine ⟨drawn.trans others, List.pairwise_cons.2 ⟨?_, consecutive⟩⟩
        intro t member n own m part
        refine drawn.first_lt ordered others n own m ?_
        rw [statementNodes_eq_flatMap]
        exact List.mem_flatMap.2 ⟨t, member, part⟩
      | error d q =>
        have reach := (Keeps.stmt Parser.extends_frame draws.kept).error run
        obtain ⟨others, consecutive⟩ := ih (p := (q.record d).advance) (reach.ordered ordered).rest
        exact ⟨others.of_advance.of_suffix reach.body, consecutive⟩

theorem bracedStmts_draws {p q : Parser} {b : Block} (ordered : p.input.Ordered)
    (kind : p.current.kind = .lbrace) (run : bracedStmts inner p = .ok b q) :
    p.Draws q b.nodes := by
  rw [bracedStmts_apply, closeBlock, bind_current] at run
  split at run
  · cases run
    obtain ⟨drawn, consecutive⟩ :=
      stmtsUntil_draws draws .rbrace p.advance.remaining (p := p.advance) ordered.rest
    exact drawn.cons ordered.ended (kind ▸ by decide) rfl kind consecutive
  · cases run

end Rule

theorem Inner.Draws.levels (n : Nat) : (Inner.levels n).Draws := by
  induction n with
  | zero => exact ⟨.levels Parser.extends_frame 0, nofun, nofun⟩
  | succ n ih =>
    refine ⟨.levels Parser.extends_frame (n + 1), ?_, ?_⟩
    · intro limit p e q ordered run
      obtain ⟨-, r, deeper, rfl⟩ := Rule.nested_eq_ok.1 run
      have inside :=
        Rule.expression_draws ih (p := { p with depth := p.depth + 1 }) ordered deeper
      exact inside
    · intro p b q ordered kind run
      obtain ⟨-, r, deeper, rfl⟩ := Rule.nested_eq_ok.1 run
      have inside :=
        Rule.bracedStmts_draws ih (p := { p with depth := p.depth + 1 }) ordered kind deeper
      exact inside

theorem Parser.program_drawn {p : Parser} (ordered : p.input.Ordered) :
    Drawn p.program.1.nodes p.input.body ∧ Consecutive p.program.1.statements := by
  obtain ⟨⟨ts, body, drawn⟩, consecutive⟩ :=
    Rule.stmtsUntil_draws (Inner.Draws.levels (maxDepth - p.depth)) .eof p.remaining ordered
  refine ⟨drawn.mono ?_, consecutive⟩
  rw [body]
  exact List.sublist_append_left _ _

/-- Errors or not, every node of a tree holds a token of the source that says what the node
says. In the order of the source the tokens of their own begin one behind the other, so
that no two nodes share one. A statement's token, also one that is not its own, begins no
later than any token in the statement and behind all tokens of the statements before it. -/
theorem tree_provenance {source : String} (small : source.length < 2 ^ 32) (file : Option String) :
    (∀ n ∈ (readProgram source file).1.nodes, n.token ∈ tokenize source file ∧ n.Agrees) ∧
      (listed (readProgram source file).1.nodes).Pairwise (fun t u => t.first < u.first) ∧
      (listed (readProgram source file).1.nodes).Nodup ∧
      (∀ s, .stmt s ∈ (readProgram source file).1.nodes →
        ∀ n ∈ s.nodes, s.token.first ≤ n.token.first) ∧
      ∀ ss ∈ (readProgram source file).1.bodies, ss.Pairwise fun s t =>
        ∀ n ∈ s.nodes, ∀ m ∈ t.nodes, n.token.first < m.token.first := by
  have ordered := (Parser.ofSource_ordered small file).1
  obtain ⟨drawn, consecutive⟩ := Parser.program_drawn ordered
  have increasing := (List.pairwise_append.1 ordered.increasing).1.sublist drawn.sublist
  refine ⟨fun n member => ⟨List.mem_append_left _ (drawn.mem n member), drawn.agrees n member⟩,
    increasing, increasing.imp fun lt => ?_, fun s member => drawn.inOrder _ member, ?_⟩
  · rintro rfl
    exact Nat.lt_irrefl _ lt
  · intro ss member
    rcases List.mem_cons.1 member with rfl | inside
    · exact consecutive
    · obtain ⟨n, found, body⟩ := List.mem_filterMap.1 inside
      cases n with
      | block b =>
        cases body
        exact drawn.inOrder _ found
      | name | expr | stmt => cases body

theorem tree_provenance_broken :
    (readProgram "var x = ); f(a) + b" none).2.errors.size = 1 ∧
      (listed (readProgram "var x = ); f(a) + b" none).1.nodes).map Token.literal =
        ["var", "x", "f", "(", "a", "+", "b"] ∧
      (listed (readProgram "var x = ); f(a) + b" none).1.nodes).Pairwise
        (fun t u => t.first < u.first) := by
  have small : "var x = ); f(a) + b".length < 2 ^ 32 := by decide
  exact ⟨by decide +kernel, by decide +kernel, (tree_provenance small none).2.1⟩

end ScriptFront
