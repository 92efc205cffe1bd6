import ScriptFront.Proofs.Bound
import ScriptFront.Proofs.Nodes
import ScriptFront.Proofs.Renaming

/-! One walk over the grammar. A rule is `Composed` if it is put together from elementary
steps, each taken where enough is known of the current token: a token is passed over, and
the next one looked at, only from a token that neither ends the input nor a statement, and a
level is entered only behind a token of the level around it. Two rules are compared, the
second of which reads the same tokens under other names and has other rules inside. What holds
of the elementary steps then holds of all rules by induction on how they are composed. -/

namespace ScriptFront

variable {α β : Type}

def Token.Solid (t : Token) : Prop := t.kind ≠ .eof ∧ t.kind ≠ .semicolon

theorem Token.solid_of_kind {t : Token} {k : Kind} (h : t.kind = k)
    (other : k ≠ .eof ∧ k ≠ .semicolon) : t.Solid := by
  rw [Solid, h]
  exact other

theorem Kind.eq_int_of_integer {k : Kind} (h : k.operandForm? = some .integer) : k = .int := by
  cases k <;> first | rfl | exact absurd h (by decide)

def Cause.Fits (t : Token) : Cause → Prop
  | .noOperand kind => kind = t.kind ∧ t.kind.operandForm? = none
  | .integerOutOfRange literal =>
    literal = t.literal ∧ t.kind = .int ∧ integerValue? t.literal = none
  | .unexpectedToken _ _ | .nestingTooDeep _ => False

/-- What is known between two steps: the statements and blocks read so far, a property of the
current token, and whether a token of this level has been passed over. -/
structure Mark where
  nodes : List Node
  token : Token → Prop
  paid : Prop

namespace Mark

def Solid (m : Mark) : Prop := ∀ t, m.token t → t.Solid

def known (m : Mark) (K : Token → Prop) : Mark := { m with token := K }

def past (m : Mark) (K : Token → Prop) : Mark := ⟨m.nodes, K, True⟩

def after (m : Mark) (ns : List Node) : Mark := ⟨m.nodes ++ wholes ns, Token.Solid, m.paid⟩

@[simp] theorem nodes_known (m : Mark) (K : Token → Prop) : (m.known K).nodes = m.nodes := rfl

@[simp] theorem nodes_past (m : Mark) (K : Token → Prop) : (m.past K).nodes = m.nodes := rfl

@[simp] theorem nodes_after (m : Mark) (ns : List Node) :
    (m.after ns).nodes = m.nodes ++ wholes ns := rfl

structure Entails (m m' : Mark) : Prop where
  nodes : m.nodes = m'.nodes
  token : ∀ t, m.token t → m'.token t
  paid : m'.paid → m.paid

theorem Entails.refl (m : Mark) : m.Entails m := ⟨rfl, fun _ here => here, id⟩

theorem Solid.entails_after {m : Mark} (solid : m.Solid) : m.Entails (m.after []) :=
  ⟨by simp, solid, id⟩

theorem past_after (m : Mark) (K : Token → Prop) (ns : List Node) :
    ((m.past K).after ns).Entails (m.after ns) := ⟨rfl, fun _ here => here, fun _ => trivial⟩

theorem solid_past (m : Mark) {k : Kind} (other : k ≠ .eof ∧ k ≠ .semicolon) :
    (m.past (·.kind = k)).Solid := fun _ here => Token.solid_of_kind here other

end Mark

namespace Rule

def ahead {ι : Type} (select : Kind → Option ι) (found : ι → Rule α) (missing : Rule α) : Rule α :=
  fun p =>
    match select p.peek.kind with
    | some i => found i p.advance
    | none => missing p

theorem ifPeek_eq (kind : Kind) (found missing : Rule α) :
    (do if ← peekIs kind then advance; found else missing) =
      ahead (fun k => if k = kind then some () else none) (fun _ => found) missing := by
  funext p
  rw [bind_peekIs, ahead]
  by_cases met : p.peek.kind = kind
  · rw [decide_eq_true met, if_pos rfl, if_pos met]
    rfl
  · rw [decide_eq_false met, if_neg Bool.false_ne_true, if_neg met]

theorem operators_eq_ahead (inner : Inner) (limit : Precedence) (n : Nat) (left : Expr) :
    operators inner limit (n + 1) left =
      ahead (fun k => if limit < k.precedence then k.operatorForm? else none)
        (fun form => operator inner left form >>= operators inner limit n) (pure left) := by
  funext p
  rw [operators_succ, ahead]
  cases if limit < p.peek.kind.precedence then p.peek.kind.operatorForm? else none <;> rfl

section

variable (f : Token → Token) (inner inner' : Inner)

/-- From `m` the rules `x` and `y` are composed in the same way, of `inner` for tokens and of
`inner'` for tokens changed by `f`, and come to values that `φ` relates, of which the marks are
known. -/
inductive Composed : {α : Type} → (α → α) → Mark → Rule α → Rule α → (α → Mark) → Prop where
  | pure {α : Type} {φ : α → α} {m : Mark} {a b : α} {Q : α → Mark} (same : b = φ a)
      (ends : m.Entails (Q a)) : Composed φ m (Pure.pure a) (Pure.pure b) Q
  | bind {α β : Type} {φ : α → α} {ψ : β → β} {m : Mark} {x y : Rule α} {g h : α → Rule β}
      {Q : α → Mark} {T : β → Mark} (first : Composed φ m x y Q)
      (next : ∀ a, Composed ψ (Q a) (g a) (h (φ a)) T) :
      Composed ψ m (x >>= g) (y >>= h) T
  | weaken {α : Type} {φ : α → α} {m m' : Mark} {x y : Rule α} {Q Q' : α → Mark}
      (start : m.Entails m') (rest : Composed φ m' x y Q')
      (ends : ∀ a, (Q' a).Entails (Q a)) : Composed φ m x y Q
  | current {m : Mark} :
      Composed f m Rule.current Rule.current fun t => m.known fun u => u = t ∧ m.token u
  | advance {m : Mark} (solid : m.Solid) :
      Composed id m Rule.advance Rule.advance fun _ => m.past fun _ => True
  | expectPeek {m : Mark} {kind : Kind}
      (wanted : kind ∈ [.ident, .assign, .lparen, .rparen, .lbrace]) (solid : m.Solid) :
      Composed id m (Rule.expectPeek kind) (Rule.expectPeek kind)
        fun _ => m.past (·.kind = kind)
  | fail {α : Type} {φ : α → α} {m : Mark} {cause : Cause} {Q : α → Mark}
      (fits : ∀ t, m.token t → cause.Fits t) :
      Composed φ m (Rule.fail cause) (Rule.fail cause) Q
  | ahead {α ι : Type} {φ : α → α} {m : Mark} {select : Kind → Option ι} {x y : ι → Rule α}
      {x' y' : Rule α} {Q : α → Mark} (solid : m.Solid)
      (own : ∀ k i, select k = some i → k ≠ .eof ∧ k ≠ .semicolon)
      (found : ∀ i, Composed φ (m.past (select ·.kind = some i)) (x i) (y i) Q)
      (missing : Composed φ m x' y' Q) :
      Composed φ m (Rule.ahead select x x') (Rule.ahead select y y') Q
  | bounded {α : Type} {φ : α → α} {m : Mark} {g h : Nat → Rule α} {Q : α → Mark}
      (all : ∀ n, Composed φ m (g n) (h n) Q)
      (bound : inner.Keeps Parser.Extends → ∀ n p, p.Ended → p.remaining ≤ n →
        g p.remaining p = g n p) :
      Composed φ m (remaining >>= g) (remaining >>= h) Q
  | expr {m : Mark} {limit : Precedence} (paid : m.paid) :
      Composed (Expr.mapTokens f f) m (inner.expr limit) (inner'.expr limit)
        fun e => m.after e.nodes
  | block {m : Mark} (paid : m.paid) (brace : ∀ t, m.token t → t.kind = .lbrace) :
      Composed (Block.mapTokens f f) m inner.block inner'.block fun b => m.after b.nodes

end

end Rule

/-- Tokens keep what the grammar sees of them. -/
structure Renames (f : Token → Token) : Prop where
  kind : ∀ t, (f t).kind = t.kind
  literal : ∀ t, (f t).literal = t.literal

theorem Renames.id : Renames id := ⟨fun _ => rfl, fun _ => rfl⟩

namespace Rule.Composed

variable {f : Token → Token} {inner inner' : Inner} {m : Mark}

theorem entered {φ : α → α} {K : Token → Prop} {x y : Rule α} {nodes : α → List Node}
    (h : Composed f inner inner' φ (m.past K) x y fun a => (m.past K).after (nodes a)) :
    Composed f inner inner' φ (m.past K) x y fun a => m.after (nodes a) :=
  .weaken (.refl _) h fun _ => m.past_after K _

theorem name (same : Renames f) :
    Composed f inner inner' (Identifier.mapToken f) m name name fun _ => m :=
  .bind .current fun t => .pure (by rw [Identifier.mapToken, same.literal])
    ⟨rfl, fun _ here => here.2, fun paid => paid⟩

theorem unary (same : Renames f) (solid : m.Solid) :
    Composed f inner inner' (Expr.mapTokens f f) m (unary inner) (unary inner')
      fun e => m.after e.nodes :=
  .bind .current fun t => .bind (.advance fun u here => solid u here.2) fun _ =>
    .bind (.expr trivial) fun e => .pure (by rw [Expr.mapTokens, same.literal])
      (m.past_after _ _)

theorem group (solid : m.Solid) :
    Composed f inner inner' (Expr.mapTokens f f) m (group inner) (group inner')
      fun e => m.after e.nodes :=
  .bind (.advance solid) fun _ => .bind (.expr trivial) fun e =>
    .bind (.expectPeek (by decide) fun _ here => here) fun _ =>
      .pure rfl ⟨rfl, fun _ here => Token.solid_of_kind here (by decide), fun _ => trivial⟩

theorem condition (solid : m.Solid) :
    Composed f inner inner' (Expr.mapTokens f f) m (condition inner) (condition inner')
      fun e => m.after e.nodes :=
  .bind (.expectPeek (by decide) solid) fun _ => entered (group (m.solid_past (by decide)))

theorem bracedBlock (solid : m.Solid) :
    Composed f inner inner' (Block.mapTokens f f) m (bracedBlock inner) (bracedBlock inner')
      fun b => m.after b.nodes :=
  .bind (.expectPeek (by decide) solid) fun _ => entered (.block trivial fun _ here => here)

theorem ifPeek {φ : α → α} {kind : Kind} {x y x' y' : Rule α} {Q : α → Mark} (solid : m.Solid)
    (own : kind ≠ .eof ∧ kind ≠ .semicolon)
    (found : Composed f inner inner' φ (m.past (·.kind = kind)) x y Q)
    (missing : Composed f inner inner' φ m x' y' Q) :
    Composed f inner inner' φ m (do if ← peekIs kind then Rule.advance; x else x')
      (do if ← peekIs kind then Rule.advance; y else y') Q := by
  rw [ifPeek_eq, ifPeek_eq]
  have met {k : Kind} {i : Unit} (h : (if k = kind then some () else none) = some i) :
      k = kind := by
    by_contra other
    rw [if_neg other] at h
    cases h
  refine .ahead solid (fun k i h => met h ▸ own) (fun i => ?_) missing
  have start : (m.past fun t => (if t.kind = kind then some () else none) = some i).Entails
      (m.past (·.kind = kind)) := ⟨rfl, fun _ here => met here, id⟩
  exact .weaken start found fun _ => .refl _

theorem alternative (solid : m.Solid) :
    Composed f inner inner' (mapAlternative f f) m (alternative inner) (alternative inner')
      fun b => m.after (alternativeNodes b) := by
  refine .ifPeek solid (by decide) ?_ ?_
  · exact .bind (bracedBlock (m.solid_past (by decide))) fun b => .pure rfl (m.past_after _ _)
  · exact .pure rfl solid.entails_after

theorem conditional (solid : m.Solid) :
    Composed f inner inner' (Expr.mapTokens f f) m (conditional inner) (conditional inner')
      fun e => m.after e.nodes :=
  .bind .current fun token => .bind (condition fun u here => solid u here.2) fun test =>
    .bind (bracedBlock fun _ here => here) fun consequence =>
      .bind (alternative fun _ here => here) fun otherwise =>
        .pure rfl ⟨by simp [Expr.nodes], fun _ here => here, id⟩

theorem moreParameters (same : Renames f) (solid : m.Solid) (n : Nat) :
    Composed f inner inner' (List.map (Identifier.mapToken f)) m (moreParameters n)
      (moreParameters n) fun _ => m.after [] := by
  induction n generalizing m with
  | zero => exact .pure rfl solid.entails_after
  | succ n ih =>
    refine .ifPeek solid (by decide) ?_ (.pure rfl solid.entails_after)
    exact .bind (.expectPeek (by decide) (m.solid_past (by decide))) fun _ =>
      .bind (name same) fun parameter => .bind (ih (Mark.solid_past _ (by decide))) fun others =>
        .pure rfl (m.past_after _ [])

theorem parameters (same : Renames f) (solid : m.Solid) :
    Composed f inner inner' (List.map (Identifier.mapToken f)) m parameters parameters
      fun _ => m.after [] := by
  refine .ifPeek solid (by decide) ?_ ?_
  · exact .pure rfl ⟨by simp, m.solid_past (by decide), fun _ => trivial⟩
  · refine .bind (.expectPeek (by decide) solid) fun _ => .bind (name same) fun first => ?_
    have solid := m.solid_past (k := .ident) (by decide)
    refine .bounded (fun n => .bind (moreParameters same solid n) fun others =>
      .bind (.expectPeek (by decide) fun _ here => here) fun _ => .pure rfl
        ⟨rfl, fun _ here => Token.solid_of_kind here (by decide), fun _ => trivial⟩) ?_
    intro _ n p ended enough
    exact bind_congr_at _ (moreParameters_bound ended (Nat.le_refl _) enough)

theorem function (same : Renames f) (solid : m.Solid) :
    Composed f inner inner' (Expr.mapTokens f f) m (function inner) (function inner')
      fun e => m.after e.nodes :=
  .bind .current fun token => .bind (.expectPeek (by decide) fun u here => solid u here.2) fun _ =>
    .bind (parameters same (Mark.solid_past _ (by decide))) fun names =>
      .bind (bracedBlock fun _ here => here) fun body =>
        .pure rfl ⟨by simp [Expr.nodes], fun _ here => here, fun _ => trivial⟩

theorem integer (same : Renames f) (int : ∀ t, m.token t → t.kind = .int) :
    Composed f inner inner' (Expr.mapTokens f f) m integer integer fun e => m.after e.nodes := by
  refine .bind .current fun t => ?_
  rw [same.literal]
  cases value : integerValue? t.literal with
  | some value =>
    exact .pure rfl ⟨by simp [Expr.nodes],
      fun u here => Token.solid_of_kind (int u here.2) (by decide), id⟩
  | none => exact .fail fun u here => ⟨here.1 ▸ rfl, int u here.2, here.1 ▸ value⟩

theorem operand (same : Renames f) (form : OperandForm)
    (begins : ∀ t, m.token t → t.kind.operandForm? = some form) :
    Composed f inner inner' (Expr.mapTokens f f) m (operand inner form) (operand inner' form)
      fun e => m.after e.nodes := by
  have solid : m.Solid := by
    intro t here
    have found := begins t here
    constructor
    all_goals
      intro other
      rw [other] at found
      cases found
  cases form with
  | identifier =>
    exact .bind (name same) fun i => .pure rfl ⟨by simp [Expr.nodes], solid, id⟩
  | integer => exact integer same fun t here => Kind.eq_int_of_integer (begins t here)
  | boolean =>
    exact .bind .current fun t => .pure (by rw [Expr.mapTokens, same.kind])
      ⟨by simp [Expr.nodes], fun u here => solid u here.2, id⟩
  | unary => exact unary same solid
  | group => exact group solid
  | conditional => exact conditional solid
  | function => exact function same solid

theorem firstOperand (same : Renames f) :
    Composed f inner inner' (Expr.mapTokens f f) m (firstOperand inner) (firstOperand inner')
      fun e => m.after e.nodes := by
  refine .bind .current fun t => ?_
  rw [same.kind]
  cases found : t.kind.operandForm? with
  | none => exact .fail fun u here => ⟨here.1 ▸ rfl, here.1 ▸ found⟩
  | some form => exact operand same form fun u here => here.1 ▸ found

theorem binary (same : Renames f) {K : Token → Prop} (solid : ∀ t, K t → t.Solid) (left : Expr) :
    Composed f inner inner' (Expr.mapTokens f f) ((m.after left.nodes).past K)
      (binary inner left) (binary inner' (left.mapTokens f f)) fun e => m.after e.nodes := by
  refine .bind .current fun t => .bind (.advance fun u here => solid u here.2) fun _ => ?_
  rw [same.kind]
  exact .bind (.expr trivial) fun right => .pure (by rw [Expr.mapTokens, same.literal])
    ⟨by simp [Expr.nodes], fun _ here => here, fun _ => trivial⟩

theorem moreArguments (solid : m.Solid) (n : Nat) :
    Composed f inner inner' (mapArguments f f) m (moreArguments inner n) (moreArguments inner' n)
      fun es => m.after (argumentNodes es) := by
  induction n generalizing m with
  | zero => exact .pure rfl solid.entails_after
  | succ n ih =>
    refine .ifPeek solid (by decide) ?_ (.pure rfl solid.entails_after)
    exact .bind (.advance (m.solid_past (by decide))) fun _ => .bind (.expr trivial) fun e =>
      .bind (ih fun _ here => here) fun es => .pure rfl
        ⟨by simp [argumentNodes], fun _ here => here, fun _ => trivial⟩

theorem arguments (solid : m.Solid) :
    Composed f inner inner' (mapArguments f f) m (arguments inner) (arguments inner')
      fun es => m.after (argumentNodes es) := by
  refine .ifPeek solid (by decide) ?_ ?_
  · exact .pure rfl ⟨by simp [argumentNodes], m.solid_past (by decide), fun _ => trivial⟩
  · refine .bind (.advance solid) fun _ => .bind (.expr trivial) fun first => ?_
    refine .bounded (fun n => .bind (moreArguments (fun _ here => here) n) fun others =>
      .bind (.expectPeek (by decide) fun _ here => here) fun _ => .pure rfl
        ⟨by simp [argumentNodes], fun _ here => Token.solid_of_kind here (by decide),
          fun _ => trivial⟩) ?_
    intro kept n p ended enough
    exact bind_congr_at _ (moreArguments_bound kept ended (Nat.le_refl _) enough)

theorem operator (same : Renames f) {K : Token → Prop} (solid : ∀ t, K t → t.Solid) (left : Expr)
    (form : OperatorForm) :
    Composed f inner inner' (Expr.mapTokens f f) ((m.after left.nodes).past K)
      (operator inner left form) (operator inner' (left.mapTokens f f) form)
      fun e => m.after e.nodes := by
  cases form with
  | binary => exact binary same solid left
  | call =>
    exact .bind .current fun t => .bind (arguments fun u here => solid u here.2) fun es =>
      .pure rfl ⟨by simp [Expr.nodes], fun _ here => here, fun _ => trivial⟩

end Rule.Composed

/-- From parsers that `I` allows at the mark, the rule comes to such parsers at the marks of its
values, and fails only as `E` says. -/
def Rule.Meets (I : Mark → Parser → Prop) (E : Diagnostic → Parser → Prop) (m : Mark) (x : Rule α)
    (Q : α → Mark) : Prop :=
  ∀ p, I m p → match x p with
    | .ok a q => I (Q a) q
    | .error d q => E d q

structure Inner.Meets (I : Mark → Parser → Prop) (E : Diagnostic → Parser → Prop)
    (inner : Inner) : Prop where
  expr : ∀ limit (m : Mark), m.paid →
    Rule.Meets I E m (inner.expr limit) fun e => m.after e.nodes
  block : ∀ m : Mark, m.paid → (∀ t, m.token t → t.kind = .lbrace) →
    Rule.Meets I E m inner.block fun b => m.after b.nodes

theorem Rule.Meets.nested {I I' : Mark → Parser → Prop} {E E' : Diagnostic → Parser → Prop}
    {m m' : Mark} {x : Rule α} {Q Q' : α → Mark} (h : Meets I E m x Q)
    (opened : ∀ p : Parser, p.depth < maxDepth → I' m' p → I m { p with depth := p.depth + 1 })
    (closed : ∀ p, I' m' p → ∀ a q, I (Q a) q → I' (Q' a) { q with depth := q.depth - 1 })
    (failed : ∀ d q, E d q → E' d { q with depth := q.depth - 1 })
    (full : ∀ p : Parser, ¬ p.depth < maxDepth → I' m' p →
      E' ⟨.nestingTooDeep maxDepth, p.current.position⟩ p) :
    Meets I' E' m' (nested x) Q' := by
  intro p start
  by_cases room : p.depth < maxDepth
  · have inside := h _ (opened p room start)
    rw [Rule.nested, if_pos room]
    cases run : x { p with depth := p.depth + 1 } with
    | ok a q =>
      rw [run] at inside
      exact closed p start a q inside
    | error d q =>
      rw [run] at inside
      exact failed d q inside
  · rw [Rule.nested, if_neg room]
    exact full p room start

structure Invariant (I : Mark → Parser → Prop) (E : Diagnostic → Parser → Prop) : Prop where
  entails : ∀ {m m' p}, m.Entails m' → I m p → I m' p
  current : ∀ {m : Mark} {p : Parser}, I m p → I (m.known fun t => t = p.current ∧ m.token t) p
  advance : ∀ {m : Mark} {p : Parser} {K : Token → Prop}, m.Solid → K p.peek → I m p →
    I (m.past K) p.advance
  unexpected : ∀ {m : Mark} {p : Parser} {kind : Kind},
    kind ∈ [.ident, .assign, .lparen, .rparen, .lbrace] → p.peek.kind ≠ kind → m.Solid → I m p →
    E ⟨.unexpectedToken kind p.peek.kind, p.peek.position⟩ p
  fail : ∀ {m : Mark} {p : Parser} {cause : Cause}, (∀ t, m.token t → cause.Fits t) → I m p →
    E ⟨cause, p.current.position⟩ p

namespace Invariant

variable {I : Mark → Parser → Prop} {E : Diagnostic → Parser → Prop} {f : Token → Token}
  {inner : Inner}

theorem composed (inv : Invariant I E) (inside : inner.Meets I E) {φ : α → α} {m : Mark}
    {x y : Rule α} {Q : α → Mark} (h : Rule.Composed f inner inner φ m x y Q) :
    Rule.Meets I E m x Q := by
  induction h with
  | pure _ ends => exact fun p start => inv.entails ends start
  | bind _ _ first next =>
    intro p start
    have done := first p start
    split at done
    · next run => exact Rule.bind_of_ok run ▸ next _ _ done
    · next run => exact Rule.bind_of_error run ▸ done
  | weaken start _ ends rest =>
    intro p own
    have done := rest p (inv.entails start own)
    split
    · next run =>
      rw [run] at done
      exact inv.entails (ends _) done
    · next run =>
      rw [run] at done
      exact done
  | current => exact fun p start => inv.current start
  | advance solid => exact fun p start => inv.advance solid trivial start
  | @expectPeek m kind wanted solid =>
    intro p start
    rw [Rule.expectPeek]
    by_cases met : p.peek.kind = kind
    · rw [if_pos met]
      exact inv.advance solid met start
    · rw [if_neg met]
      exact inv.unexpected wanted met solid start
  | fail fits => exact fun p start => inv.fail fits start
  | @ahead _ _ _ _ select _ _ _ _ _ solid _ _ _ found missing =>
    intro p start
    rw [Rule.ahead]
    cases selected : select p.peek.kind with
    | some i => exact found i p.advance (inv.advance solid selected start)
    | none => exact missing p start
  | bounded _ _ all => exact fun p start => all p.remaining p start
  | expr paid => exact inside.expr _ _ paid
  | block paid brace => exact inside.block _ paid brace

end Invariant

section Frame

variable {R : Parser → Parser → Prop} {inner : Inner}

theorem Frame.invariant (frame : Frame R) (p : Parser) :
    Invariant (fun _ q => R p q) fun _ q => R p q where
  entails _ h := h
  current h := h
  advance _ _ h := frame.trans h (frame.advance _)
  unexpected _ _ _ h := h
  fail _ h := h

theorem Rule.Keeps.meets (frame : Frame R) {x : Rule α} (h : Keeps R x) (p : Parser) (m : Mark)
    (Q : α → Mark) : Meets (fun _ q => R p q) (fun _ q => R p q) m x Q := by
  intro q start
  exact final_iff.1 (frame.trans start (h q))

theorem Inner.Keeps.meets (frame : Frame R) (kept : inner.Keeps R) (p : Parser) :
    inner.Meets (fun _ q => R p q) fun _ q => R p q :=
  ⟨fun limit m _ => (kept.expr limit).meets frame p m _,
    fun m _ _ => kept.block.meets frame p m _⟩

theorem Rule.Composed.keeps {f : Token → Token} {φ : α → α} {m : Mark} {x y : Rule α}
    {Q : α → Mark} (h : Composed f inner inner φ m x y Q) (frame : Frame R) (kept : inner.Keeps R) :
    Keeps R x := by
  intro p
  exact final_iff.2 ((frame.invariant p).composed (kept.meets frame p) h p (frame.refl p))

end Frame

namespace Rule.Composed

variable {f : Token → Token} {inner inner' : Inner} {m : Mark}

theorem operators (same : Renames f) (limit : Precedence) (n : Nat) (left : Expr) :
    Composed f inner inner' (Expr.mapTokens f f) (m.after left.nodes) (operators inner limit n left)
      (operators inner' limit n (left.mapTokens f f)) fun e => m.after e.nodes := by
  induction n generalizing left with
  | zero => exact .pure rfl (.refl _)
  | succ n ih =>
    rw [operators_eq_ahead, operators_eq_ahead]
    have own : ∀ (k : Kind) (form : OperatorForm),
        (if limit < k.precedence then k.operatorForm? else none) = some form →
          k ≠ .eof ∧ k ≠ .semicolon := by
      intro k form found
      constructor
      all_goals
        rintro rfl
        simp [Kind.operatorForm?] at found
    refine .ahead (fun _ here => here) own (fun form => ?_) (.pure rfl (.refl _))
    exact .bind (operator same (fun t found => own _ _ found) left form) ih

theorem expression (same : Renames f) (limit : Precedence) :
    Composed f inner inner' (Expr.mapTokens f f) m (expression inner limit)
      (expression inner' limit) fun e => m.after e.nodes := by
  refine .bind (firstOperand same) fun left => .bounded (operators same limit · left) ?_
  intro kept n p ended enough
  refine operators_bound (fun left form => ?_) limit ended (Nat.le_refl _) enough
  exact (operator Renames.id (m := m) (fun _ here => here) left form).keeps
    Parser.extends_frame kept

end Rule.Composed

namespace Rule

/-- The end of a statement whose value may be missing. -/
def valueEnd (inner : Inner) (form : Option Expr → Stmt) : Rule Stmt := do
  let v ← value inner
  skipSemicolon
  return form v

def plainEnd (s : Stmt) : Rule Stmt := do
  skipSemicolon
  return s

section

variable (f : Token → Token) (inner inner' : Inner)

/-- From `m` the rules `x` and `y` read a statement: steps like those of an expression, and then
one of the two ends. -/
inductive Concludes : Mark → Rule Stmt → Rule Stmt → Prop where
  | bind {α : Type} {φ : α → α} {m : Mark} {x y : Rule α} {g h : α → Rule Stmt} {Q : α → Mark}
      (first : Composed f inner inner' φ m x y Q)
      (next : ∀ a, Concludes (Q a) (g a) (h (φ a))) :
      Concludes m (x >>= g) (y >>= h)
  | value {m : Mark} {form form' : Option Expr → Stmt}
      (same : ∀ v, form' (mapValue f f v) = (form v).mapTokens f f)
      (complete : ∀ e, (form (some e)).isIncomplete = false)
      (nodes : ∀ v, wholes (form v).nodes = .stmt (form v) :: wholes (valueNodes v))
      (fresh : m.nodes = []) (paid : m.paid) :
      Concludes m (valueEnd inner form) (valueEnd inner' form')
  | plain {m : Mark} {s t : Stmt} (same : t = s.mapTokens f f) (complete : s.isIncomplete = false)
      (nodes : wholes s.nodes = .stmt s :: m.nodes) :
      Concludes m (plainEnd s) (plainEnd t)

end

def atStmt : Mark := ⟨[], fun _ => True, True⟩

def inStmt : Mark := atStmt.known Token.Solid

theorem expressionStmt_concludes {f : Token → Token} {inner inner' : Inner} {m : Mark}
    (fresh : m.nodes = []) (paid : m.paid) :
    Concludes f inner inner' m (expressionStmt inner) (expressionStmt inner') :=
  .bind .current fun _ =>
    .value (fun _ => rfl) (fun _ => rfl) (fun _ => by simp [Stmt.nodes]) fresh paid

theorem keywordStmt_concludes {f : Token → Token} (same : Renames f) {inner inner' : Inner}
    {m : Mark} (fresh : m.nodes = []) (solid : m.Solid) (form : StmtForm) :
    Concludes f inner inner' m (keywordStmt inner form) (keywordStmt inner' form) := by
  have here {t : Token} : (m.known fun u => u = t ∧ m.token u).Solid := fun u both => solid u both.2
  cases form with
  | var =>
    refine .bind .current fun _ => .bind (.expectPeek (by decide) here) fun _ =>
      .bind (.name same) fun _ =>
        .bind (.expectPeek (by decide) (Mark.solid_past _ (by decide))) fun _ =>
          .bind (.advance (Mark.solid_past _ (by decide))) fun _ => ?_
    exact .value (fun _ => rfl) (fun _ => rfl) (fun _ => by simp [Stmt.nodes]) fresh trivial
  | ret =>
    exact .bind .current fun _ => .bind (.advance here) fun _ =>
      .value (fun _ => rfl) (fun _ => rfl) (fun _ => by simp [Stmt.nodes]) fresh trivial
  | loop =>
    refine .bind .current fun _ => .bind (.condition here) fun _ =>
      .bind (.bracedBlock fun _ here => here) fun _ => .plain rfl rfl ?_
    simp [Stmt.nodes, fresh]

theorem stmt_concludes {f : Token → Token} (same : Renames f) {inner inner' : Inner} :
    Concludes f inner inner' atStmt (stmt inner) (stmt inner') := by
  refine .bind .current fun t => ?_
  rw [same.kind]
  cases found : t.kind.stmtForm? with
  | none => exact expressionStmt_concludes rfl trivial
  | some form =>
    refine keywordStmt_concludes same rfl ?_ form
    rintro _ ⟨rfl, -⟩
    constructor
    all_goals
      intro other
      rw [other] at found
      cases found

end Rule

/-- What the ends of statements keep: `J` holds of the statements and blocks that were read when
a statement is complete. -/
structure Settling (I : Mark → Parser → Prop) (E : Diagnostic → Parser → Prop)
    (J : List Node → Parser → Prop) : Prop where
  whole : ∀ {m : Mark} {p : Parser} {s : Stmt}, s.isIncomplete = false → I m p →
    J (.stmt s :: m.nodes) p
  broken : ∀ {d : Diagnostic} {p : Parser} {s : Stmt}, E d p → J [.stmt s] (p.record d)
  skip : ∀ {ns : List Node} {p : Parser}, p.peek.kind = .semicolon → J ns p → J ns p.advance

section Statements

variable {I : Mark → Parser → Prop} {E : Diagnostic → Parser → Prop} {J : List Node → Parser → Prop}
  {f : Token → Token} {inner : Inner}

theorem Settling.plainEnd (settling : Settling I E J) {ns : List Node} {s : Stmt} {p : Parser}
    (h : J ns p) : ∃ q, Rule.plainEnd s p = .ok s q ∧ J ns q := by
  by_cases found : p.peek.kind = .semicolon
  · have run : Rule.skipSemicolon p = .ok () p.advance := if_pos found
    exact ⟨p.advance, Rule.bind_of_ok run, settling.skip found h⟩
  · have run : Rule.skipSemicolon p = .ok () p := if_neg found
    exact ⟨p, Rule.bind_of_ok run, h⟩

theorem Invariant.concludes (inv : Invariant I E) (settling : Settling I E J)
    (inside : inner.Meets I E) {m : Mark} {x y : Rule Stmt} (h : Rule.Concludes f inner inner m x y)
    (p : Parser) (start : I m p) :
    match x p with
    | .ok s q => J (wholes s.nodes) q
    | .error d q => E d q := by
  induction h generalizing p with
  | bind first _ next =>
    have done := inv.composed inside first p start
    split at done
    · next run => exact Rule.bind_of_ok run ▸ next _ _ done
    · next run => exact Rule.bind_of_error run ▸ done
  | @value m form form' same complete nodes fresh paid =>
    have done := inside.expr .lowest m paid p start
    -- Whatever has become of the value, what is left is the plain end of the statement.
    have ends (v : Option Expr) {q : Parser} (read : Rule.value inner p = .ok v q)
        (settled : J (.stmt (form v) :: wholes (valueNodes v)) q) :
        match Rule.valueEnd inner form p with
        | .ok s q => J (wholes s.nodes) q
        | .error d q => E d q := by
      obtain ⟨r, run, last⟩ := settling.plainEnd (s := form v) settled
      have whole : Rule.valueEnd inner form p = .ok (form v) r := (Rule.bind_of_ok read).trans run
      rw [whole]
      change J (wholes (form v).nodes) r
      rwa [nodes]
    cases run : inner.expr .lowest p with
    | ok e q =>
      rw [run] at done
      have settled : J (.stmt (form (some e)) :: (m.nodes ++ wholes e.nodes)) q :=
        settling.whole (complete e) done
      rw [fresh, List.nil_append] at settled
      exact ends (some e) (by rw [Rule.value, Rule.optional, run]) settled
    | error d q =>
      rw [run] at done
      exact ends none (by rw [Rule.value, Rule.optional, run]) (settling.broken done)
  | @plain m s t same complete nodes =>
    obtain ⟨q, run, settled⟩ := settling.plainEnd (s := s) (settling.whole complete start)
    rw [run]
    change J (wholes s.nodes) q
    rwa [nodes]

end Statements

section Keeps

variable {R : Parser → Parser → Prop} {inner : Inner}

namespace Rule.Keeps

theorem of_concludes (frame : Frame R) (kept : inner.Keeps R) {f : Token → Token} {m : Mark}
    {x y : Rule Stmt} (h : Concludes f inner inner m x y) : Keeps R x := by
  intro p
  have settling : Settling (fun _ q => R p q) (fun _ q => R p q) fun _ q => R p q :=
    { whole := fun _ h => h
      broken := fun h => frame.trans h (frame.record _ _)
      skip := fun _ h => frame.trans h (frame.advance _) }
  have whole := (frame.invariant p).concludes settling (kept.meets frame p) h p (frame.refl p)
  cases run : x p with
  | ok s q =>
    rw [run] at whole
    exact final_of_ok run ▸ whole
  | error d q =>
    rw [run] at whole
    exact final_of_error run ▸ whole

end Rule.Keeps

theorem Inner.Keeps.exhausted (frame : Frame R) : Inner.exhausted.Keeps R :=
  ⟨fun _ => .fail frame _, .fail frame _⟩

namespace Rule.Keeps

section

variable (frame : Frame R)
include frame

theorem moreParameters (n : Nat) : Keeps R (moreParameters n) :=
  (Composed.moreParameters (m := inStmt) .id (fun _ here => here) n).keeps frame
    (.exhausted frame)

theorem parameters : Keeps R parameters :=
  (Composed.parameters (m := inStmt) .id fun _ here => here).keeps frame (.exhausted frame)

variable (kept : inner.Keeps R)
include kept

theorem condition : Keeps R (condition inner) :=
  (Composed.condition (f := id) (m := inStmt) fun _ here => here).keeps frame kept

theorem bracedBlock : Keeps R (bracedBlock inner) :=
  (Composed.bracedBlock (f := id) (m := inStmt) fun _ here => here).keeps frame kept

theorem alternative : Keeps R (alternative inner) :=
  (Composed.alternative (f := id) (m := inStmt) fun _ here => here).keeps frame kept

theorem operand (form : OperandForm) : Keeps R (operand inner form) :=
  (Composed.operand (m := inStmt.known (·.kind.operandForm? = some form)) .id form
    fun _ begins => begins).keeps frame kept

theorem firstOperand : Keeps R (firstOperand inner) :=
  (Composed.firstOperand (m := inStmt) .id).keeps frame kept

theorem moreArguments (n : Nat) : Keeps R (moreArguments inner n) :=
  (Composed.moreArguments (f := id) (m := inStmt) (fun _ here => here) n).keeps frame kept

theorem operator (left : Expr) (form : OperatorForm) : Keeps R (operator inner left form) :=
  (Composed.operator (m := inStmt) .id (fun _ here => here) left form).keeps frame kept

theorem operators (limit : Precedence) (n : Nat) (left : Expr) :
    Keeps R (operators inner limit n left) :=
  (Composed.operators (m := inStmt) .id limit n left).keeps frame kept

theorem expression (limit : Precedence) : Keeps R (expression inner limit) :=
  (Composed.expression (m := inStmt) .id limit).keeps frame kept

theorem value : Keeps R (value inner) := .optional frame (kept.expr _)

theorem expressionStmt : Keeps R (expressionStmt inner) :=
  .of_concludes frame kept (expressionStmt_concludes (f := id) (m := inStmt) rfl trivial)

theorem keywordStmt (form : StmtForm) : Keeps R (keywordStmt inner form) :=
  .of_concludes frame kept
    (keywordStmt_concludes (m := inStmt) .id rfl (fun _ here => here) form)

theorem stmt : Keeps R (stmt inner) := .of_concludes frame kept (stmt_concludes .id)

end

end Rule.Keeps

theorem Rule.stmtsUntil_keeps (frame : Frame R) (kept : inner.Keeps R) (close : Kind) (n : Nat)
    (p : Parser) : R p (stmtsUntil inner close n p).2 := by
  have stmt := Keeps.stmt frame kept
  refine stmtsUntil_of_round (K := R p) (fun {_ q _} start run => ?_) (fun {_ q d} start run => ?_)
    close n (frame.refl p)
  · exact frame.trans (frame.trans start (stmt.ok run)) (frame.advance q)
  · exact frame.trans (frame.trans start (stmt.error run))
      (frame.trans (frame.record q d) (frame.advance _))

theorem Rule.Keeps.bracedStmts (frame : Frame R) (kept : inner.Keeps R) :
    Keeps R (bracedStmts inner) := by
  refine .bind frame (.current frame) fun _ => .bind frame (.advance frame) fun _ =>
    .bind frame (fun p => stmtsUntil_keeps frame kept .rbrace p.remaining p) fun _ =>
      .bind frame (.current frame) fun closing => ?_
  split
  · exact .pure frame _
  · exact .fail frame _

theorem Inner.Keeps.above (frame : Frame R) (kept : inner.Keeps R) : inner.above.Keeps R :=
  ⟨fun _ => .nested frame (.expression frame kept _), .nested frame (.bracedStmts frame kept)⟩

theorem Inner.Keeps.levels (frame : Frame R) (n : Nat) : (Inner.levels n).Keeps R := by
  induction n with
  | zero => exact .exhausted frame
  | succ n ih => exact ih.above frame

end Keeps

end ScriptFront
