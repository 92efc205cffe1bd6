import ScriptFront.Proofs.Remainder
import ScriptFront.Proofs.Renaming

/-! The same input at another place. A relocation gives tokens other spans and lets the
reading start after diagnostics that were found before. It commutes with every rule of
the grammar, so a tree and its diagnostics depend on the kinds and literals of the tokens
alone; positions are only carried along. -/

namespace ScriptFront

structure Relocation where
  token : Token → Token
  position : Position → Position
  errors : Array Diagnostic
  journal : Journal
  kind_token : ∀ t, (token t).kind = t.kind
  literal_token : ∀ t, (token t).literal = t.literal
  position_token : ∀ t, (token t).position = position t.position

namespace Relocation

variable (m : Relocation)

def diagnostic (d : Diagnostic) : Diagnostic := { d with position := m.position d.position }

def event : Event → Event
  | .scanned token => .scanned (m.token token)
  | .recorded d => .recorded (m.diagnostic d)
  | other => other

def stream (s : TokenStream) : TokenStream := ⟨s.body.map m.token, m.token s.last⟩

def parser (p : Parser) : Parser where
  input := m.stream p.input
  errors := m.errors ++ p.errors.map m.diagnostic
  depth := p.depth
  journal := m.journal ++ p.journal.map m.event

def expr : Expr → Expr := Expr.mapTokens m.token m.token

def block : Block → Block := Block.mapTokens m.token m.token

def stmt : Stmt → Stmt := Stmt.mapTokens m.token m.token

theorem renames : Renames m.token := ⟨m.kind_token, m.literal_token⟩

theorem stream_get (s : TokenStream) (i : Nat) : (m.stream s).get i = m.token (s.get i) := by
  simp only [stream, TokenStream.get, List.getD_eq_getElem?_getD, List.getElem?_map]
  cases s.body[i]? <;> rfl

theorem parser_current (p : Parser) : (m.parser p).current = m.token p.current := m.stream_get _ 0

theorem parser_peek (p : Parser) : (m.parser p).peek = m.token p.peek := m.stream_get _ 1

theorem parser_remaining (p : Parser) : (m.parser p).remaining = p.remaining := by
  simp [Parser.remaining, parser, stream]

theorem parser_note (p : Parser) (e : Event) :
    m.parser (p.note e) = (m.parser p).note (m.event e) := by
  simp [parser, Parser.note]

theorem parser_advance (p : Parser) : m.parser p.advance = (m.parser p).advance := by
  have next : (m.parser p).input.get 2 = m.token (p.input.get 2) := m.stream_get _ 2
  rw [Parser.advance, Parser.advance, parser_note, next]
  simp [parser, stream, TokenStream.rest, event]

theorem parser_record (p : Parser) (d : Diagnostic) :
    m.parser (p.record d) = (m.parser p).record (m.diagnostic d) := by
  rw [Parser.record, Parser.record, parser_note]
  simp [parser, event]

variable {α β γ δ : Type}

def result (f : α → β) : EStateM.Result Diagnostic Parser α → EStateM.Result Diagnostic Parser β
  | .ok a q => .ok (f a) (m.parser q)
  | .error d q => .error (m.diagnostic d) (m.parser q)

/-- On a relocated parser `y` does what `x` does on the parser itself. -/
def Moves (f : α → β) (x : Rule α) (y : Rule β) : Prop := ∀ p, y (m.parser p) = m.result f (x p)

structure MovesInner (inner : Inner) : Prop where
  expr : ∀ limit, m.Moves m.expr (inner.expr limit) (inner.expr limit)
  block : m.Moves m.block inner.block inner.block

namespace Moves

variable {m}

theorem pure {f : α → β} {a : α} {b : β} (h : b = f a) :
    m.Moves f (Pure.pure a : Rule α) (Pure.pure b : Rule β) := by
  intro p
  rw [h]
  rfl

theorem bind {f : α → β} {g : γ → δ} {x : Rule α} {y : Rule β} {h : α → Rule γ} {k : β → Rule δ}
    (first : m.Moves f x y) (next : ∀ a, m.Moves g (h a) (k (f a))) :
    m.Moves g (x >>= h) (y >>= k) := by
  intro p
  have moved := first p
  cases run : x p with
  | ok a q =>
    rw [run] at moved
    rw [Rule.bind_of_ok moved, Rule.bind_of_ok run, next a q]
  | error d q =>
    rw [run] at moved
    rw [Rule.bind_of_error moved, Rule.bind_of_error run]
    rfl

theorem current : m.Moves m.token Rule.current Rule.current := fun p =>
  congrArg (EStateM.Result.ok · _) (m.parser_current p)

theorem remaining : m.Moves id Rule.remaining Rule.remaining := fun p =>
  congrArg (EStateM.Result.ok · _) (m.parser_remaining p)

theorem advance : m.Moves id Rule.advance Rule.advance := fun p =>
  congrArg (EStateM.Result.ok ()) (m.parser_advance p).symm

theorem fail {f : α → β} (cause : Cause) : m.Moves f (Rule.fail cause) (Rule.fail cause) := by
  intro p
  simp only [Rule.fail, m.parser_current, m.position_token]
  rfl

theorem expectPeek (expected : Kind) :
    m.Moves id (Rule.expectPeek expected) (Rule.expectPeek expected) := by
  intro p
  simp only [Rule.expectPeek, m.parser_peek, m.kind_token, m.position_token]
  split
  · rw [← m.parser_advance]
    rfl
  · rfl

theorem ahead {ι : Type} {select : Kind → Option ι} {f : α → β} {x : ι → Rule α} {y : ι → Rule β}
    {x' : Rule α} {y' : Rule β} (found : ∀ i, m.Moves f (x i) (y i)) (missing : m.Moves f x' y') :
    m.Moves f (Rule.ahead select x x') (Rule.ahead select y y') := by
  intro p
  simp only [Rule.ahead, m.parser_peek, m.kind_token]
  cases select p.peek.kind with
  | none => exact missing p
  | some i =>
    dsimp only
    rw [← m.parser_advance]
    exact found i p.advance

theorem skipSemicolon : m.Moves id Rule.skipSemicolon Rule.skipSemicolon := by
  intro p
  simp only [Rule.skipSemicolon, m.parser_peek, m.kind_token]
  split
  · rw [← m.parser_advance]
    rfl
  · rfl

theorem nested {f : α → β} {x : Rule α} {y : Rule β} (h : m.Moves f x y) :
    m.Moves f (Rule.nested x) (Rule.nested y) := by
  intro p
  have deeper := h { p with depth := p.depth + 1 }
  change y { m.parser p with depth := p.depth + 1 } = _ at deeper
  unfold Rule.nested
  change (if p.depth < maxDepth then _ else _) = _
  by_cases room : p.depth < maxDepth
  · rw [if_pos room, if_pos room]
    change (match y { m.parser p with depth := p.depth + 1 } with
      | .ok a q => _
      | .error d q => _) = _
    rw [deeper]
    cases x { p with depth := p.depth + 1 } <;> rfl
  · rw [if_neg room, if_neg room]
    exact fail _ p

theorem optional {f : α → β} {x : Rule α} {y : Rule β} (h : m.Moves f x y) :
    m.Moves (Option.map f) (Rule.optional x) (Rule.optional y) := by
  intro p
  simp only [Rule.optional, h p]
  cases x p with
  | ok a q => rfl
  | error d q => exact congrArg (EStateM.Result.ok none) (m.parser_record q d).symm

variable {inner : Inner}

theorem value (h : m.MovesInner inner) :
    m.Moves (mapValue m.token m.token) (Rule.value inner) (Rule.value inner) := by
  have same : mapValue m.token m.token = Option.map m.expr := by
    funext v
    cases v <;> rfl
  rw [same]
  exact optional (h.expr _)

theorem of_composed {f : α → α} {k : Mark} {x y : Rule α} {Q : α → Mark}
    (composed : Rule.Composed m.token inner inner f k x y Q) (h : m.MovesInner inner) :
    m.Moves f x y := by
  induction composed with
  | pure same _ => exact pure same
  | bind _ _ first next => exact bind first next
  | weaken _ _ _ rest => exact rest
  | current => exact current
  | advance _ => exact advance
  | expectPeek _ _ => exact expectPeek _
  | fail _ => exact fail _
  | ahead _ _ _ _ found missing => exact ahead found missing
  | bounded _ _ all => exact bind remaining all
  | expr _ => exact h.expr _
  | block _ _ => exact h.block

theorem of_concludes {k : Mark} {x y : Rule Stmt}
    (concludes : Rule.Concludes m.token inner inner k x y)
    (h : m.MovesInner inner) : m.Moves m.stmt x y := by
  induction concludes with
  | bind first _ next => exact bind (of_composed first h) next
  | value same => exact bind (value h) fun v => bind skipSemicolon fun _ => pure (same v)
  | plain same => exact bind skipSemicolon fun _ => pure same

theorem expression (h : m.MovesInner inner) (limit : Precedence) :
    m.Moves m.expr (Rule.expression inner limit) (Rule.expression inner limit) :=
  of_composed (.expression (m := Rule.inStmt) m.renames limit) h

theorem stmt (h : m.MovesInner inner) : m.Moves m.stmt (Rule.stmt inner) (Rule.stmt inner) :=
  of_concludes (Rule.stmt_concludes m.renames) h

end Moves

theorem stmtsUntil {inner : Inner} (h : m.MovesInner inner) (close : Kind) (n : Nat) (p : Parser) :
    Rule.stmtsUntil inner close n (m.parser p) =
      (mapStatements m.token m.token (Rule.stmtsUntil inner close n p).1,
        m.parser (Rule.stmtsUntil inner close n p).2) := by
  induction n generalizing p with
  | zero => rfl
  | succ n ih =>
    have moved := Moves.stmt h p
    rw [Rule.stmtsUntil, Rule.stmtsUntil, m.parser_current, m.kind_token]
    split
    · rfl
    · cases run : Rule.stmt inner p with
      | ok s q =>
        rw [run] at moved
        simp only [moved, result, ← m.parser_advance, ih]
        rfl
      | error d q =>
        rw [run] at moved
        simp only [moved, result, ← m.parser_record, ← m.parser_advance, ih]

theorem Moves.bracedStmts {inner : Inner} (h : m.MovesInner inner) :
    m.Moves m.block (Rule.bracedStmts inner) (Rule.bracedStmts inner) := by
  refine bind current fun t => bind advance fun _ => ?_
  refine bind (f := mapStatements m.token m.token) (fun p => ?_) fun body =>
    bind current fun c => ?_
  · change EStateM.Result.ok _ _ = EStateM.Result.ok _ _
    rw [m.parser_remaining, m.stmtsUntil h]
  · rw [m.kind_token]
    split
    · exact pure rfl
    · exact fail _

theorem movesInner_levels (n : Nat) : m.MovesInner (Inner.levels n) := by
  induction n with
  | zero => exact ⟨fun _ => .fail _, .fail _⟩
  | succ n ih => exact ⟨fun limit => .nested (.expression ih limit), .nested (.bracedStmts m ih)⟩

theorem parser_stmtsUntil (p : Parser) (close : Kind) :
    (m.parser p).stmtsUntil close =
      (mapStatements m.token m.token (p.stmtsUntil close).1, m.parser (p.stmtsUntil close).2) := by
  rw [Parser.stmtsUntil, parser_remaining]
  exact m.stmtsUntil (m.movesInner_levels (maxDepth - p.depth)) close p.remaining p

theorem program_fst (p : Parser) :
    (m.parser p).program.1 = p.program.1.mapTokens m.token m.token := by
  have moved := congrArg Prod.fst (m.parser_stmtsUntil p .eof)
  rw [mapStatements_eq_map] at moved
  exact congrArg Program.mk moved

theorem program_errors (p : Parser) :
    (m.parser p).program.2.errors = m.errors ++ p.program.2.errors.map m.diagnostic :=
  congrArg (·.2.errors) (m.parser_stmtsUntil p .eof)

end Relocation

end ScriptFront
