import ScriptFront.Proofs.Remainder
import ScriptFront.Proofs.Scan

/-! What can be asked of a parser, in any order and on any token. However it was used, a
parser stands somewhere in the tokens of its source: the current token, the next one and
all that the lexer still gives are consecutive. No operation goes back, forgets a
diagnostic or changes the depth, whether it succeeds or fails.

Levels that are open only in the meantime are observed by a probe. It may change any
parser it sees, and it sees each one right after a level is opened and right before a level
is closed, the only moments at which the depth changes. A probe that leaves alone
parsers of depth 1 to 256 has no effect on an operation, so other depths do not occur. -/

namespace ScriptFront

variable {α β : Type}

inductive Operation : Type → Type 1 where
  | advance : Operation Unit
  | expectPeek (kind : Kind) : Operation Unit
  | record (d : Diagnostic) : Operation Unit
  | program : Operation Program
  | stmtsUntil (close : Kind) : Operation (List Stmt)
  | stmt : Operation Stmt
  | expressionStmt : Operation Stmt
  | keywordStmt (form : StmtForm) : Operation Stmt
  | block : Operation Block
  | expr (limit : Precedence) : Operation Expr
  | operand (form : OperandForm) : Operation Expr
  | operator (left : Expr) (form : OperatorForm) : Operation Expr
  | nested {α : Type} (op : Operation α) : Operation α

namespace Operation

/-- Carries out an operation, given the rules for each number of levels that may be left and
the way to run a rule one level deeper. -/
def rule (levels : Nat → Inner) (deeper : {β : Type} → Rule β → Rule β) :
    {α : Type} → Operation α → Rule α
  | _, advance => Rule.advance
  | _, expectPeek kind => Rule.expectPeek kind
  | _, record d => fun p => .ok () (p.record d)
  | _, program => fun p =>
    let (statements, q) := Rule.stmtsUntil (levels (maxDepth - p.depth)) .eof p.remaining p
    .ok ⟨statements⟩ (q.note (.parsed statements.length q.errors.size))
  | _, stmtsUntil close => fun p =>
    let (statements, q) := Rule.stmtsUntil (levels (maxDepth - p.depth)) close p.remaining p
    .ok statements q
  | _, stmt => fun p => Rule.stmt (levels (maxDepth - p.depth)) p
  | _, expressionStmt => fun p => Rule.expressionStmt (levels (maxDepth - p.depth)) p
  | _, keywordStmt form => fun p => Rule.keywordStmt (levels (maxDepth - p.depth)) form p
  | _, block => fun p => (levels (maxDepth - p.depth)).block p
  | _, expr limit => fun p => (levels (maxDepth - p.depth)).expr limit p
  | _, operand form => fun p => Rule.operand (levels (maxDepth - p.depth)) form p
  | _, operator left form => fun p => Rule.operator (levels (maxDepth - p.depth)) left form p
  | _, nested op => deeper (op.rule levels deeper)

def run (op : Operation α) : Rule α := op.rule Inner.levels Rule.nested

example : program.run = modifyGet Parser.program := rfl

example : stmt.run = Rule.within Rule.stmt := rfl

theorem run_keeps (op : Operation α) : op.run.Keeps Parser.Extends := by
  have frame := Parser.extends_frame
  have kept (p : Parser) : p.inner.Keeps Parser.Extends := .levels frame _
  induction op with
  | advance => exact .advance frame
  | expectPeek kind => exact .expectPeek frame kind
  | record d => exact fun p => frame.record p d
  | program =>
    intro p
    have reach := Rule.stmtsUntil_keeps frame (kept p) .eof p.remaining p
    exact ⟨reach.body, reach.last, reach.depth, reach.errors⟩
  | stmtsUntil close => exact fun p => Rule.stmtsUntil_keeps frame (kept p) close p.remaining p
  | stmt => exact fun p => Rule.Keeps.stmt frame (kept p) p
  | expressionStmt => exact fun p => Rule.Keeps.expressionStmt frame (kept p) p
  | keywordStmt form => exact fun p => Rule.Keeps.keywordStmt frame (kept p) form p
  | block => exact fun p => (kept p).block p
  | expr limit => exact fun p => (kept p).expr limit p
  | operand form => exact fun p => Rule.Keeps.operand frame (kept p) form p
  | operator left form => exact fun p => Rule.Keeps.operator frame (kept p) left form p
  | nested op ih => exact .nested frame ih

end Operation

def Rule.probed (probe : Parser → Parser) (rule : Rule α) : Rule α := fun p =>
  match rule (probe p) with
  | .ok a q => .ok a (probe q)
  | .error d q => .error d (probe q)

def Inner.probed (probe : Parser → Parser) : Nat → Inner
  | 0 => exhausted
  | n + 1 =>
    ⟨fun limit => Rule.nested (Rule.probed probe (Rule.expression (Inner.probed probe n) limit)),
      Rule.nested (Rule.probed probe (Rule.bracedStmts (Inner.probed probe n)))⟩

def Operation.probed (probe : Parser → Parser) (op : Operation α) : Rule α :=
  op.rule (Inner.probed probe) fun rule => Rule.nested (Rule.probed probe rule)

section Probe

variable {probe : Parser → Parser}
  (quiet : ∀ p : Parser, 1 ≤ p.depth → p.depth ≤ maxDepth → probe p = p)
include quiet

/-- The guard of a level keeps what the probe sees first in range, and the rule inside hands
back the depth it was given. -/
theorem Rule.nested_probed {rule : Rule α} (kept : rule.Keeps Parser.Extends) :
    nested (probed probe rule) = nested rule := by
  funext p
  unfold nested
  by_cases room : p.depth < maxDepth
  · have opened : probe { p with depth := p.depth + 1 } = { p with depth := p.depth + 1 } :=
      quiet _ (Nat.le_add_left 1 _) room
    have closing : ∀ {q : Parser}, q.depth = p.depth + 1 → probe q = q := fun {q} deep =>
      quiet q (deep ▸ Nat.le_add_left 1 _) (deep ▸ room)
    rw [if_pos room, if_pos room]
    simp only [probed, opened]
    cases run : rule { p with depth := p.depth + 1 } with
    | ok a q => simp only [closing (kept.ok run).depth]
    | error d q => simp only [closing (kept.error run).depth]
  · rw [if_neg room, if_neg room]

theorem Inner.probed_eq_levels (n : Nat) : Inner.probed probe n = Inner.levels n := by
  induction n with
  | zero => rfl
  | succ n ih =>
    have frame := Parser.extends_frame
    have kept : (Inner.levels n).Keeps Parser.Extends := .levels frame n
    have expr (limit : Precedence) := Rule.nested_probed quiet (.expression frame kept limit)
    have block := Rule.nested_probed quiet (.bracedStmts frame kept)
    simp only [Inner.probed, Inner.levels, Inner.above, ih, expr, block]

theorem Operation.probed_eq_run (op : Operation α) : op.probed probe = op.run := by
  have levels : Inner.probed probe = Inner.levels := funext (Inner.probed_eq_levels quiet)
  unfold Operation.probed
  rw [levels]
  induction op with
  | nested op ih =>
    change Rule.nested (Rule.probed probe (op.rule _ _)) = Rule.nested op.run
    rw [ih, Rule.nested_probed quiet op.run_keeps]
  | _ => rfl

end Probe

namespace Lexer

def after (l : Lexer) : Nat → Lexer
  | 0 => l
  | n + 1 => l.next.2.after n

theorem after_add (l : Lexer) (m n : Nat) : l.after (m + n) = (l.after m).after n := by
  induction m generalizing l with
  | zero => rw [Nat.zero_add]; rfl
  | succ m ih =>
    rw [Nat.add_right_comm]
    exact ih l.next.2

theorem stream_get_zero (l : Lexer) : l.stream.get 0 = l.next.1 := by
  by_cases blank : l.skipBlanks.rest = []
  · rw [l.stream_of_blank blank]
    rfl
  · rw [l.stream_of_text blank]
    rfl

theorem next_next_of_blank (l : Lexer) (blank : l.skipBlanks.rest = []) :
    l.next.2.next.1 = l.next.1 ∧ l.next.2.skipBlanks.rest = [] := by
  have literal : (lexeme l.skipBlanks.rest).2 = [] := by rw [blank]; rfl
  have after : l.next.2 = ⟨l.file, [], l.skipBlanks.offset⟩ := by
    change Lexer.mk l.file (l.skipBlanks.rest.drop (lexeme l.skipBlanks.rest).2.length)
      (l.skipBlanks.offset + (lexeme l.skipBlanks.rest).2.length) = _
    rw [literal, blank]
    rfl
  rw [after]
  refine ⟨?_, rfl⟩
  change Token.mk _ _ (Span.between _ _ _) = Token.mk (lexeme l.skipBlanks.rest).1
    (String.ofList (lexeme l.skipBlanks.rest).2) (Span.between l.skipBlanks.offset
      (l.skipBlanks.offset + (lexeme l.skipBlanks.rest).2.length) l.file)
  rw [blank]
  rfl

theorem stream_rest (l : Lexer) : l.stream.rest = l.next.2.stream := by
  by_cases blank : l.skipBlanks.rest = []
  · obtain ⟨same, still⟩ := l.next_next_of_blank blank
    rw [l.stream_of_blank blank, l.next.2.stream_of_blank still, same]
    rfl
  · rw [l.stream_of_text blank]
    rfl

theorem stream_get_after (l : Lexer) (n : Nat) : l.stream.get n = (l.after n).next.1 := by
  induction n generalizing l with
  | zero => exact l.stream_get_zero
  | succ n ih =>
    rw [← TokenStream.get_rest, stream_rest]
    exact ih l.next.2

end Lexer

def tokenAt? (source : String) (file : Option String) (k : Nat) : Option Token :=
  (tokenize source file)[min k ((tokenize source file).length - 1)]?

namespace Parser

/-- The current token is number `k` of the source, the next token the one after it, and what
the lexer gives from then on are the tokens behind both. -/
structure StandsAt (source : String) (file : Option String) (k : Nat) (p : Parser) : Prop where
  current : tokenAt? source file k = some p.current
  peek : tokenAt? source file (k + 1) = some p.peek
  unread : ∀ i, tokenAt? source file (k + 2 + i) = some (p.input.get (2 + i))
  lexer : ∀ i, (((Lexer.ofSource source file).after (k + 2)).after i).next.1 = p.input.get (2 + i)

theorem standsAt_iff {source : String} {file : Option String} {k : Nat} {p : Parser} :
    p.StandsAt source file k ↔
      ∀ i, p.input.get i = (Lexer.ofSource source file).stream.get (k + i) := by
  have listed := (Lexer.ofSource source file).stream.toList_getElem?
  constructor
  · intro stands i
    rcases i with _ | _ | i
    · exact Option.some.inj (stands.current.symm.trans (listed k))
    · exact Option.some.inj (stands.peek.symm.trans (listed (k + 1)))
    · have := Option.some.inj ((stands.unread i).symm.trans (listed (k + 2 + i)))
      rw [Nat.add_comm 2 i, Nat.add_assoc k 2 i, Nat.add_comm 2 i] at this
      exact this
  · intro same
    refine ⟨?_, ?_, fun i => ?_, fun i => ?_⟩
    · rw [Parser.current, same]
      exact listed k
    · rw [Parser.peek, same]
      exact listed (k + 1)
    · rw [same, ← Nat.add_assoc]
      exact listed (k + 2 + i)
    · rw [same, Lexer.stream_get_after, ← Nat.add_assoc, Lexer.after_add _ (k + 2) i]

theorem ofSource_standsAt (source : String) (file : Option String) :
    (ofSource source file).StandsAt source file 0 := by
  refine standsAt_iff.2 fun i => ?_
  rw [Nat.zero_add]
  rfl

theorem Extends.exists_shift {p q : Parser} (h : p.Extends q) :
    ∃ j, ∀ i, q.input.get i = p.input.get (j + i) := by
  obtain ⟨passed, body⟩ := h.body
  refine ⟨passed.length, fun i => ?_⟩
  rw [TokenStream.get, TokenStream.get, ← body, h.last, List.getD_append_right _ _ _ _
    (Nat.le_add_right _ _), Nat.add_sub_cancel_left]

theorem Extends.standsAt {source : String} {file : Option String} {k : Nat} {p q : Parser}
    (h : p.Extends q) (stands : p.StandsAt source file k) :
    ∃ k' ≥ k, q.StandsAt source file k' := by
  obtain ⟨j, shift⟩ := h.exists_shift
  refine ⟨k + j, Nat.le_add_right k j, standsAt_iff.2 fun i => ?_⟩
  rw [shift, standsAt_iff.1 stands, Nat.add_assoc]

/-- The parsers of a source after any operations. -/
inductive Reachable (source : String) (file : Option String) : Parser → Prop where
  | start : Reachable source file (Parser.ofSource source file)
  | step {α : Type} {p : Parser} (reach : Reachable source file p) (op : Operation α) :
      Reachable source file (op.run.final p)

theorem Reachable.exists_standsAt {source : String} {file : Option String} {p : Parser}
    (reach : Reachable source file p) : ∃ k, p.StandsAt source file k := by
  induction reach with
  | start => exact ⟨0, ofSource_standsAt source file⟩
  | @step α p _ op ih =>
    obtain ⟨k, stands⟩ := ih
    obtain ⟨k', -, moved⟩ := (op.run_keeps p).standsAt stands
    exact ⟨k', moved⟩

end Parser

/-- After any operations the parser stands somewhere in its tokens. Every further one keeps
the depth, never goes back, only appends diagnostics, and has depths from 1 to 256 in the
levels it opens. -/
theorem reachable_operation {source : String} {file : Option String} {p : Parser}
    (reach : Parser.Reachable source file p) :
    (∃ k, p.StandsAt source file k) ∧
      ∀ {α : Type} (op : Operation α),
        (∀ k, p.StandsAt source file k → ∃ k' ≥ k, (op.run.final p).StandsAt source file k') ∧
        (op.run.final p).depth = p.depth ∧
        p.errors.toList <+: (op.run.final p).errors.toList ∧
        ∀ probe : Parser → Parser, (∀ q : Parser, 1 ≤ q.depth → q.depth ≤ 256 → probe q = q) →
          op.probed probe p = op.run p := by
  refine ⟨reach.exists_standsAt, fun op => ?_⟩
  have kept := op.run_keeps p
  refine ⟨fun k stands => kept.standsAt stands, kept.depth, kept.errors, fun probe quiet => ?_⟩
  rw [Operation.probed_eq_run quiet op]

theorem reachable_operation_broken :
    (∃ k, ((Operation.nested (.expr .lowest)).run.final
      (Parser.ofSource "(a+;b" none)).StandsAt "(a+;b" none k) ∧
    ((Operation.stmtsUntil .rbrace).run.final ((Operation.nested (.expr .lowest)).run.final
      (Parser.ofSource "(a+;b" none))).depth = 0 := by
  have reach : Parser.Reachable "(a+;b" none ((Operation.nested (.expr .lowest)).run.final
      (Parser.ofSource "(a+;b" none)) := .step .start _
  have facts := reachable_operation reach
  refine ⟨facts.1, ?_⟩
  rw [(facts.2 (.stmtsUntil .rbrace)).2.1]
  decide +kernel

end ScriptFront
