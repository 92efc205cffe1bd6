import ScriptFront.Proofs.Remainder
import ScriptFront.Proofs.Scan

/-! Accounts of a run. An account is a relation between an earlier parser, a later one and
the statements and blocks that are read in between. Stretches of a run add up, and a ledger
says what a statement may enter in the account of its list and what a list may enter as a
block one level further out. Then every expression is in the account of its level and every
list of statements in that of its list, whether anything was wrong or not. A rule that fails
has read no nodes; what it passed over stays on the account. -/

namespace ScriptFront

variable {α : Type}

abbrev Account := Parser → Parser → List Node → Prop

/-- An account that goes on over whole expressions. A token may be passed over as long as
there is one. -/
structure Account.Additive (R : Account) : Prop where
  reach : ∀ {p q ns}, R p q ns → p.Extends q
  refl : ∀ p, R p p []
  trans : ∀ {p q r ns ms}, R p q ns → R q r ms → R p r (ns ++ ms)
  advance : ∀ {p : Parser}, 1 ≤ p.remaining → R p p.advance []
  abandon : ∀ {p q ns}, R p q ns → R p q []
  nested : ∀ {p q : Parser} {ns}, R { p with depth := p.depth + 1 } q ns →
    R p { q with depth := q.depth - 1 } ns

/-- Accounts for the levels of the grammar: `R n` for an expression with `n` further levels
inside and `L n` for a list of statements with such expressions. A statement is entered
together with the token that is passed over after it. -/
structure Ledger (R L : Nat → Account) : Prop where
  additive : ∀ n, (R n).Additive
  deeper : ∀ {n p q ns}, R n p q ns → R (n + 1) p q ns
  reach : ∀ {n p q ns}, L n p q ns → p.Extends q
  refl : ∀ n p, L n p p []
  trans : ∀ {n p q r ns ms}, L n p q ns → L n q r ms → L n p r (ns ++ ms)
  whole : ∀ {n p q s ns}, 1 ≤ p.remaining → R n p q ns → s.isIncomplete = false →
    L n p q.advance (.stmt s :: ns)
  broken : ∀ {n p q d s ns}, 1 ≤ p.remaining → R n p q ns →
    L n p (q.record d).advance (.stmt s :: ns)
  failed : ∀ {n p q d}, 1 ≤ p.remaining → R n p q [] → L n p (q.record d).advance []
  skip : ∀ {n} {p q : Parser} {ns}, 2 ≤ q.remaining → L n p q.advance ns →
    L n p q.advance.advance ns
  block : ∀ {n} {p q : Parser} {b ns}, 1 ≤ p.remaining → L n p.advance q ns → 1 ≤ q.remaining →
    R (n + 1) p q (.block b :: ns)
  unclosed : ∀ {n} {p q : Parser} {ns}, 1 ≤ p.remaining → L n p.advance q ns → R (n + 1) p q []

namespace Account

def At (R : Account) (s : Parser) (m : Mark) (p : Parser) : Prop :=
  R s p m.nodes ∧ m.token p.current

def Failed (R : Account) (s : Parser) (_ : Diagnostic) (p : Parser) : Prop := R s p []

/-- Started at `p`, the rule is on the account with the nodes of its value. -/
def Enters (R : Account) (p : Parser) (x : Rule α) (nodes : α → List Node) : Prop :=
  match x p with
  | .ok a q => R p q (wholes (nodes a)) ∧ q.current.Solid
  | .error _ q => R p q []

variable {R : Account}

theorem Additive.invariant (additive : R.Additive) {s : Parser} (ended : s.Ended) :
    Invariant (R.At s) (R.Failed s) where
  entails le start := ⟨le.nodes ▸ start.1, le.token _ start.2⟩
  current start := ⟨start.1, rfl, start.2⟩
  advance {m p _} solid next start := by
    have left := ((additive.reach start.1).ended ended).one_le_remaining (solid _ start.2).1
    have moved := additive.trans start.1 (additive.advance left)
    rw [List.append_nil] at moved
    exact ⟨moved, p.advance_current ▸ next⟩
  unexpected _ _ _ start := additive.abandon start.1
  fail _ start := additive.abandon start.1

theorem Additive.meets (additive : R.Additive) {s : Parser} (ended : s.Ended) {m : Mark}
    {x : Rule α} {nodes : α → List Node}
    (h : ∀ p, p.Ended → m.token p.current → R.Enters p x nodes) :
    Rule.Meets (R.At s) (R.Failed s) m x fun a => m.after (nodes a) := by
  rintro p ⟨start, here⟩
  have own := h p ((additive.reach start).ended ended) here
  rw [Enters] at own
  cases run : x p with
  | ok a q =>
    rw [run] at own
    exact ⟨additive.trans start own.1, own.2⟩
  | error d q =>
    rw [run] at own
    exact additive.abandon (additive.trans start own)

theorem Additive.enters_nested {R' : Account} (additive : R'.Additive)
    (deeper : ∀ {p q ns}, R p q ns → R' p q ns) {x : Rule α} {nodes : α → List Node} {p : Parser}
    (h : R.Enters { p with depth := p.depth + 1 } x nodes) : R'.Enters p (Rule.nested x) nodes := by
  rw [Enters] at h ⊢
  by_cases room : p.depth < maxDepth
  · rw [Rule.nested, if_pos room]
    cases run : x { p with depth := p.depth + 1 } with
    | ok a q =>
      rw [run] at h
      exact ⟨additive.nested (deeper h.1), h.2⟩
    | error d q =>
      rw [run] at h
      exact additive.nested (deeper h)
  · rw [Rule.nested, if_neg room]
    exact additive.refl p

end Account

structure Inner.Enters (R : Account) (inner : Inner) : Prop where
  expr : ∀ limit p, p.Ended → R.Enters p (inner.expr limit) Expr.nodes
  block : ∀ p, p.Ended → p.current.kind = .lbrace → R.Enters p inner.block Block.nodes

namespace Ledger

open Rule

variable {R L : Nat → Account} {n : Nat} {inner : Inner} (ledger : Ledger R L)
include ledger

theorem settling {s : Parser} (ended : s.Ended) (left : 1 ≤ s.remaining) :
    Settling ((R n).At s) ((R n).Failed s) fun ns p => L n s p.advance ns where
  whole complete start := ledger.whole left start.1 complete
  broken failed := ledger.broken left failed
  skip {_ p} found settled := by
    have ended : p.Ended := (ledger.reach settled).ended ended
    exact ledger.skip (ended.two_le_remaining (found ▸ by decide)) settled

variable (h : inner.Enters (R n))
include h

theorem meets {s : Parser} (ended : s.Ended) : inner.Meets ((R n).At s) ((R n).Failed s) :=
  ⟨fun limit _ _ => (ledger.additive n).meets ended fun p ended _ => h.expr limit p ended,
    fun _ _ brace => (ledger.additive n).meets ended fun p ended here =>
      h.block p ended (brace _ here)⟩

theorem expression (limit : Precedence) {p : Parser} (ended : p.Ended) :
    (R n).Enters p (expression inner limit) Expr.nodes := by
  have additive := ledger.additive n
  exact (additive.invariant ended).composed (ledger.meets h ended)
    (.expression (m := atStmt) .id limit) p ⟨additive.refl p, trivial⟩

theorem stmtsUntil (close : Kind) (k : Nat) {p : Parser} (ended : p.Ended) :
    L n p (Rule.stmtsUntil inner close k p).2
      (wholes (statementNodes (Rule.stmtsUntil inner close k p).1)) := by
  induction k generalizing p with
  | zero => exact ledger.refl n p
  | succ k ih =>
    rw [Rule.stmtsUntil]
    split
    · exact ledger.refl n p
    · next running =>
      have left := ended.one_le_remaining fun eof => running (.inr eof)
      have additive := ledger.additive n
      have first := (additive.invariant ended).concludes (ledger.settling ended left)
        (ledger.meets h ended) (stmt_concludes .id) p ⟨additive.refl p, trivial⟩
      cases run : Rule.stmt inner p with
      | ok s q =>
        rw [run] at first
        have whole := ledger.trans first (ih ((ledger.reach first).ended ended))
        rwa [← wholes_append] at whole
      | error d q =>
        rw [run] at first
        have passed := ledger.failed (d := d) left first
        exact ledger.trans passed (ih ((ledger.reach passed).ended ended))

theorem bracedStmts {p : Parser} (ended : p.Ended) (brace : p.current.kind = .lbrace) :
    (R (n + 1)).Enters p (Rule.bracedStmts inner) Block.nodes := by
  have left := ended.one_le_remaining (brace ▸ by decide)
  have body := ledger.stmtsUntil h .rbrace p.advance.remaining ended.advance
  have stop := (ledger.reach body).ended ended.advance
  rw [Account.Enters, bracedStmts_apply, closeBlock, bind_current]
  by_cases closed : (stmtsLeft inner .rbrace p.advance).2.current.kind = .rbrace
  · rw [if_pos closed]
    have last := stop.one_le_remaining fun eof => absurd (closed.symm.trans eof) (by decide)
    exact ⟨ledger.block left body last, Token.solid_of_kind closed (by decide)⟩
  · rw [if_neg closed]
    exact ledger.unclosed left body

omit h in
theorem levels (n : Nat) : (Inner.levels n).Enters (R n) := by
  induction n with
  | zero =>
    have refused (p : Parser) : R 0 p p [] := (ledger.additive 0).refl p
    exact ⟨fun _ p _ => refused p, fun p _ _ => refused p⟩
  | succ n ih =>
    have additive := ledger.additive (n + 1)
    exact ⟨fun limit p ended =>
        additive.enters_nested ledger.deeper (ledger.expression ih limit ended),
      fun p ended brace => additive.enters_nested id (ledger.bracedStmts ih ended brace)⟩

omit h in
theorem program (source : String) (file : Option String) :
    L maxDepth (Parser.ofSource source file)
      (stmtsLeft (Inner.levels maxDepth) .eof (Parser.ofSource source file)).2
      (wholes (readProgram source file).1.nodes) :=
  ledger.stmtsUntil (ledger.levels maxDepth) .eof (Parser.ofSource source file).remaining
    (Lexer.stream_last_kind _)

end Ledger

end ScriptFront
