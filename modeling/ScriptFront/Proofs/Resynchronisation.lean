import ScriptFront.Proofs.Remainder
import ScriptFront.Proofs.Relocation
import ScriptFront.Proofs.Soundness

/-! A semicolon brings the parser back into step. A text that ends in a semicolon is read
alone and in front of another text. Up to the semicolon both readings take the same steps,
whatever goes wrong on the way, since no rule looks past a semicolon that is current. The
statement that meets the semicolon ends there, and the loop over statements goes on behind
it: one reading is at its end then, and the other at the beginning of the second text. Only
a block that the first text leaves open could read on, and that is recorded. -/

namespace ScriptFront

variable {α β : Type}

/-- The place between two texts. -/
structure Seam where
  semicolon : Token
  stop : Token
  tail : TokenStream
  semicolon_kind : semicolon.kind = .semicolon
  stop_kind : stop.kind = .eof
  tail_last_kind : tail.last.kind = .eof
  tail_kind : (tail.get 0).kind ≠ .semicolon

def Parser.Before (p : Parser) : Prop := 2 ≤ p.remaining

theorem Parser.Before.advance_lt {p : Parser} (before : p.Before) :
    p.advance.remaining < p.remaining := by
  rw [Parser.advance_remaining]
  exact Nat.sub_lt (Nat.lt_of_lt_of_le (by decide) before) (by decide)

namespace Seam

variable (seam : Seam)

/-- The first text alone and in front of the second one, read up to the same token. -/
structure Beside (p q : Parser) : Prop where
  input : ∃ vs, p.input = ⟨vs ++ [seam.semicolon], seam.stop⟩ ∧
    q.input = ⟨vs ++ seam.semicolon :: seam.tail.body, seam.tail.last⟩
  depth : q.depth = p.depth
  errors : q.errors = p.errors

namespace Beside

variable {seam} {p q : Parser}

theorem current (h : seam.Beside p q) : q.current = p.current := by
  obtain ⟨vs, first, second⟩ := h.input
  cases vs <;> simp [Parser.current, TokenStream.get, first, second]

theorem peek (h : seam.Beside p q) (before : p.Before) : q.peek = p.peek := by
  obtain ⟨vs, first, second⟩ := h.input
  rcases vs with _ | ⟨u, _ | ⟨v, vs⟩⟩
  · simp [Parser.Before, Parser.remaining, first] at before
  · simp [Parser.peek, TokenStream.get, first, second]
  · simp [Parser.peek, TokenStream.get, first, second]

theorem before_of_kind (h : seam.Beside p q) (kind : p.current.kind ≠ .semicolon) : p.Before := by
  obtain ⟨vs, first, second⟩ := h.input
  cases vs with
  | nil => simp [Parser.current, TokenStream.get, first, seam.semicolon_kind] at kind
  | cons v vs => simp [Parser.Before, Parser.remaining, first]

theorem ended (h : seam.Beside p q) : p.Ended ∧ q.Ended := by
  obtain ⟨vs, first, second⟩ := h.input
  simp [Parser.Ended, first, second, seam.stop_kind, seam.tail_last_kind]

theorem remaining_le (h : seam.Beside p q) : p.remaining ≤ q.remaining := by
  obtain ⟨vs, first, second⟩ := h.input
  simp [Parser.remaining, first, second]

theorem advance (h : seam.Beside p q) (before : p.Before) : seam.Beside p.advance q.advance := by
  obtain ⟨vs, first, second⟩ := h.input
  cases vs with
  | nil => simp [Parser.Before, Parser.remaining, first] at before
  | cons v vs =>
    refine ⟨⟨vs, ?_, ?_⟩, h.depth, h.errors⟩
    · simp [TokenStream.rest, first]
    · simp [TokenStream.rest, second]

theorem record (h : seam.Beside p q) (d : Diagnostic) : seam.Beside (p.record d) (q.record d) :=
  ⟨h.input, h.depth, by rw [Parser.record_errors, Parser.record_errors, h.errors]⟩

theorem peek_kind (h : seam.Beside p q) (after : ¬ p.Before) :
    p.peek.kind ≠ .semicolon ∧ q.peek.kind ≠ .semicolon := by
  obtain ⟨vs, first, second⟩ := h.input
  cases vs with
  | nil =>
    have next := seam.tail_kind
    rw [TokenStream.get, List.getD_eq_getElem?_getD] at next
    simp [Parser.peek, TokenStream.get, first, second, seam.stop_kind, next]
  | cons v vs => simp [Parser.Before, Parser.remaining, first] at after

theorem across (h : seam.Beside p q) (after : ¬ p.Before) :
    p.advance.input = ⟨[], seam.stop⟩ ∧ q.advance.input = seam.tail := by
  obtain ⟨vs, first, second⟩ := h.input
  cases vs with
  | nil => simp [TokenStream.rest, first, second]
  | cons v vs => simp [Parser.Before, Parser.remaining, first] at after

end Beside

/-- A block was left open at the end of the input. -/
def Unclosed (diagnostics : List Diagnostic) : Prop :=
  ∃ d ∈ diagnostics, d.cause = .unexpectedToken .rbrace .eof

/-- Results of the two readings. They are the same, unless the first text leaves a block
open. -/
inductive Agree (known : α → Token → Prop) :
    EStateM.Result Diagnostic Parser α → EStateM.Result Diagnostic Parser α → Prop where
  | ok {a : α} {p q : Parser} (beside : seam.Beside p q) (here : known a p.current) :
      Agree known (.ok a p) (.ok a q)
  | error {d : Diagnostic} {p q : Parser} (beside : seam.Beside p q) :
      Agree known (.error d p) (.error d q)
  | unclosed {r s : EStateM.Result Diagnostic Parser α} (found : Unclosed (Rule.diagnostics r)) :
      Agree known r s

/-- A rule reads both texts in the same way from a token that is known, and so is the token it
ends at. -/
def InStep (start : Token → Prop) (x : Rule α) (known : α → Token → Prop) : Prop :=
  ∀ p q, seam.Beside p q → start p.current → seam.Agree known (x p) (x q)

structure InnerInStep (inner : Inner) : Prop where
  kept : inner.Keeps Parser.Extends
  expr : ∀ limit, seam.InStep (fun _ => True) (inner.expr limit) fun _ => Token.Solid
  block : seam.InStep (·.kind = .lbrace) inner.block fun _ => Token.Solid

theorem Unclosed.mono {ds es : List Diagnostic} (h : Unclosed ds) (le : ds <+: es) :
    Unclosed es := by
  obtain ⟨d, member, cause⟩ := h
  exact ⟨d, le.subset member, cause⟩

namespace InStep

variable {seam} {K : Token → Prop} {L : α → Token → Prop} {M : β → Token → Prop}

theorem of_imp {K' : Token → Prop} {L' : α → Token → Prop} {x : Rule α}
    (start : ∀ t, K t → K' t) (ends : ∀ a t, L' a t → L a t) (h : seam.InStep K' x L') :
    seam.InStep K x L := by
  intro p q beside here
  have same := h p q beside (start _ here)
  generalize x p = r, x q = s at same ⊢
  cases same with
  | ok beside here => exact .ok beside (ends _ _ here)
  | error beside => exact .error beside
  | unclosed found => exact .unclosed found

theorem pure {a : α} (ends : ∀ t, K t → L a t) : seam.InStep K (Pure.pure a : Rule α) L :=
  fun _ _ beside here => .ok beside (ends _ here)

theorem bind {x : Rule α} {f : α → Rule β} (first : seam.InStep K x L)
    (kept : ∀ a, (f a).Keeps Parser.Extends) (next : ∀ a, seam.InStep (L a) (f a) M) :
    seam.InStep K (x >>= f) M := by
  intro p q beside start
  have same := first p q beside start
  generalize left : x p = r, right : x q = s at same
  cases same with
  | ok beside here =>
    rw [Rule.bind_of_ok left, Rule.bind_of_ok right]
    exact next _ _ _ beside here
  | error beside =>
    rw [Rule.bind_of_error left, Rule.bind_of_error right]
    exact .error beside
  | unclosed found =>
    subst left
    exact .unclosed (found.mono (Rule.diagnostics_prefix_bind kept p))

theorem current : seam.InStep K Rule.current fun t u => u = t ∧ K u := by
  intro p q beside start
  rw [Rule.current, Rule.current, beside.current]
  exact .ok beside ⟨rfl, start⟩

theorem fail (cause : Cause) : seam.InStep K (Rule.fail cause : Rule α) L := by
  intro p q beside _
  rw [Rule.fail, Rule.fail, beside.current]
  exact .error beside

theorem advance (solid : ∀ t, K t → t.Solid) :
    seam.InStep K Rule.advance fun _ _ => True :=
  fun _ _ beside start => .ok (beside.advance (beside.before_of_kind (solid _ start).2)) trivial

theorem expectPeek {kind : Kind} (solid : ∀ t, K t → t.Solid) :
    seam.InStep K (Rule.expectPeek kind) fun _ t => t.kind = kind := by
  intro p q beside start
  have before := beside.before_of_kind (solid _ start).2
  rw [Rule.expectPeek, Rule.expectPeek, beside.peek before]
  split
  · next found =>
    refine .ok (beside.advance before) ?_
    rwa [Parser.advance_current]
  · exact .error beside

theorem ahead {ι : Type} {select : Kind → Option ι} {x : ι → Rule α} {y : Rule α}
    (solid : ∀ t, K t → t.Solid)
    (found : ∀ i, seam.InStep (select ·.kind = some i) (x i) L) (missing : seam.InStep K y L) :
    seam.InStep K (Rule.ahead select x y) L := by
  intro p q beside start
  have before := beside.before_of_kind (solid _ start).2
  rw [Rule.ahead, Rule.ahead, beside.peek before]
  cases selected : select p.peek.kind with
  | none => exact missing p q beside start
  | some i =>
    refine found i _ _ (beside.advance before) ?_
    rwa [Parser.advance_current]

theorem bounded {g : Nat → Rule α} (all : ∀ n, seam.InStep K (g n) L)
    (bound : ∀ n p, p.Ended → p.remaining ≤ n → g p.remaining p = g n p) :
    seam.InStep K (Rule.remaining >>= g) L := by
  intro p q beside start
  change seam.Agree L (g p.remaining p) (g q.remaining q)
  rw [bound q.remaining p beside.ended.1 beside.remaining_le]
  exact all q.remaining p q beside start

theorem skipSemicolon : seam.InStep K Rule.skipSemicolon fun _ _ => True := by
  intro p q beside _
  unfold Rule.skipSemicolon
  by_cases before : p.Before
  · rw [beside.peek before]
    split
    · exact .ok (beside.advance before) trivial
    · exact .ok beside trivial
  · obtain ⟨first, second⟩ := beside.peek_kind before
    rw [if_neg first, if_neg second]
    exact .ok beside trivial

theorem nested {x : Rule α} (h : seam.InStep K x L) : seam.InStep K (Rule.nested x) L := by
  intro p q beside start
  unfold Rule.nested
  rw [beside.depth]
  split
  · have same := h { p with depth := p.depth + 1 } { q with depth := p.depth + 1 }
      ⟨beside.input, rfl, beside.errors⟩ start
    generalize x { p with depth := p.depth + 1 } = r,
      x { q with depth := p.depth + 1 } = s at same ⊢
    cases same with
    | ok beside here =>
      exact .ok ⟨beside.input, congrArg (· - 1) beside.depth, beside.errors⟩ here
    | error beside => exact .error ⟨beside.input, congrArg (· - 1) beside.depth, beside.errors⟩
    | unclosed found => cases r <;> exact .unclosed found
  · exact fail _ p q beside start

theorem optional {x : Rule α} (h : seam.InStep K x L) :
    seam.InStep K (Rule.optional x) fun _ _ => True := by
  intro p q beside start
  have same := h p q beside start
  unfold Rule.optional
  generalize x p = r, x q = s at same ⊢
  cases same with
  | ok beside _ => exact .ok beside trivial
  | error beside => exact .ok (beside.record _) trivial
  | unclosed found =>
    cases r with
    | ok a p => exact .unclosed found
    | error d p =>
      refine .unclosed (found.mono ?_)
      simp [Rule.diagnostics]

variable {inner : Inner} {f : Token → Token}

theorem of_composed {φ : α → α} {m : Mark} {x y : Rule α} {Q : α → Mark}
    (composed : Rule.Composed f inner inner φ m x y Q) (h : seam.InnerInStep inner) :
    seam.InStep m.token x fun a => (Q a).token := by
  induction composed with
  | pure _ ends => exact pure ends.token
  | bind _ rest first next =>
    exact bind first (fun a => (rest a).keeps Parser.extends_frame h.kept) next
  | weaken start _ ends rest => exact rest.of_imp start.token fun a => (ends a).token
  | current => exact current
  | advance solid => exact advance solid
  | expectPeek _ solid => exact expectPeek solid
  | fail _ => exact fail _
  | ahead solid _ _ _ found missing => exact ahead solid found missing
  | bounded _ bound all => exact bounded all (bound h.kept)
  | expr _ => exact (h.expr _).of_imp (fun _ _ => trivial) fun _ _ here => here
  | block _ brace => exact h.block.of_imp brace fun _ _ here => here

theorem plainEnd (s : Stmt) : seam.InStep K (Rule.plainEnd s) fun _ _ => True :=
  bind skipSemicolon (fun _ => .pure Parser.extends_frame _) fun _ => pure fun _ _ => trivial

theorem of_concludes {m : Mark} {x y : Rule Stmt} (concludes : Rule.Concludes f inner inner m x y)
    (h : seam.InnerInStep inner) : seam.InStep m.token x fun _ _ => True := by
  induction concludes with
  | bind first rest next =>
    exact bind (of_composed first h) (fun a => .of_concludes Parser.extends_frame h.kept (rest a))
      next
  | @value m form form' same complete nodes fresh paid =>
    have value : seam.InStep m.token (Rule.value inner) fun _ _ => True :=
      optional ((h.expr _).of_imp (fun _ _ => trivial) fun _ _ here => here)
    have kept (v : Option Expr) : (Rule.plainEnd (form v)).Keeps Parser.Extends :=
      .bind Parser.extends_frame (.skipSemicolon Parser.extends_frame) fun _ =>
        .pure Parser.extends_frame _
    exact bind value kept fun v => plainEnd (form v)
  | plain => exact plainEnd _

theorem expression (h : seam.InnerInStep inner) (limit : Precedence) :
    seam.InStep (fun _ => True) (Rule.expression inner limit) fun _ => Token.Solid :=
  of_composed (.expression (m := Rule.atStmt) .id limit) h

theorem stmt (h : seam.InnerInStep inner) :
    seam.InStep (fun _ => True) (Rule.stmt inner) fun _ _ => True :=
  of_concludes (Rule.stmt_concludes .id) h

end InStep

/-- Statements of the two readings. Either both stop at the same token, or the first is at its
end and the second goes on with the second text. -/
inductive Continues (inner : Inner) (close : Kind) :
    List Stmt × Parser → List Stmt × Parser → Prop where
  | stopped {ss : List Stmt} {p q : Parser} (beside : seam.Beside p q)
      (stop : p.current.kind = close ∨ p.current.kind = .eof) :
      Continues inner close (ss, p) (ss, q)
  | across {ss : List Stmt} {p q : Parser} (first : p.input = ⟨[], seam.stop⟩)
      (second : q.input = seam.tail) (depth : q.depth = p.depth) (errors : q.errors = p.errors) :
      Continues inner close (ss, p)
        (ss ++ (Rule.stmtsLeft inner close q).1, (Rule.stmtsLeft inner close q).2)
  | unclosed {r s : List Stmt × Parser} (found : Unclosed r.2.errors.toList) :
      Continues inner close r s

section Statements

variable {seam} {inner : Inner} {close : Kind}

theorem Continues.cons {s : Stmt} {l r : List Stmt × Parser} (h : seam.Continues inner close l r) :
    seam.Continues inner close (s :: l.1, l.2) (s :: r.1, r.2) := by
  cases h with
  | stopped beside stop => exact .stopped beside stop
  | across first second depth errors => exact .across first second depth errors
  | unclosed found => exact .unclosed found

theorem Continues.advance {p q : Parser} (beside : seam.Beside p q)
    (next : p.Before → seam.Continues inner close (Rule.stmtsLeft inner close p.advance)
      (Rule.stmtsLeft inner close q.advance)) :
    seam.Continues inner close (Rule.stmtsLeft inner close p.advance)
      (Rule.stmtsLeft inner close q.advance) := by
  by_cases before : p.Before
  · exact next before
  · obtain ⟨first, second⟩ := beside.across before
    have eof : p.advance.current.kind = .eof := by
      rw [Parser.current, first]
      exact seam.stop_kind
    rw [Rule.stmtsLeft_of_stop inner (.inr eof)]
    exact .across first second beside.depth beside.errors

theorem stmtsLeft_continues (h : seam.InnerInStep inner) (close : Kind) {p q : Parser}
    (beside : seam.Beside p q) :
    seam.Continues inner close (Rule.stmtsLeft inner close p) (Rule.stmtsLeft inner close q) := by
  induction left : p.remaining using Nat.strong_induction_on generalizing p q with
  | _ n ih =>
    subst left
    by_cases stop : p.current.kind = close ∨ p.current.kind = .eof
    · rw [Rule.stmtsLeft_of_stop inner stop, Rule.stmtsLeft_of_stop inner (by rwa [beside.current])]
      exact .stopped beside stop
    · have running : ¬ (q.current.kind = close ∨ q.current.kind = .eof) := by rwa [beside.current]
      have same := InStep.stmt h p q beside trivial
      have fewer := Rule.Keeps.stmt Parser.extends_frame h.kept p
      generalize first : Rule.stmt inner p = r, second : Rule.stmt inner q = s at same
      cases same with
      | @ok s p' q' beside' _ =>
        rw [Rule.final_of_ok first] at fewer
        rw [Rule.stmtsLeft_of_ok h.kept beside.ended.1 stop first,
          Rule.stmtsLeft_of_ok h.kept beside.ended.2 running second]
        refine (Continues.advance beside' fun before => ?_).cons
        exact ih _ (Nat.lt_of_lt_of_le before.advance_lt fewer.remaining_le)
          (beside'.advance before) rfl
      | @error d p' q' beside' =>
        rw [Rule.final_of_error first] at fewer
        rw [Rule.stmtsLeft_of_error h.kept beside.ended.1 stop first,
          Rule.stmtsLeft_of_error h.kept beside.ended.2 running second]
        refine Continues.advance (beside'.record d) fun before => ?_
        exact ih _ (Nat.lt_of_lt_of_le before.advance_lt fewer.remaining_le)
          ((beside'.record d).advance before) rfl
      | unclosed found =>
        subst first
        exact .unclosed (found.mono
          (Rule.diagnostics_prefix_stmtsLeft h.kept beside.ended.1 stop))

theorem InStep.closeBlock (token : Token) (body : List Stmt) :
    seam.InStep (fun _ => True) (Rule.closeBlock token body) fun _ => Token.Solid := by
  intro p q beside _
  rw [Rule.closeBlock, Rule.bind_current, Rule.bind_current, beside.current]
  by_cases closing : p.current.kind = .rbrace
  · rw [if_pos closing]
    exact .ok beside (Token.solid_of_kind closing (by decide))
  · rw [if_neg closing]
    exact fail (K := fun _ => True) _ p q beside trivial

theorem InStep.bracedStmts (h : seam.InnerInStep inner) :
    seam.InStep (·.kind = .lbrace) (Rule.bracedStmts inner) fun _ => Token.Solid := by
  intro p q beside start
  have before : p.Before := beside.before_of_kind (Token.solid_of_kind start (by decide)).2
  have inside := stmtsLeft_continues h .rbrace (beside.advance before)
  rw [Rule.bracedStmts_apply, Rule.bracedStmts_apply, beside.current]
  generalize Rule.stmtsLeft inner .rbrace p.advance = l,
    Rule.stmtsLeft inner .rbrace q.advance = r at inside ⊢
  cases inside with
  | stopped beside' _ => exact closeBlock _ _ _ _ beside' trivial
  | @across ss p' q' first second depth errors =>
    have eof : p'.current.kind = .eof := by
      rw [Parser.current, first]
      exact seam.stop_kind
    refine .unclosed ⟨⟨.unexpectedToken .rbrace .eof, p'.current.position⟩, ?_, rfl⟩
    rw [Rule.closeBlock, Rule.bind_current, eof]
    simp [Rule.fail, Rule.diagnostics]
  | unclosed found =>
    exact .unclosed (found.mono (Rule.diagnostics_of_keeps (Rule.closeBlock_keeps _ _) _))

theorem innerInStep_levels (n : Nat) : seam.InnerInStep (Inner.levels n) := by
  induction n with
  | zero => exact ⟨.exhausted Parser.extends_frame, fun _ => .fail _, .fail _⟩
  | succ n ih =>
    exact ⟨ih.kept.above Parser.extends_frame, fun limit => .nested (.expression ih limit),
      .nested (.bracedStmts ih)⟩

theorem program_across {p q : Parser} (beside : seam.Beside p q)
    (running : ∀ t ∈ p.input.body, t.kind ≠ .eof)
    (closed : ¬ Unclosed p.program.2.errors.toList) :
    ∃ r : Parser, r.input = seam.tail ∧ r.depth = p.depth ∧ r.errors = p.program.2.errors ∧
      q.program.1.statements = p.program.1.statements ++ r.program.1.statements ∧
      q.program.2.errors = r.program.2.errors := by
  have inner : q.inner = p.inner := by rw [Parser.inner, Parser.inner, beside.depth]
  have levels : seam.InnerInStep p.inner := innerInStep_levels (maxDepth - p.depth)
  have reach : p.Extends (Rule.stmtsLeft p.inner .eof p).2 :=
    Rule.stmtsUntil_keeps Parser.extends_frame levels.kept .eof p.remaining p
  have continues := stmtsLeft_continues levels .eof beside
  have statements : q.program.1.statements = (Rule.stmtsLeft p.inner .eof q).1 := by
    rw [← inner]
    rfl
  have errors : q.program.2.errors = (Rule.stmtsLeft p.inner .eof q).2.errors := by
    rw [← inner]
    rfl
  change ¬ Unclosed (Rule.stmtsLeft p.inner .eof p).2.errors.toList at closed
  change ∃ r : Parser, r.input = seam.tail ∧ r.depth = p.depth ∧
    r.errors = (Rule.stmtsLeft p.inner .eof p).2.errors ∧ q.program.1.statements =
      (Rule.stmtsLeft p.inner .eof p).1 ++ r.program.1.statements ∧ _
  rw [statements, errors]
  generalize Rule.stmtsLeft p.inner .eof p = l, Rule.stmtsLeft p.inner .eof q = r at *
  cases continues with
  | @stopped ss p' q' beside' stop =>
    obtain ⟨vs, first, -⟩ := beside'.input
    have member : p'.current ∈ p'.input.body := by
      rw [Parser.current, first]
      cases vs <;> simp [TokenStream.get]
    have kind : p'.current.kind = .eof := stop.elim id id
    exact absurd kind (running _ (reach.body.subset member))
  | @across ss p' q' first second depth found =>
    have same : q'.inner = p.inner := by rw [Parser.inner, Parser.inner, depth, reach.depth]
    refine ⟨q', second, depth.trans reach.depth, found, ?_, ?_⟩
    · rw [← same]
      rfl
    · rw [← same]
      rfl
  | unclosed found => exact absurd found closed

end Statements

end Seam

def Stmt.shift (n : Nat) : Stmt → Stmt := Stmt.mapTokens (Token.shift n) (Token.shift n)

def Diagnostic.shift (n : Nat) (d : Diagnostic) : Diagnostic :=
  { d with position := d.position.shift n }

namespace Relocation

/-- Further on by `n` characters, after what is already recorded and noted. -/
def shift (n : Nat) (errors : Array Diagnostic) (journal : Journal) : Relocation where
  token := Token.shift n
  position := Position.shift n
  errors := errors
  journal := journal
  kind_token _ := rfl
  literal_token _ := rfl
  position_token _ := rfl

def noted (journal : Journal) : Relocation where
  token := id
  position := id
  errors := #[]
  journal := journal
  kind_token _ := rfl
  literal_token _ := rfl
  position_token _ := rfl

theorem noted_eq {p : Parser} (start : p.errors = #[]) :
    (noted p.journal).parser { p with journal := #[] } = p := by
  obtain ⟨⟨body, last⟩, errors, depth, journal⟩ := p
  obtain rfl : errors = #[] := start
  simp [parser, stream, noted]

end Relocation

theorem Parser.program_shift {p r : Parser} {n : Nat}
    (input : r.input = ⟨p.input.body.map (Token.shift n), p.input.last.shift n⟩)
    (depth : r.depth = p.depth) (start : p.errors = #[]) :
    r.program.1.statements = p.program.1.statements.map (Stmt.shift n) ∧
      r.program.2.errors = r.errors ++ p.program.2.errors.map (Diagnostic.shift n) := by
  generalize quiet : ({ p with journal := #[] } : Parser) = o
  have here : (Relocation.noted p.journal).parser o = p := by
    rw [← quiet]
    exact Relocation.noted_eq start
  have there : (Relocation.shift n r.errors r.journal).parser o = r := by
    subst quiet
    simp [Relocation.parser, Relocation.stream, Relocation.shift, start, ← input, ← depth]
  constructor
  · have moved := (Relocation.shift n r.errors r.journal).program_fst o
    have same := (Relocation.noted p.journal).program_fst o
    rw [here] at same
    rw [there] at moved
    have composed := o.program.1.mapTokens_mapTokens id id (Token.shift n) (Token.shift n)
    exact congrArg Program.statements (moved.trans (composed.symm.trans (congrArg _ same.symm)))
  · have moved := (Relocation.shift n r.errors r.journal).program_errors o
    have same := (Relocation.noted p.journal).program_errors o
    rw [here] at same
    rw [there] at moved
    change p.program.2.errors = #[] ++ o.program.2.errors.map id at same
    rw [Array.map_id, Array.empty_append] at same
    rw [same]
    exact moved

theorem Seam.exists_beside {first second : String} {file : Option String}
    (last : ∃ t ∈ (tokenize first file).dropLast.getLast?, t.kind = .semicolon)
    (next : ∀ t ∈ (tokenize second file).head?, t.kind ≠ .semicolon) :
    ∃ seam : Seam,
      seam.tail =
        (Relocation.shift first.length #[] #[]).stream (Lexer.ofSource second file).stream ∧
      seam.Beside (Parser.ofSource first file) (Parser.ofSource (first ++ second) file) := by
  obtain ⟨semicolon, member, kind⟩ := last
  rw [tokenize_dropLast] at member
  have whole : (Lexer.ofSource (first ++ second) file).stream = _ :=
    Lexer.stream_ofSource_append fun t found => by
      rw [member] at found
      cases found
      rw [kind]
      exact .semicolon second.toList
  have start : ((Lexer.ofSource second file).stream.get 0).kind ≠ .semicolon := by
    refine next _ ?_
    rw [tokenize, TokenStream.toList, TokenStream.get]
    cases (Lexer.ofSource second file).stream.body <;> rfl
  let seam : Seam :=
    { semicolon := semicolon
      stop := (Lexer.ofSource first file).stream.last
      tail := (Relocation.shift first.length #[] #[]).stream (Lexer.ofSource second file).stream
      semicolon_kind := kind
      stop_kind := Lexer.stream_last_kind _
      tail_last_kind := Lexer.stream_last_kind (Lexer.ofSource second file)
      tail_kind := by rwa [Relocation.stream_get, Relocation.kind_token] }
  obtain ⟨vs, body⟩ := List.getLast?_eq_some_iff.1 member
  refine ⟨seam, rfl, ⟨vs, ?_, ?_⟩, rfl, rfl⟩
  · change (Lexer.ofSource first file).stream = _
    rw [← body]
  · change (Lexer.ofSource (first ++ second) file).stream = _
    rw [whole, body, List.append_assoc]
    rfl

/-- Two texts are read one after the other if the first ends in a semicolon and leaves no
block open, and the second does not begin with a semicolon. -/
theorem readProgram_append {first second : String} {file : Option String}
    (last : ∃ t ∈ (tokenize first file).dropLast.getLast?, t.kind = .semicolon)
    (closed : ∀ d ∈ (readProgram first file).2.errors, d.cause ≠ .unexpectedToken .rbrace .eof)
    (next : ∀ t ∈ (tokenize second file).head?, t.kind ≠ .semicolon) :
    (readProgram (first ++ second) file).1.statements = (readProgram first file).1.statements ++
        (readProgram second file).1.statements.map (Stmt.shift first.length) ∧
      (readProgram (first ++ second) file).2.errors = (readProgram first file).2.errors ++
        (readProgram second file).2.errors.map (Diagnostic.shift first.length) := by
  obtain ⟨seam, tail, beside⟩ := Seam.exists_beside last next
  have running := (Parser.ofSource_fresh first file).running
  have shut : ¬ Seam.Unclosed (readProgram first file).2.errors.toList := by
    rintro ⟨d, found, cause⟩
    exact closed d (Array.mem_toList_iff.1 found) cause
  obtain ⟨r, input, depth, errors, statements, diagnostics⟩ :=
    Seam.program_across beside running shut
  have shifted :=
    Parser.program_shift (p := Parser.ofSource second file) (input.trans tail) depth rfl
  rw [readProgram, statements, shifted.1]
  refine ⟨rfl, ?_⟩
  rw [diagnostics, shifted.2, errors]
  rfl

theorem readProgram_append_broken :
    (readProgram ("var = f(1;" ++ "g(;h") none).1.statements =
        (readProgram "var = f(1;" none).1.statements ++
          (readProgram "g(;h" none).1.statements.map (Stmt.shift "var = f(1;".length) ∧
      (readProgram ("var = f(1;" ++ "g(;h") none).2.errors =
        (readProgram "var = f(1;" none).2.errors ++
          (readProgram "g(;h" none).2.errors.map (Diagnostic.shift "var = f(1;".length) :=
  readProgram_append (by decide +kernel) (by decide +kernel) (by decide +kernel)

end ScriptFront
