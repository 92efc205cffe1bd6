import ScriptFront.Proofs.Remainder
import ScriptFront.Proofs.Scan

/-! Diagnostics are true of the token they stand at. A rule starts at a token of the input
with some levels left, and then whatever it reports holds of the input: an unexpected token
is not the one asked for, a missing operand could not begin there, an integer is too large,
and nesting is too deep only behind as many tokens as there are levels. The last needs an
account of levels and tokens, `Parser.Reading`: opening a level is paid for by a token that
was passed over on the level around it. -/

namespace ScriptFront

variable {α β : Type}

def numeralValue (literal : String) : Nat :=
  Nat.ofDigits 10 (literal.toList.reverse.map fun c => c.toNat - '0'.toNat)

/-- What a cause says of token number `i` of an input. -/
inductive Cause.Holds (i : Nat) (t : Token) : Cause → Prop where
  | unexpectedToken {expected : Kind} (differs : expected ≠ t.kind)
      (wanted : expected ∈ [.ident, .assign, .lparen, .rparen, .lbrace, .rbrace])
      (unclosed : expected = .rbrace → t.kind = .eof) :
      Holds i t (.unexpectedToken expected t.kind)
  | noOperand (none : t.kind.operandForm? = none) : Holds i t (.noOperand t.kind)
  | integerOutOfRange (int : t.kind = .int) (digits : ∀ c ∈ t.literal.toList, c.isDigit)
      (large : 2147483647 < numeralValue t.literal) : Holds i t (.integerOutOfRange t.literal)
  | nestingTooDeep (deep : 256 ≤ i) : Holds i t (.nestingTooDeep 256)

def Diagnostic.Truthful (tokens : List Token) (d : Diagnostic) : Prop :=
  ∃ i t, tokens[i]? = some t ∧ d.position = t.span.start ∧ d.cause.Holds i t

theorem decimalValue_eq_ofDigits (digits : List Char) :
    decimalValue digits = Nat.ofDigits 10 (digits.reverse.map fun c => c.toNat - '0'.toNat) := by
  induction digits using List.reverseRecOn with
  | nil => rfl
  | append_singleton digits c ih =>
    rw [decimalValue] at ih
    rw [decimalValue, List.foldl_append, List.foldl_cons, List.foldl_nil, ih, List.reverse_append,
      List.reverse_singleton, List.singleton_append, List.map_cons, Nat.ofDigits_cons,
      Nat.add_comm]

theorem lt_numeralValue {literal : String} (nonempty : literal.toList ≠ [])
    (digits : ∀ c ∈ literal.toList, c.isDigit) (missing : integerValue? literal = none) :
    maxInteger < numeralValue literal := by
  rw [numeralValue, ← decimalValue_eq_ofDigits]
  by_contra small
  have fits : literal.toList ≠ [] ∧ literal.toList.all Char.isDigit ∧
      decimalValue literal.toList ≤ maxInteger :=
    ⟨nonempty, List.all_eq_true.2 digits, Nat.le_of_not_lt small⟩
  simp only [integerValue?, if_pos fits] at missing
  cases missing

namespace Parser

/-- A parser of the text of `l` that has `n` levels left. Every open level but the innermost
has cost a token, and on the innermost `passed` tokens were passed over. -/
structure Reading (l : Lexer) (n passed : Nat) (p : Parser) : Prop where
  body : p.input.body <:+ l.stream.body
  last : p.input.last = l.stream.last
  levels : p.depth + n = maxDepth
  paid : p.remaining + p.depth + passed ≤ l.stream.body.length + 1

namespace Reading

variable {l : Lexer} {n passed : Nat} {p q : Parser}

theorem ended (h : p.Reading l n passed) : p.Ended :=
  (congrArg Token.kind h.last).trans l.stream_last_kind

theorem later (h : p.Reading l n passed) (reach : p.Extends q) : q.Reading l n passed := by
  have fewer := reach.remaining_le
  have paid := h.paid
  refine ⟨reach.body.trans h.body, reach.last.trans h.last, reach.depth ▸ h.levels, ?_⟩
  rw [reach.depth]
  omega

theorem fewer (h : p.Reading l n (passed + 1)) : p.Reading l n passed :=
  ⟨h.body, h.last, h.levels, Nat.le_of_succ_le h.paid⟩

theorem advance (h : p.Reading l n passed) (left : 0 < p.remaining) :
    p.advance.Reading l n (passed + 1) := by
  have paid := h.paid
  have moved := h.later (extends_frame.advance p)
  refine ⟨moved.body, moved.last, moved.levels, ?_⟩
  rw [advance_remaining, advance_depth]
  omega

theorem nested (h : p.Reading l (n + 1) (passed + 1)) :
    Reading l n passed { p with depth := p.depth + 1 } := by
  have levels := h.levels
  have paid := h.paid
  refine ⟨h.body, h.last, ?_, ?_⟩
  · change p.depth + 1 + n = maxDepth
    omega
  · change p.remaining + (p.depth + 1) + passed ≤ _
    omega

theorem close (h : q.Reading l n 0) (room : n < maxDepth) :
    Reading l (n + 1) 1 { q with depth := q.depth - 1 } := by
  have levels := h.levels
  have paid := h.paid
  refine ⟨h.body, h.last, ?_, ?_⟩
  · change q.depth - 1 + (n + 1) = maxDepth
    omega
  · change q.remaining + (q.depth - 1) + 1 ≤ _
    omega

theorem getElem?_current (h : p.Reading l n passed) :
    l.stream.toList[l.stream.body.length - p.remaining]? = some p.current := by
  obtain ⟨before, split⟩ := h.body
  have place : l.stream.body.length - p.remaining = before.length := by
    rw [← split, List.length_append]
    exact Nat.add_sub_cancel _ _
  rw [place, TokenStream.toList, ← split, List.append_assoc,
    List.getElem?_append_right (Nat.le_refl _), Nat.sub_self, ← h.last]
  cases body : p.input.body with
  | nil => rw [current_of_nil body]; rfl
  | cons t ts => rw [current_of_body body]; rfl

theorem lexical (h : p.Reading l n passed) (running : p.current.kind ≠ .eof) :
    p.current.Lexical := by
  have member : p.current ∈ p.input.body := by
    rw [h.ended.body_eq running]
    exact List.mem_cons_self
  exact (l.stream_lexical _ (h.body.subset member)).1

theorem truthful (h : p.Reading l n passed) {cause : Cause}
    (holds : cause.Holds (l.stream.body.length - p.remaining) p.current) :
    Diagnostic.Truthful l.stream.toList ⟨cause, p.current.position⟩ :=
  ⟨_, _, h.getElem?_current, rfl, holds⟩

end Reading

end Parser

/-- Only truthful diagnostics so far, at a token that the mark allows, which is paid for by
another one if the mark says so. -/
structure Parser.TruthfulAt (l : Lexer) (n : Nat) (m : Mark) (p : Parser) : Prop where
  reading : p.Reading l n 0
  paid : m.paid → p.Reading l n 1
  token : m.token p.current
  past : ∀ d ∈ p.errors.toList, d.Truthful l.stream.toList

def Mark.unpaid (m : Mark) : Mark := { m with paid := False }

def Diagnostic.TruthfulAfter (l : Lexer) (d : Diagnostic) (p : Parser) : Prop :=
  ∀ e ∈ p.errors.toList ++ [d], e.Truthful l.stream.toList

section Invariant

variable {l : Lexer} {n : Nat}

theorem Parser.TruthfulAt.stopped {m : Mark} {p : Parser} (h : p.TruthfulAt l n m)
    {d : Diagnostic} (own : d.Truthful l.stream.toList) : d.TruthfulAfter l p :=
  List.forall_mem_append.2 ⟨h.past, List.forall_mem_singleton.2 own⟩

theorem Cause.Fits.holds {m : Mark} {p : Parser} (h : p.TruthfulAt l n m) {cause : Cause}
    (fits : cause.Fits p.current) :
    cause.Holds (l.stream.body.length - p.remaining) p.current := by
  cases cause with
  | noOperand kind =>
    obtain ⟨rfl, none⟩ := fits
    exact .noOperand none
  | integerOutOfRange literal =>
    obtain ⟨rfl, int, missing⟩ := fits
    have lexical := h.reading.lexical (by rw [int]; decide)
    have digits := lexical.digits int
    exact .integerOutOfRange int digits (lt_numeralValue lexical.nonempty digits missing)
  | unexpectedToken _ _ => exact fits.elim
  | nestingTooDeep _ => exact fits.elim

theorem truthful_invariant : Invariant (Parser.TruthfulAt l n) (Diagnostic.TruthfulAfter l) where
  entails le h := ⟨h.reading, fun paid => h.paid (le.paid paid), le.token _ h.token, h.past⟩
  current h := ⟨h.reading, h.paid, ⟨rfl, h.token⟩, h.past⟩
  advance {_ p _} solid next h := by
    have left := h.reading.ended.one_le_remaining (solid _ h.token).1
    exact ⟨h.reading.later (Parser.extends_frame.advance p), fun _ => h.reading.advance left,
      p.advance_current ▸ next, h.past⟩
  unexpected {_ p kind} wanted other _ h := by
    -- The diagnostic stands at the next token, which would be current one step on.
    have moved := h.reading.later (Parser.extends_frame.advance p)
    refine h.stopped ?_
    rw [← p.advance_current]
    refine moved.truthful (.unexpectedToken ?_ ?_ ?_)
    · rw [p.advance_current]
      exact Ne.symm other
    · exact List.mem_append_left [.rbrace] wanted
    · rintro rfl
      exact absurd wanted (by decide)
  fail fits h := h.stopped (h.reading.truthful ((fits _ h.token).holds h))

theorem truthful_settling :
    Settling (Parser.TruthfulAt l n) (Diagnostic.TruthfulAfter l)
      fun _ p => ∀ d ∈ p.errors.toList, d.Truthful l.stream.toList where
  whole _ h := h.past
  broken {d p _} h := by
    rw [Parser.record_errors, Array.toList_push]
    exact h
  skip _ h := h

end Invariant

abbrev Inner.Truthful (l : Lexer) (n : Nat) (inner : Inner) : Prop :=
  inner.Meets (Parser.TruthfulAt l n) (Diagnostic.TruthfulAfter l)

section Whole

variable {l : Lexer} {n : Nat} {inner : Inner}

theorem Parser.TruthfulAt.later {m : Mark} {p q : Parser} (h : p.TruthfulAt l n Rule.atStmt)
    (reach : p.Extends q) (past : ∀ d ∈ q.errors.toList, d.Truthful l.stream.toList)
    (token : m.token q.current) : q.TruthfulAt l n m := by
  have reading := (h.paid trivial).later reach
  exact ⟨reading.fewer, fun _ => reading, token, past⟩

theorem Rule.stmtsUntil_truthful (h : inner.Truthful l n) (kept : inner.Keeps Parser.Extends)
    (close : Kind) (k : Nat) {p : Parser} (start : p.TruthfulAt l n atStmt) :
    (stmtsUntil inner close k p).2.TruthfulAt l n atStmt := by
  have stmt := Keeps.stmt Parser.extends_frame kept
  have read := truthful_invariant.concludes truthful_settling h (stmt_concludes .id)
  refine stmtsUntil_of_round (fun {p q _} start run => ?_) (fun {p q d} start run => ?_) close k start
  · have found := read p start
    rw [run] at found
    have reach := Parser.extends_frame.trans (stmt.ok run) (Parser.extends_frame.advance q)
    exact start.later reach found trivial
  · have found := read p start
    rw [run] at found
    have reach := Parser.extends_frame.trans (stmt.error run)
      (Parser.extends_frame.trans (Parser.extends_frame.record q d)
        (Parser.extends_frame.advance _))
    refine start.later reach ?_ trivial
    rw [Parser.advance_errors, Parser.record_errors, Array.toList_push]
    exact found

theorem Rule.bracedStmts_truthful (h : inner.Truthful l n) (kept : inner.Keeps Parser.Extends)
    {m : Mark} (brace : ∀ t, m.token t → t.kind = .lbrace) :
    Meets (Parser.TruthfulAt l n) (Diagnostic.TruthfulAfter l) m (bracedStmts inner)
      fun b => m.after b.nodes := by
  intro p start
  have running : p.current.kind ≠ .eof := brace _ start.token ▸ by decide
  have inside := start.reading.advance (start.reading.ended.one_le_remaining running)
  have body := stmtsUntil_truthful h kept .rbrace p.advance.remaining
    ⟨inside.fewer, fun _ => inside, trivial, start.past⟩
  have stop := stmtsLeft_stops kept .rbrace inside.ended
  rw [bracedStmts_apply, closeBlock, bind_current]
  by_cases closed : (stmtsLeft inner .rbrace p.advance).2.current.kind = .rbrace
  · rw [if_pos closed]
    exact ⟨body.reading, fun _ => body.paid trivial, Token.solid_of_kind closed (by decide),
      body.past⟩
  · rw [if_neg closed]
    exact body.stopped (body.reading.truthful
      (.unexpectedToken (Ne.symm closed) (by decide) fun _ => stop.resolve_left closed))

theorem Parser.TruthfulAt.exhausted {m : Mark} {p : Parser} (paid : m.paid)
    (h : p.TruthfulAt l 0 m) :
    Diagnostic.TruthfulAfter l ⟨.nestingTooDeep maxDepth, p.current.position⟩ p := by
  have levels : p.depth + 0 = 256 := h.reading.levels
  have spent := (h.paid paid).paid
  have deep : 256 ≤ l.stream.body.length - p.remaining := by omega
  exact h.stopped (h.reading.truthful (.nestingTooDeep deep))

theorem Rule.Meets.nested_truthful {m : Mark} (paid : m.paid) {x : Rule α}
    {nodes : α → List Node}
    (h : Meets (Parser.TruthfulAt l n) (Diagnostic.TruthfulAfter l) m.unpaid x
      fun a => m.unpaid.after (nodes a)) :
    Meets (Parser.TruthfulAt l (n + 1)) (Diagnostic.TruthfulAfter l) m (Rule.nested x)
      fun a => m.after (nodes a) := by
  refine h.nested (fun p _ start => ?_) (fun p start a q last => ?_) (fun _ _ after => after)
    fun p full start => ?_
  · exact ⟨(start.paid paid).nested, False.elim, start.token, start.past⟩
  · have room := start.reading.levels
    have reading := last.reading.close (by omega)
    exact ⟨reading.fewer, fun _ => reading, last.token, last.past⟩
  · have room := start.reading.levels
    exact absurd (show p.depth < maxDepth by omega) full

theorem Inner.Truthful.levels (n : Nat) : (Inner.levels n).Truthful l n := by
  induction n with
  | zero =>
    exact ⟨fun _ _ paid _ start => start.exhausted paid,
      fun _ paid _ _ start => start.exhausted paid⟩
  | succ n ih =>
    have kept := Inner.Keeps.levels Parser.extends_frame n
    exact ⟨fun limit m paid =>
        .nested_truthful paid (truthful_invariant.composed ih (.expression .id limit)),
      fun m paid brace => .nested_truthful paid (Rule.bracedStmts_truthful ih kept brace)⟩

end Whole

/-- A parser that has read nothing has no level open. The first level needs no token before
it, so its account starts with one. -/
theorem Parser.reading_ofLexer (l : Lexer) : (Parser.ofLexer l).Reading l maxDepth 1 :=
  ⟨List.suffix_rfl, rfl, Nat.zero_add _, Nat.le_refl _⟩

theorem readProgram_errors_truthful (source : String) (file : Option String) :
    ∀ d ∈ (readProgram source file).2.errors.toList, d.Truthful (tokenize source file) := by
  have reading := Parser.reading_ofLexer (Lexer.ofSource source file)
  have start : (Parser.ofSource source file).TruthfulAt (Lexer.ofSource source file) maxDepth
      Rule.atStmt :=
    ⟨reading.fewer, fun _ => reading, trivial, fun _ none => absurd none List.not_mem_nil⟩
  exact (Rule.stmtsUntil_truthful (Inner.Truthful.levels maxDepth)
    (.levels Parser.extends_frame maxDepth) .eof (Parser.ofSource source file).remaining start).past

/-- Every diagnostic of a source stands at one of its tokens and says what holds of it. -/
theorem truthful_of_mem_errors {source : String} {file : Option String} {d : Diagnostic}
    (found : d ∈ (readProgram source file).2.errors) : d.Truthful (tokenize source file) :=
  readProgram_errors_truthful source file d (Array.mem_toList_iff.2 found)

theorem truthful_of_mem_errors_unclosed :
    (⟨.unexpectedToken .rbrace .eof, ⟨24, "shell"⟩⟩ : Diagnostic) ∈
        (readProgram "if (007) \x7b 2147483648; ]" none).2.errors ∧
      Diagnostic.Truthful (tokenize "if (007) \x7b 2147483648; ]" none)
        ⟨.unexpectedToken .rbrace .eof, ⟨24, "shell"⟩⟩ := by
  have found : (⟨.unexpectedToken .rbrace .eof, ⟨24, "shell"⟩⟩ : Diagnostic) ∈
      (readProgram "if (007) \x7b 2147483648; ]" none).2.errors := by decide +kernel
  exact ⟨found, truthful_of_mem_errors found⟩

end ScriptFront
