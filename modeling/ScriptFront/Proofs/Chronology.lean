import ScriptFront.Proofs.Remainder
import ScriptFront.Proofs.Tokenization

/-! Diagnostics come in the order of the source, and none comes twice before its end. A
diagnostic stands at the current token or, when another token was asked for, at the next
one; it is recorded before the parser moves on. So while rules run no diagnostic stands
behind the current token, and only an unexpected token can stand at it. After a
diagnostic is recorded this holds again one token further on, which is where the next
statement begins. -/

namespace ScriptFront

variable {α β : Type}

def Cause.isUnexpected : Cause → Bool
  | .unexpectedToken _ _ => true
  | _ => false

theorem Cause.isUnexpected_of_fits {t : Token} {cause : Cause} (fits : cause.Fits t) :
    cause.isUnexpected = false := by
  cases cause <;> first | rfl | exact fits.elim

namespace Diagnostic

def offset (d : Diagnostic) : Nat := d.position.offset.toNat

def Precedes (n : Nat) (d e : Diagnostic) : Prop :=
  d.offset < e.offset ∨
    d.offset = e.offset ∧ (e.offset = n ∨ d.cause.isUnexpected ∧ ¬ e.cause.isUnexpected)

/-- The diagnostic was found before a token at index `i` was looked at. -/
def Behind (n i : Nat) (d : Diagnostic) : Prop :=
  d.offset < i ∨ d.offset = i ∧ (i = n ∨ d.cause.isUnexpected)

theorem Precedes.offset_le {n : Nat} {d e : Diagnostic} (h : d.Precedes n e) :
    d.offset ≤ e.offset := by
  rcases h with h | h
  · exact Nat.le_of_lt h
  · exact Nat.le_of_eq h.1

theorem Behind.mono {n i j : Nat} {d : Diagnostic} (h : d.Behind n i) (le : i < j ∨ i = j) :
    d.Behind n j := by
  rcases le with lt | rfl
  · refine .inl (Nat.lt_of_le_of_lt ?_ lt)
    rcases h with h | h
    · exact Nat.le_of_lt h
    · exact Nat.le_of_eq h.1
  · exact h

end Diagnostic

namespace TokenStream

/-- Each token begins behind the one before it, and only the last one is an end token. -/
structure Ordered (s : TokenStream) : Prop where
  increasing : s.toList.Pairwise fun t u => t.first < u.first
  running : ∀ t ∈ s.body, t.kind ≠ .eof
  ended : s.last.kind = .eof

theorem Ordered.rest {s : TokenStream} (h : s.Ordered) : s.rest.Ordered :=
  ⟨h.increasing.sublist ((List.tail_sublist s.body).append_right [s.last]),
    fun t member => h.running t (List.mem_of_mem_tail member), h.ended⟩

end TokenStream

theorem Lexer.On.stream_ordered {text : List Char} {l : Lexer} (small : text.length < UInt32.size)
    (on : l.On text) : l.stream.Ordered := by
  obtain ⟨tiles, last⟩ := on.stream_tiles small
  have place : l.stream.last.first = text.length := by
    rw [last]
    exact Position.ofNat_offset_toNat _ _ small
  refine ⟨List.pairwise_append.2 ⟨?_, List.pairwise_singleton _ _, ?_⟩,
    fun t member => (tiles.stands t member).kind, l.stream_last_kind⟩
  · refine tiles.ordered.imp_of_mem fun {t u} member _ order => ?_
    exact Nat.lt_of_lt_of_le (tiles.stands t member).first_lt order
  · intro t member u final
    rw [List.mem_singleton.1 final, place]
    exact Nat.lt_of_lt_of_le (tiles.stands t member).first_lt (tiles.stands t member).within

namespace Parser

/-- The diagnostics so far are in order, and others may follow from the current token on. -/
structure Orderly (p : Parser) : Prop where
  tokens : p.input.Ordered
  sorted : p.errors.toList.Pairwise (Diagnostic.Precedes p.input.last.first)
  behind : ∀ d ∈ p.errors.toList, d.Behind p.input.last.first p.current.first

/-- The parser is in order as soon as it has moved on. -/
def Settled (p : Parser) : Prop := p.advance.Orderly

theorem first_lt_or_end {p : Parser} (h : p.input.Ordered) :
    p.current.first < p.peek.first ∨ p.current = p.input.last ∧ p.peek = p.input.last := by
  rcases body : p.input.body with _ | ⟨t, ts⟩
  · exact .inr ⟨current_of_nil body, peek_of_tail_nil (by rw [body]; rfl)⟩
  · have increasing := h.increasing
    rw [TokenStream.toList, body, List.cons_append, List.pairwise_cons] at increasing
    refine .inl ?_
    rw [current_of_body body]
    cases ts with
    | nil =>
      rw [peek_of_tail_nil (by rw [body]; rfl)]
      exact increasing.1 _ (List.mem_singleton_self _)
    | cons u ts =>
      rw [peek_of_body body]
      exact increasing.1 u List.mem_cons_self

theorem eq_last_of_eof {p : Parser} (h : p.input.Ordered) (eof : p.current.kind = .eof) :
    p.current = p.input.last := by
  rcases body : p.input.body with _ | ⟨t, ts⟩
  · exact current_of_nil body
  · rw [current_of_body body] at eof
    exact absurd eof (h.running t (by rw [body]; exact List.mem_cons_self))

namespace Orderly

variable {p : Parser} (h : p.Orderly)
include h

theorem ended : p.Ended := h.tokens.ended

theorem advance : p.advance.Orderly := by
  refine ⟨h.tokens.rest, h.sorted, fun d found => (h.behind d found).mono ?_⟩
  rw [advance_current]
  rcases first_lt_or_end h.tokens with lt | ⟨here, next⟩
  · exact .inl lt
  · exact .inr (by rw [here, next])

theorem settled : p.Settled := h.advance

theorem record {d : Diagnostic} (follows : ∀ e ∈ p.errors.toList, e.Precedes p.input.last.first d)
    (behind : d.Behind p.input.last.first p.peek.first) : (p.record d).Settled := by
  have moved := h.advance
  refine ⟨moved.tokens, ?_, ?_⟩
  · change (p.errors.push d).toList.Pairwise _
    rw [Array.toList_push, List.pairwise_append]
    refine ⟨h.sorted, List.pairwise_singleton _ _, fun e found u own => ?_⟩
    rw [List.mem_singleton.1 own]
    exact follows e found
  · change ∀ e ∈ (p.errors.push d).toList, e.Behind p.input.last.first p.advance.current.first
    rw [Array.toList_push, List.forall_mem_append, List.forall_mem_singleton]
    exact ⟨moved.behind, p.advance_current ▸ behind⟩

/-- At the current token any cause may be found but an unexpected token, for which that one
has to be the end token. -/
theorem record_current {cause : Cause}
    (fits : cause.isUnexpected = false ∨ p.current.kind = .eof) :
    (p.record ⟨cause, p.current.position⟩).Settled := by
  have final : p.current.kind = .eof → p.current.first = p.input.last.first := fun eof =>
    congrArg Token.first (eq_last_of_eof h.tokens eof)
  refine h.record (fun e found => ?_) ?_
  · rcases h.behind e found with before | ⟨same, settles⟩
    · exact .inl before
    · refine .inr ⟨same, ?_⟩
      rcases settles with stop | unexpected
      · exact .inl stop
      · rcases fits with other | eof
        · exact .inr ⟨unexpected, by rw [other]; exact Bool.false_ne_true⟩
        · exact .inl (final eof)
  · rcases first_lt_or_end h.tokens with lt | ⟨here, next⟩
    · exact .inl lt
    · exact .inr ⟨by rw [next, ← here]; rfl, .inl (by rw [next])⟩

theorem record_peek (expected received : Kind) :
    (p.record ⟨.unexpectedToken expected received, p.peek.position⟩).Settled := by
  refine h.record (fun e found => ?_) (.inr ⟨rfl, .inr rfl⟩)
  rcases first_lt_or_end h.tokens with lt | ⟨here, next⟩
  · refine .inl (Nat.lt_of_le_of_lt ?_ lt)
    rcases h.behind e found with before | same
    · exact Nat.le_of_lt before
    · exact Nat.le_of_eq same.1
  · rcases h.behind e found with before | ⟨same, -⟩
    · refine .inl ?_
      rw [here, ← next] at before
      exact before
    · refine .inr ⟨?_, .inl (by rw [← next]; rfl)⟩
      rw [same, here, ← next]
      rfl

end Orderly

end Parser

def Parser.OrderlyAt (m : Mark) (p : Parser) : Prop := p.Orderly ∧ m.token p.current

def Diagnostic.Next (d : Diagnostic) (p : Parser) : Prop := (p.record d).Settled

theorem orderly_invariant : Invariant Parser.OrderlyAt Diagnostic.Next where
  entails le start := ⟨start.1, le.token _ start.2⟩
  current start := ⟨start.1, rfl, start.2⟩
  advance {_ p _} _ next start := ⟨start.1.advance, p.advance_current ▸ next⟩
  unexpected _ _ _ start := start.1.record_peek _ _
  fail fits start := start.1.record_current (.inl (Cause.isUnexpected_of_fits (fits _ start.2)))

theorem orderly_settling :
    Settling Parser.OrderlyAt Diagnostic.Next fun _ p => p.Settled where
  whole _ start := start.1.settled
  broken next := next
  skip _ settled := settled.advance

abbrev Inner.Orderly (inner : Inner) : Prop := inner.Meets Parser.OrderlyAt Diagnostic.Next

section Statements

variable {inner : Inner} (h : inner.Orderly)
include h

theorem Rule.stmtsUntil_orderly (close : Kind) (n : Nat) {p : Parser} (start : p.Orderly) :
    (stmtsUntil inner close n p).2.Orderly := by
  have read (p : Parser) (start : p.Orderly) :=
    orderly_invariant.concludes orderly_settling h (stmt_concludes .id) p ⟨start, trivial⟩
  refine stmtsUntil_of_round (fun {p _ _} start run => ?_) (fun {p _ _} start run => ?_) close n start
  all_goals
    have settled := read p start
    rw [run] at settled
    exact settled

theorem Rule.bracedStmts_orderly (kept : inner.Keeps Parser.Extends) (m : Mark) :
    Meets Parser.OrderlyAt Diagnostic.Next m (bracedStmts inner) fun b => m.after b.nodes := by
  rintro p ⟨start, -⟩
  have body := stmtsUntil_orderly h .rbrace p.advance.remaining start.advance
  have stop := stmtsLeft_stops kept .rbrace start.advance.ended
  rw [bracedStmts_apply, closeBlock, bind_current]
  by_cases closed : (stmtsLeft inner .rbrace p.advance).2.current.kind = .rbrace
  · rw [if_pos closed]
    exact ⟨body, Token.solid_of_kind closed (by decide)⟩
  · rw [if_neg closed]
    exact body.record_current (.inr (stop.resolve_left closed))

end Statements

theorem Rule.Meets.nested_orderly {m : Mark} {x : Rule α} {Q : α → Mark}
    (h : Meets Parser.OrderlyAt Diagnostic.Next m x Q) :
    Meets Parser.OrderlyAt Diagnostic.Next m (Rule.nested x) Q :=
  h.nested (fun _ _ start => ⟨⟨start.1.tokens, start.1.sorted, start.1.behind⟩, start.2⟩)
    (fun _ _ _ _ last => ⟨⟨last.1.tokens, last.1.sorted, last.1.behind⟩, last.2⟩)
    (fun _ _ next => ⟨next.tokens, next.sorted, next.behind⟩)
    fun _ _ start => start.1.record_current (.inl rfl)

theorem Inner.Orderly.levels (n : Nat) : (Inner.levels n).Orderly := by
  induction n with
  | zero =>
    have refused {α : Type} {m : Mark} {Q : α → Mark} :
        Rule.Meets Parser.OrderlyAt Diagnostic.Next m (Rule.fail (.nestingTooDeep maxDepth)) Q :=
      fun _ start => start.1.record_current (.inl rfl)
    exact ⟨fun _ _ _ => refused, fun _ _ _ => refused⟩
  | succ n ih =>
    have kept := Inner.Keeps.levels Parser.extends_frame n
    exact ⟨fun limit _ _ => (orderly_invariant.composed ih (.expression .id limit)).nested_orderly,
      fun m _ _ => (Rule.bracedStmts_orderly ih kept m).nested_orderly⟩

theorem Parser.ofSource_ordered {source : String} (small : source.length < 2 ^ 32)
    (file : Option String) :
    (Parser.ofSource source file).input.Ordered ∧
      (Parser.ofSource source file).input.last.first = source.length := by
  have word : source.toList.length < UInt32.size := by
    rw [String.length_toList]
    exact small
  have on := Lexer.ofSource_on source file
  refine ⟨on.stream_ordered word, ?_⟩
  change (Lexer.ofSource source file).stream.last.first = _
  rw [(on.stream_tiles word).2, ← String.length_toList]
  exact endToken_first word _

theorem errors_pairwise {source : String} (small : source.length < 2 ^ 32) (file : Option String) :
    (readProgram source file).2.errors.toList.Pairwise (Diagnostic.Precedes source.length) := by
  obtain ⟨ordered, stop⟩ := Parser.ofSource_ordered small file
  have start : (Parser.ofSource source file).Orderly := ⟨ordered, .nil, List.forall_mem_nil _⟩
  have final := Rule.stmtsUntil_orderly (Inner.Orderly.levels maxDepth) .eof
    (Parser.ofSource source file).remaining start
  have reach := Rule.stmtsUntil_keeps Parser.extends_frame (.levels Parser.extends_frame maxDepth)
    .eof (Parser.ofSource source file).remaining (Parser.ofSource source file)
  have sorted := final.sorted
  rw [reach.last, stop] at sorted
  exact sorted

namespace Diagnostic

theorem length_le_two {ds : List Diagnostic}
    (causes : ds.Pairwise fun d e => d.cause.isUnexpected ∧ ¬ e.cause.isUnexpected) :
    ds.length ≤ 2 := by
  rcases ds with _ | ⟨d, _ | ⟨e, _ | ⟨c, rest⟩⟩⟩
  · exact Nat.zero_le 2
  · exact Nat.le_succ 1
  · exact Nat.le_refl 2
  · obtain ⟨first, others⟩ := List.pairwise_cons.1 causes
    have second := (List.pairwise_cons.1 others).1 c List.mem_cons_self
    exact absurd second.1 (first e List.mem_cons_self).2

variable {n : Nat} {ds : List Diagnostic} (sorted : ds.Pairwise (Precedes n))
include sorted

theorem filter_offset_eq {i : Nat} (inside : i < n) :
    (ds.filter (·.offset = i)).length ≤ 2 ∧ ∀ d e, ds.filter (·.offset = i) = [d, e] →
      d.cause.isUnexpected ∧ ¬ e.cause.isUnexpected := by
  have place : ∀ d ∈ ds.filter (·.offset = i), d.offset = i := fun d found => by
    simpa using (List.mem_filter.1 found).2
  have pairs := sorted.filter (·.offset = i)
  have causes : (ds.filter (·.offset = i)).Pairwise fun d e =>
      d.cause.isUnexpected ∧ ¬ e.cause.isUnexpected := by
    refine pairs.imp_of_mem fun {d e} first second order => ?_
    have here := place d first
    have there := place e second
    rcases order with lt | ⟨-, stop | causes⟩
    · omega
    · omega
    · exact causes
  refine ⟨length_le_two causes, fun d e two => ?_⟩
  rw [two] at causes
  exact (List.pairwise_cons.1 causes).1 e (List.mem_singleton_self e)

theorem nodup_filter_offset_lt : (ds.filter (·.offset < n)).Nodup := by
  refine (sorted.filter _).imp_of_mem fun {d e} first _ order => ?_
  have inside : d.offset < n := by simpa using (List.mem_filter.1 first).2
  rintro rfl
  rcases order with lt | ⟨-, stop | causes⟩
  · exact Nat.lt_irrefl _ lt
  · omega
  · exact causes.2 causes.1

end Diagnostic

/-- Diagnostics come in the order of the source. At a place before its end there are at most
two, an unexpected token and then something else, so that none of them is there twice. -/
theorem errors_chronological {source : String} (small : source.length < 2 ^ 32)
    (file : Option String) :
    ((readProgram source file).2.errors.toList.map Diagnostic.offset).Pairwise (· ≤ ·) ∧
      (∀ i < source.length,
        ((readProgram source file).2.errors.toList.filter (·.offset = i)).length ≤ 2 ∧
        ∀ d e, (readProgram source file).2.errors.toList.filter (·.offset = i) = [d, e] →
          d.cause.isUnexpected ∧ ¬ e.cause.isUnexpected) ∧
      ((readProgram source file).2.errors.toList.filter (·.offset < source.length)).Nodup := by
  have sorted := errors_pairwise small file
  refine ⟨?_, fun i inside => Diagnostic.filter_offset_eq sorted inside,
    Diagnostic.nodup_filter_offset_lt sorted⟩
  exact List.pairwise_map.2 (sorted.imp Diagnostic.Precedes.offset_le)

theorem errors_chronological_twice :
    (readProgram "var ) x" none).2.errors.toList.filter (·.offset = 4) =
        [⟨.unexpectedToken .ident .rparen, ⟨4, "shell"⟩⟩, ⟨.noOperand .rparen, ⟨4, "shell"⟩⟩] ∧
      ((readProgram "var ) x" none).2.errors.toList.filter (·.offset < 7)).Nodup := by
  have small : "var ) x".length < 2 ^ 32 := by decide
  exact ⟨by decide +kernel, (errors_chronological small none).2.2⟩

end ScriptFront
