import ScriptFront.Proofs.Derivation

/-! The layers of the grammar beside the tables that the parser goes by. A limit on
operators selects a layer, the operators of a layer are those of its precedence, and
what continues an expression is what binds at all. -/

namespace ScriptFront

/-- The layer of what is read when operators have to bind tighter than a limit. -/
def Precedence.layer : Precedence → Layer
  | lowest => .equality
  | equality => .comparison
  | comparison => .sum
  | sum => .product
  | product | unary => .unary
  | call => .call

namespace Layer

def precedence : Layer → Precedence
  | equality => .equality
  | comparison => .comparison
  | sum => .sum
  | product => .product
  | unary => .unary
  | call => .call

def rank (layer : Layer) : Nat := layer.precedence.rank

theorem rank_le (layer : Layer) : layer.rank ≤ 6 := by cases layer <;> decide

theorem equality_rank_le (layer : Layer) : equality.rank ≤ layer.rank := by cases layer <;> decide

theorem rank_tighter {layer : Layer} (h : layer.rank < 6) :
    layer.tighter.rank = layer.rank + 1 := by
  cases layer <;> first | rfl | exact absurd h (by decide)

theorem rank_le_tighter (layer : Layer) : layer.rank ≤ layer.tighter.rank := by
  cases layer <;> decide

theorem rank_inj {a b : Layer} (h : a.rank = b.rank) : a = b := by
  cases a <;> cases b <;> first | rfl | exact absurd h (by decide)

theorem mem_operators {layer : Layer} {k : Kind} (h : k ∈ layer.operators) :
    k.operatorForm? = some .binary ∧ k.precedence = layer.precedence ∧
      layer.precedence.layer = layer.tighter ∧ layer.precedence ≠ .call := by
  cases layer <;> simp only [operators, List.mem_cons, List.not_mem_nil, or_false] at h
  all_goals rcases h with rfl | rfl <;> decide

end Layer

namespace Precedence

theorem rank_layer_le {limit : Precedence} {layer : Layer} (h : limit < layer.precedence) :
    limit.layer.rank ≤ layer.rank := by
  cases limit <;> cases layer <;> first | decide | exact absurd h (by decide)

theorem lt_of_rank_layer_le {limit : Precedence} {layer : Layer} {k : Kind}
    (h : limit.layer.rank ≤ layer.rank) (operator : k ∈ layer.operators) :
    limit < k.precedence := by
  rw [(Layer.mem_operators operator).2.1]
  cases layer <;> simp only [Layer.operators, List.not_mem_nil] at operator
  all_goals cases limit <;> first | decide | exact absurd h (by decide)

theorem lt_call {limit : Precedence} (h : limit ≠ .call) : limit < .call := by
  cases limit <;> first | decide | exact absurd rfl h

theorem rank_le_layer (limit : Precedence) : limit.rank ≤ limit.layer.rank := by
  cases limit <;> decide

end Precedence

namespace Kind

theorem exists_layer {k : Kind} (h : k.operatorForm? = some .binary) :
    ∃ layer : Layer, k ∈ layer.operators :=
  match k, h with
  | .eq, _ | .notEq, _ => ⟨.equality, by decide⟩
  | .lessThan, _ | .greaterThan, _ => ⟨.comparison, by decide⟩
  | .plus, _ | .minus, _ => ⟨.sum, by decide⟩
  | .asterisk, _ | .slash, _ => ⟨.product, by decide⟩

theorem eq_lparen_of_call {k : Kind} (h : k.operatorForm? = some .call) : k = .lparen := by
  cases k <;> first | rfl | exact absurd h (by decide)

theorem mem_continuations (k : Kind) : k ∈ continuations ↔ Precedence.lowest < k.precedence := by
  cases k <;> decide

theorem stmtForm?_of_operand {k : Kind} (h : k.operandForm?.isSome) : k.stmtForm? = none := by
  cases k <;> first | rfl | exact absurd h (by decide)

def Starts (k : Kind) : Prop := k.stmtForm?.isSome ∨ k.operandForm?.isSome

theorem Starts.ne {k : Kind} (h : k.Starts) :
    k ≠ .semicolon ∧ k ≠ .elseWord ∧ k ≠ .rbrace ∧ k ≠ .eof := by
  cases k <;> first | decide | exact h.elim (absurd · (by decide)) (absurd · (by decide))

theorem precedence_rank_le (k : Kind) : k.precedence.rank ≤ 6 := by cases k <;> decide

end Kind

theorem integerValue?_eq_some {literal : String} {value : Int32} :
    integerValue? literal = some value ↔ Numeral literal value := by
  simp only [integerValue?]
  constructor
  · intro h
    split at h
    · next fits =>
      obtain ⟨nonempty, digits, small⟩ := fits
      cases h
      refine ⟨nonempty, List.all_eq_true.1 digits, small, Int32.toInt_ofNat_of_lt ?_⟩
      exact Nat.lt_of_le_of_lt small (by decide)
    · cases h
  · intro h
    rw [if_pos ⟨h.nonempty, List.all_eq_true.2 h.digits, h.small⟩, Option.some.injEq]
    apply Int32.toInt.inj
    rw [h.value]
    exact Int32.toInt_ofNat_of_lt (Nat.lt_of_le_of_lt h.small (by decide))

namespace Derivation

theorem Expression.loosenTo {a b : Layer} (h : a.rank ≤ b.rank) {ts : List Token} {e : Expr}
    {n : Nat} (tight : Expression b ts e n) : Expression a ts e n := by
  induction gap : b.rank - a.rank generalizing a with
  | zero =>
    obtain rfl : a = b := Layer.rank_inj (by omega)
    exact tight
  | succ gap ih =>
    have step : a.tighter.rank = a.rank + 1 := Layer.rank_tighter (by have := b.rank_le; omega)
    exact .loosen (ih (by omega) (by omega))

theorem Expression.exists_head {layer : Layer} {ts : List Token} {e : Expr} {n : Nat} :
    Expression layer ts e n → ∃ t us, ts = t :: us ∧ t.kind.operandForm?.isSome
  | .identifier kind | .integer kind _ => ⟨_, _, rfl, by rw [kind]; rfl⟩
  | .boolean kind => ⟨_, _, rfl, by rw [kind]; split <;> rfl⟩
  | .group (.mk opening _ _) => ⟨_, _, rfl, by rw [opening]; rfl⟩
  | .conditional kind _ _ _ | .function kind _ _ _ | .functionOf kind _ _ _ _ =>
    ⟨_, _, rfl, by rw [kind]; rfl⟩
  | .unary kind _ => ⟨_, _, rfl, by rcases kind with kind | kind <;> rw [kind] <;> rfl⟩
  | .call first _ _ | .callWith first _ _ _ | .binary first _ _ => by
    obtain ⟨t, us, rfl, head⟩ := first.exists_head
    exact ⟨t, _, rfl, head⟩
  | .loosen tight => tight.exists_head

theorem Statement.exists_head {ts : List Token} {s : Stmt} {n : Nat} {exposed : Bool}
    (derived : Statement ts s n exposed) : ∃ t us, ts = t :: us ∧ t.kind.Starts := by
  cases derived with
  | var kind _ _ _ _ | ret kind _ _ | loop kind _ _ _ => exact ⟨_, _, rfl, .inl (by rw [kind]; rfl)⟩
  | expression value _ =>
    obtain ⟨t, us, same, operand⟩ := value.exists_head
    obtain ⟨rfl, rfl⟩ := List.cons.inj same
    exact ⟨_, _, rfl, .inr operand⟩

theorem Expression.pos {layer : Layer} {ts : List Token} {e : Expr} {n : Nat} :
    Expression layer ts e n → 0 < n
  | .identifier _ | .integer _ _ | .boolean _ => Nat.one_pos
  | .group _ | .conditional _ _ _ _ | .function _ _ _ _ | .functionOf _ _ _ _ _ | .unary _ _ =>
    Nat.succ_pos _
  | .call first _ _ => first.pos
  | .callWith first _ _ _ | .binary first _ _ => Nat.lt_of_lt_of_le first.pos (Nat.le_max_left _ _)
  | .loosen tight => tight.pos

end Derivation

end ScriptFront
