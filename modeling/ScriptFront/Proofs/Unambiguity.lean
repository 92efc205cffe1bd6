import ScriptFront.Proofs.RoundTrip

/-! The grammar is unambiguous, however deep a program nests, and so is the canonical text.
A second reader decides every case by the next token, like the parser, but trusts its
input: it checks nothing, records nothing and knows no nesting limit. From tokens that have
a derivation it reads the derived tree back, so they have no other tree. What bounds it is
the number of tokens. What stands inside brackets or behind an operator has fewer of them
than the whole, so a reader for fewer tokens serves there. The loop over operators has had
at most one round for each token on its left, which leaves rounds enough for the rest. -/

namespace ScriptFront

open ScriptFront.Derivation

/-- What is read, and the tokens that are left. -/
abbrev Reading (α : Type) := List Token → α × List Token

structure Reader where
  expr : Precedence → Reading Expr
  block : Reading Block

namespace Reader

def parameters : Reading (List Identifier)
  | [] => ([], [])
  | t :: ts =>
    match t.kind with
    | .ident => let (names, rest) := parameters ts; (⟨t, t.literal⟩ :: names, rest)
    | .comma => parameters ts
    | _ => ([], ts)

variable (r : Reader)

def arguments : Nat → Reading (List Expr)
  | 0, ts => ([], ts)
  | _ + 1, [] => ([], [])
  | n + 1, t :: ts =>
    match t.kind with
    | .rparen => ([], ts)
    | .comma => arguments n ts
    | _ =>
      let (e, rest) := r.expr .lowest (t :: ts)
      let (es, rest) := arguments n rest
      (e :: es, rest)

def alternative : Reading (Option Block)
  | [] => (none, [])
  | t :: ts =>
    if t.kind = .elseWord then let (b, rest) := r.block ts; (some b, rest) else (none, t :: ts)

def operand : Reading Expr
  | [] => (.identifier default, [])
  | t :: ts =>
    match t.kind.operandForm? with
    | some .integer => (.integer t ((integerValue? t.literal).getD 0), ts)
    | some .boolean => (.boolean t (t.kind = .trueWord), ts)
    | some .unary => let (e, rest) := r.expr .unary ts; (.unary t t.literal e, rest)
    | some .group => let (e, rest) := r.expr .lowest ts; (e, rest.tail)
    | some .conditional =>
      let (test, rest) := r.expr .lowest ts.tail
      let (consequence, rest) := r.block rest.tail
      let (otherwise, rest) := alternative r rest
      (.conditional t test consequence otherwise, rest)
    | some .function =>
      let (names, rest) := parameters ts.tail
      let (body, rest) := r.block rest
      (.function t names body, rest)
    | _ => (.identifier ⟨t, t.literal⟩, ts)

def operators (limit : Precedence) : Nat → Expr → Reading Expr
  | 0, left, ts => (left, ts)
  | _ + 1, left, [] => (left, [])
  | n + 1, left, t :: ts =>
    if limit < t.kind.precedence then
      match t.kind.operatorForm? with
      | some .call =>
        let (es, rest) := arguments r n ts
        operators limit n (.call t left es) rest
      | _ =>
        let (right, rest) := r.expr t.kind.precedence ts
        operators limit n (.binary t left t.literal right) rest
    else (left, t :: ts)

def expression (n : Nat) (limit : Precedence) : Reading Expr := fun ts =>
  let (left, rest) := operand r ts
  operators r limit n left rest

def skipSemicolon : List Token → List Token
  | [] => []
  | t :: ts => if t.kind = .semicolon then ts else t :: ts

def stmt : Reading Stmt
  | [] => (.expression default none, [])
  | t :: ts =>
    match t.kind.stmtForm? with
    | some .var =>
      let (e, rest) := r.expr .lowest ts.tail.tail
      (.var t ⟨ts.headD t, (ts.headD t).literal⟩ (some e), skipSemicolon rest)
    | some .ret => let (e, rest) := r.expr .lowest ts; (.ret t (some e), skipSemicolon rest)
    | some .loop =>
      let (test, rest) := r.expr .lowest ts.tail
      let (body, rest) := r.block rest.tail
      (.loop t test body, skipSemicolon rest)
    | none =>
      let (e, rest) := r.expr .lowest (t :: ts)
      (.expression t (some e), skipSemicolon rest)

def stmts : Nat → Reading (List Stmt)
  | 0, ts => ([], ts)
  | _ + 1, [] => ([], [])
  | n + 1, t :: ts =>
    if t.kind = .rbrace then ([], t :: ts)
    else
      let (s, rest) := stmt r (t :: ts)
      let (ss, rest) := stmts n rest
      (s :: ss, rest)

def bracedStmts (n : Nat) : Reading Block
  | [] => (.mk default [], [])
  | t :: ts => let (ss, rest) := stmts r n ts; (.mk t ss, rest.tail)

def upTo : Nat → Reader
  | 0 => ⟨fun _ ts => (.identifier default, ts), fun ts => (.mk default [], ts)⟩
  | n + 1 => ⟨expression (upTo n) (n + 1), bracedStmts (upTo n) (n + 1)⟩

end Reader

def readTokens (ts : List Token) : Program :=
  ⟨(Reader.stmts (.upTo ts.length) ts.length ts).1⟩

def Identifier.bare : Identifier → Identifier := Identifier.mapToken Token.bare

def Expr.bare : Expr → Expr := Expr.mapTokens Token.bare Token.bare

def Block.bare : Block → Block := Block.mapTokens Token.bare Token.bare

def Stmt.bare : Stmt → Stmt := Stmt.mapTokens Token.bare Token.bare

/-- A reader that reads back what has a derivation from at most `k` tokens. -/
structure Reader.Faithful (r : Reader) (k : Nat) : Prop where
  expr : ∀ {limit ts e n rest}, limit ≠ .call → Expression limit.layer ts e n → ts.length ≤ k →
    Follows limit.rank rest → r.expr limit (ts.map Token.bare ++ rest) = (e.bare, rest)
  block : ∀ {ts b n}, Braced ts b n → ts.length ≤ k → ∀ rest,
    r.block (ts.map Token.bare ++ rest) = (b.bare, rest)

namespace Reader

theorem parameters_faithful {ts rest : List Token} {names : List Identifier} {right : Token}
    (derived : Parameters ts names) (closing : right.kind = .rparen) :
    parameters (ts.map Token.bare ++ right :: rest) = (names.map Identifier.bare, rest) := by
  induction derived with
  | @one t ident =>
    have kind : t.bare.kind = .ident := ident
    simp only [List.map_cons, List.map_nil, List.cons_append, List.nil_append, parameters, kind,
      closing]
    rfl
  | @more t comma us names ident separator others ih =>
    have kind : t.bare.kind = .ident := ident
    have comma : comma.bare.kind = .comma := separator
    simp only [List.map_cons, List.cons_append, parameters, kind, comma, ih]
    rfl

theorem parameters_of_none {t : Token} (closing : t.kind = .rparen) (rest : List Token) :
    parameters (t :: rest) = ([], rest) := by
  rw [parameters, closing]

variable {r : Reader} {k n m : Nat} {ts us rest : List Token}

theorem Faithful.lowest (faithful : r.Faithful k) {e : Expr}
    (derived : Expression .equality ts e n) (few : ts.length ≤ k) (follows : Follows 0 rest) :
    r.expr .lowest (ts.map Token.bare ++ rest) = (e.bare, rest) :=
  faithful.expr (by decide : Precedence.lowest ≠ .call) derived few follows

theorem alternative_of_other (h : ∀ t ∈ rest.head?, t.kind ≠ .elseWord) :
    alternative r rest = (none, rest) := by
  cases rest with
  | nil => rfl
  | cons t rest => rw [alternative, if_neg (h t rfl)]

theorem operators_of_looser {limit : Precedence} (h : Follows limit.rank rest) (j : Nat)
    (left : Expr) : operators r limit j left rest = (left, rest) := by
  cases j with
  | zero => rfl
  | succ j =>
    cases rest with
    | nil => rfl
    | cons t rest =>
      have loose : ¬ limit < t.kind.precedence := Nat.not_lt_of_le (h t rfl).1
      rw [operators, if_neg loose]

theorem operators_binary {limit : Precedence} {t : Token} (tight : limit < t.kind.precedence)
    (form : t.kind.operatorForm? = some .binary) {left right : Expr}
    (read : r.expr t.kind.precedence us = (right, rest)) (j : Nat) :
    operators r limit (j + 1) left (t :: us) =
      operators r limit j (.binary t left t.literal right) rest := by
  rw [operators, if_pos tight, form, read]

theorem operators_call {limit : Precedence} {t : Token} (loose : limit ≠ .call)
    (opening : t.kind = .lparen) {left : Expr} {es : List Expr} {j : Nat}
    (read : arguments r j us = (es, rest)) :
    operators r limit (j + 1) left (t :: us) = operators r limit j (.call t left es) rest := by
  have tight : limit < t.kind.precedence := opening ▸ Precedence.lt_call loose
  have form : t.kind.operatorForm? = some .call := opening ▸ rfl
  rw [operators, if_pos tight, form, read]

theorem skipSemicolon_of_terminator {exposed flag : Bool} (stop : Terminator us exposed)
    (separate : Separate flag rest) : skipSemicolon (us.map Token.bare ++ rest) = rest := by
  cases stop with
  | @semicolon t kind =>
    have bare : t.bare.kind = .semicolon := kind
    rw [List.map_singleton, List.singleton_append, skipSemicolon, if_pos bare]
  | missing =>
    rw [List.map_nil, List.nil_append]
    cases rest with
    | nil => rfl
    | cons t rest => rw [skipSemicolon, if_neg (separate t rfl).1]

theorem follows_bare {exposed : Bool} (stop : Terminator us exposed)
    (separate : Separate exposed rest) : Follows 0 (us.map Token.bare ++ rest) := by
  cases stop with
  | @semicolon t kind =>
    have bare : t.bare.kind = .semicolon := kind
    exact .cons bare (by decide)
  | missing => exact Rule.follows_of_terminator .missing separate

section Operand

variable {t : Token}

theorem operand_identifier (kind : t.kind = .ident) :
    operand r ([t].map Token.bare ++ rest) = ((Expr.identifier ⟨t, t.literal⟩).bare, rest) := by
  have form : t.bare.kind.operandForm? = some .identifier := congrArg Kind.operandForm? kind
  rw [List.map_singleton, List.singleton_append, operand, form]
  rfl

theorem operand_integer {value : Int32} (kind : t.kind = .int)
    (numeral : Numeral t.literal value) :
    operand r ([t].map Token.bare ++ rest) = ((Expr.integer t value).bare, rest) := by
  have form : t.bare.kind.operandForm? = some .integer := congrArg Kind.operandForm? kind
  have number : integerValue? t.bare.literal = some value := integerValue?_eq_some.2 numeral
  rw [List.map_singleton, List.singleton_append, operand, form]
  simp only [number, Option.getD_some]
  rfl

theorem operand_boolean {value : Bool} (kind : t.kind = if value then .trueWord else .falseWord) :
    operand r ([t].map Token.bare ++ rest) = ((Expr.boolean t value).bare, rest) := by
  have bare : t.bare.kind = if value then .trueWord else .falseWord := kind
  have form : t.bare.kind.operandForm? = some .boolean := by rw [bare]; cases value <;> rfl
  have same : decide (t.bare.kind = .trueWord) = value := by rw [bare]; cases value <;> rfl
  rw [List.map_singleton, List.singleton_append, operand, form]
  simp only [same]
  rfl

end Operand

/-- Reading an expression comes to the loop over operators just before `rest`, with `e` on
the left and with as many rounds as tokens are left. -/
def Resumes (r : Reader) (k : Nat) (limit : Precedence) (ts rest : List Token) (e : Expr) : Prop :=
  ∃ j, k + 1 ≤ j + ts.length ∧ expression r (k + 1) limit (ts.map Token.bare ++ rest) =
    operators r limit j e.bare rest

namespace Resumes

variable {limit : Precedence} {t left : Token} {e first : Expr}

theorem of_operand (read : operand r (ts.map Token.bare ++ rest) = (e.bare, rest)) :
    Resumes r k limit ts rest e :=
  ⟨k + 1, Nat.le_add_right _ _, by rw [expression, read]⟩

theorem round (resumed : Resumes r k limit ts (t.bare :: (us.map Token.bare ++ rest)) first)
    (few : (ts ++ t :: us).length ≤ k + 1)
    (step : ∀ j, us.length ≤ j →
      operators r limit (j + 1) first.bare (t.bare :: (us.map Token.bare ++ rest)) =
        operators r limit j e.bare rest) :
    Resumes r k limit (ts ++ t :: us) rest e := by
  obtain ⟨j, rounds, run⟩ := resumed
  rw [List.length_append, List.length_cons] at few
  obtain ⟨i, rfl⟩ : ∃ i, j = i + 1 := ⟨j - 1, by omega⟩
  have text : (ts ++ t :: us).map Token.bare ++ rest =
      ts.map Token.bare ++ t.bare :: (us.map Token.bare ++ rest) := by simp
  refine ⟨i, ?_, ?_⟩
  · rw [List.length_append, List.length_cons]
    omega
  · rw [text, run, step i (by omega)]

theorem call {es : List Expr} (loose : limit ≠ .call) (opening : left.kind = .lparen)
    (few : (ts ++ left :: us).length ≤ k + 1)
    (read : ∀ j, us.length ≤ j → arguments r j (us.map Token.bare ++ rest) =
      (mapArguments Token.bare Token.bare es, rest))
    (resumed : Resumes r k limit ts (left.bare :: (us.map Token.bare ++ rest)) e) :
    Resumes r k limit (ts ++ left :: us) rest (.call left e es) := by
  refine resumed.round few fun j rounds => ?_
  rw [operators_call (t := left.bare) loose opening (read j rounds)]
  rfl

end Resumes

variable (faithful : r.Faithful k)
include faithful

theorem parenthesised_faithful {e : Expr} (derived : Parenthesised ts e n)
    (few : ts.length ≤ k + 1) (rest : List Token) :
    ∃ right, r.expr .lowest (ts.map Token.bare ++ rest).tail = (e.bare, right :: rest) := by
  cases derived with
  | @mk left right us _ _ opening inside closing =>
    refine ⟨right.bare, ?_⟩
    have fewer : us.length ≤ k := by
      simp only [List.length_cons, List.length_append] at few
      omega
    have bare : right.bare.kind = .rparen := closing
    have read : r.expr .lowest (us.map Token.bare ++ right.bare :: rest) =
        (e.bare, right.bare :: rest) := faithful.lowest inside fewer (.cons bare (by decide))
    simpa using read

theorem alternative_faithful {b : Option Block} (derived : Alternative ts b n)
    (few : ts.length ≤ k) {rank : Nat} (follows : Follows rank rest) :
    alternative r (ts.map Token.bare ++ rest) =
      (mapAlternative Token.bare Token.bare b, rest) := by
  cases derived with
  | missing => exact alternative_of_other fun t head => (follows t head).2
  | @block word us b _ kind body =>
    have bare : word.bare.kind = .elseWord := kind
    rw [List.map_cons, List.cons_append, alternative, if_pos bare,
      faithful.block body (Nat.le_of_succ_le few) rest]
    rfl

theorem argument_faithful {e : Expr} (derived : Expression .equality ts e n)
    (few : ts.length ≤ k) {rest : List Token} (follows : Follows 0 rest) (j : Nat) :
    arguments r (j + 1) (ts.map Token.bare ++ rest) =
      (e.bare :: (arguments r j rest).1, (arguments r j rest).2) := by
  have read := faithful.lowest derived few follows
  obtain ⟨t, us, rfl, operand⟩ := derived.exists_head
  rw [List.map_cons, List.cons_append] at read ⊢
  have other : t.bare.kind ≠ .rparen ∧ t.bare.kind ≠ .comma := by
    constructor <;> intro kind <;> rw [show t.kind = _ from kind] at operand <;> cases operand
  rw [arguments]
  split
  · next kind => exact absurd kind other.1
  · next kind => exact absurd kind other.2
  · rw [read]

theorem arguments_faithful {right : Token} (closing : right.kind = .rparen) :
    ∀ {ts es n j}, Arguments ts es n → ts.length ≤ k → ts.length < j →
      arguments r j (ts.map Token.bare ++ right :: rest) =
        (mapArguments Token.bare Token.bare es, rest)
  | _, _, _, j, .one argument, few, fuel => by
    obtain ⟨t, us, rfl, -⟩ := argument.exists_head
    obtain ⟨i, rfl⟩ : ∃ i, j = i + 2 := ⟨j - 2, by rw [List.length_cons] at fuel; omega⟩
    rw [argument_faithful faithful argument few (.cons closing (by decide)), arguments, closing]
    rfl
  | _, _, _, j, @Arguments.more comma ts us e es _ _ argument separator others, few, fuel => by
    have kind : comma.bare.kind = .comma := separator
    have follows : Follows 0 (comma.bare :: (us.map Token.bare ++ right :: rest)) :=
      .cons kind (by decide)
    rw [List.length_append] at few fuel
    have first := argument_faithful faithful argument (by omega) follows
    obtain ⟨t, ts, rfl, -⟩ := argument.exists_head
    rw [List.length_cons, List.length_cons] at few fuel
    obtain ⟨i, rfl⟩ : ∃ i, j = i + 2 := ⟨j - 2, by omega⟩
    have tail := arguments_faithful closing (j := i) others (by omega) (by omega)
    have text : (t :: ts ++ comma :: us).map Token.bare ++ right :: rest =
        (t :: ts).map Token.bare ++ comma.bare :: (us.map Token.bare ++ right :: rest) := by simp
    rw [text, first, arguments, kind]
    simp only [tail]
    rfl

section Operand

variable {t : Token} {e : Expr} {block : Block}

theorem operand_group (inside : Parenthesised ts e n) (few : ts.length ≤ k + 1) :
    operand r (ts.map Token.bare ++ rest) = (e.bare, rest) := by
  obtain ⟨right, read⟩ := parenthesised_faithful faithful inside few rest
  cases inside with
  | @mk left right us _ _ opening _ closing =>
    have form : left.bare.kind.operandForm? = some .group := congrArg Kind.operandForm? opening
    rw [List.map_cons, List.cons_append] at read ⊢
    rw [List.tail_cons] at read
    rw [operand, form]
    simp only [read, List.tail_cons]

theorem operand_conditional {vs : List Token} {otherwise : Option Block} {j : Nat}
    (kind : t.kind = .ifWord) (condition : Parenthesised ts e n) (body : Braced us block m)
    (alternative : Alternative vs otherwise j)
    (few : (t :: (ts ++ (us ++ vs))).length ≤ k + 1) {rank : Nat} (follows : Follows rank rest) :
    operand r ((t :: (ts ++ (us ++ vs))).map Token.bare ++ rest) =
      ((Expr.conditional t e block otherwise).bare, rest) := by
  simp only [List.length_cons, List.length_append] at few
  have form : t.bare.kind.operandForm? = some .conditional := congrArg Kind.operandForm? kind
  have text : (t :: (ts ++ (us ++ vs))).map Token.bare ++ rest =
      t.bare :: (ts.map Token.bare ++ (us.map Token.bare ++ (vs.map Token.bare ++ rest))) := by simp
  obtain ⟨right, first⟩ := parenthesised_faithful faithful condition (by omega)
    (us.map Token.bare ++ (vs.map Token.bare ++ rest))
  have second := faithful.block body (by omega) (vs.map Token.bare ++ rest)
  have third := alternative_faithful faithful alternative (by omega) follows
  rw [text, operand, form]
  simp only [first, List.tail_cons, second, third]
  rfl

theorem operand_function (left : Token) {names : List Identifier} (kind : t.kind = .functionWord)
    (read : parameters (ts.map Token.bare ++ (us.map Token.bare ++ rest)) =
      (names.map Identifier.bare, us.map Token.bare ++ rest))
    (body : Braced us block n) (few : us.length ≤ k) :
    operand r ((t :: left :: (ts ++ us)).map Token.bare ++ rest) =
      ((Expr.function t names block).bare, rest) := by
  have form : t.bare.kind.operandForm? = some .function := congrArg Kind.operandForm? kind
  have text : (t :: left :: (ts ++ us)).map Token.bare ++ rest =
      t.bare :: left.bare :: (ts.map Token.bare ++ (us.map Token.bare ++ rest)) := by simp
  have inside := faithful.block body few rest
  rw [text, operand, form]
  simp only [List.tail_cons, read, inside]
  rfl

theorem operand_unary (kind : t.kind = .bang ∨ t.kind = .minus)
    (derived : Expression .unary ts e n) (few : (t :: ts).length ≤ k + 1)
    (follows : Follows Layer.unary.rank rest) :
    operand r ((t :: ts).map Token.bare ++ rest) = ((Expr.unary t t.literal e).bare, rest) := by
  have form : t.bare.kind.operandForm? = some .unary := by
    rcases kind with kind | kind <;> exact congrArg Kind.operandForm? kind
  have inside := faithful.expr (by decide : Precedence.unary ≠ .call) derived
    (Nat.le_of_succ_le_succ few) follows
  rw [List.map_cons, List.cons_append, operand, form]
  simp only [inside]
  rfl

end Operand

theorem Resumes.binary {limit : Precedence} {layer : Layer} {t : Token} {first second : Expr}
    (kind : t.kind ∈ layer.operators) (tight : limit < t.kind.precedence)
    (derived : Expression layer.tighter us second m) (follows : Follows layer.rank rest)
    (few : (ts ++ t :: us).length ≤ k + 1)
    (resumed : Resumes r k limit ts (t.bare :: (us.map Token.bare ++ rest)) first) :
    Resumes r k limit (ts ++ t :: us) rest (.binary t first t.literal second) := by
  obtain ⟨form, precedence, tighter, notCall⟩ := Layer.mem_operators kind
  have fewer : us.length ≤ k := by
    rw [List.length_append, List.length_cons] at few
    omega
  have read := faithful.expr notCall (tighter ▸ derived) fewer follows
  rw [← precedence] at read
  refine resumed.round few fun j _ => ?_
  rw [operators_binary (t := t.bare) tight form read]
  rfl

/-- Reading an expression passes through each expression that its derivation has on the left,
as the parser does. -/
theorem expression_resumes {limit : Precedence} (loose : limit ≠ .call) :
    ∀ {layer ts e n rest}, Expression layer ts e n → limit.layer.rank ≤ layer.rank →
      ts.length ≤ k + 1 → Follows layer.rank rest → Resumes r k limit ts rest e
  | _, _, _, _, _, .identifier kind, _, _, _ => .of_operand (operand_identifier kind)
  | _, _, _, _, _, .integer kind numeral, _, _, _ => .of_operand (operand_integer kind numeral)
  | _, _, _, _, _, .boolean kind, _, _, _ => .of_operand (operand_boolean kind)
  | _, _, _, _, _, .group inside, _, few, _ => .of_operand (operand_group faithful inside few)
  | _, _, _, _, _, .conditional kind condition body otherwise, _, few, follows =>
    .of_operand (operand_conditional faithful kind condition body otherwise few follows)
  | _, _, _, _, rest, @Expression.function word left right us block _ kind _ closing body, _, few,
      _ => by
    simp only [List.length_cons] at few
    have names : parameters ([right].map Token.bare ++ (us.map Token.bare ++ rest)) =
        (([] : List Identifier).map Identifier.bare, us.map Token.bare ++ rest) :=
      parameters_of_none (t := right.bare) closing _
    exact .of_operand (operand_function faithful left kind names body (by omega))
  | _, _, _, _, rest, @Expression.functionOf word left right ts us names block _ kind _ listed
      closing body, _, few, _ => by
    simp only [List.length_cons, List.length_append] at few
    have text : word :: left :: (ts ++ right :: us) = word :: left :: ((ts ++ [right]) ++ us) := by
      simp
    have read : parameters (ts.map Token.bare ++ right.bare :: (us.map Token.bare ++ rest)) =
        (names.map Identifier.bare, us.map Token.bare ++ rest) := parameters_faithful listed closing
    rw [text]
    exact .of_operand (operand_function faithful left kind (by simpa using read) body (by omega))
  | _, _, _, _, _, .unary kind derived, _, few, follows =>
    .of_operand (operand_unary faithful kind derived few follows)
  | _, _, _, _, rest, @Expression.call left right ts callee _ function opening closing, inside,
      few, _ => by
    have fewer : ts.length ≤ k + 1 := by
      rw [List.length_append] at few
      omega
    have bare : right.bare.kind = .rparen := closing
    have none : ∀ j, [right].length ≤ j → arguments r j ([right].map Token.bare ++ rest) =
        (mapArguments Token.bare Token.bare [], rest) := by
      rintro (_ | j) rounds
      · cases rounds
      · rw [List.map_singleton, List.singleton_append, arguments, bare]
        rfl
    exact .call loose opening few none
      (expression_resumes loose function inside fewer (.lparen opening))
  | _, _, _, _, rest, @Expression.callWith left right ts us callee es _ _ function opening list
      closing, inside, few, _ => by
    have fewer : ts.length ≤ k + 1 ∧ us.length ≤ k := by
      simp only [List.length_append, List.length_cons] at few
      omega
    have read : ∀ j, (us ++ [right]).length ≤ j →
        arguments r j ((us ++ [right]).map Token.bare ++ rest) =
          (mapArguments Token.bare Token.bare es, rest) := by
      intro j rounds
      have bare : right.bare.kind = .rparen := closing
      rw [List.length_append, List.length_singleton] at rounds
      rw [List.map_append, List.append_assoc]
      exact arguments_faithful faithful bare list fewer.2 (by omega)
    exact .call loose opening few read
      (expression_resumes loose function inside fewer.1 (.lparen opening))
  | _, _, _, _, _, @Expression.binary layer t ts us _ _ _ _ first kind second, inside, few,
      follows => by
    have fewer : ts.length ≤ k + 1 := by
      rw [List.length_append] at few
      omega
    exact .binary faithful kind (Precedence.lt_of_rank_layer_le inside kind) second follows few
      (expression_resumes loose first inside fewer (.operator kind))
  | _, _, _, _, _, .loosen tight, inside, few, follows =>
    expression_resumes loose tight (Nat.le_trans inside (Layer.rank_le_tighter _)) few
      (follows.mono (Layer.rank_le_tighter _))

theorem expression_faithful {limit : Precedence} (loose : limit ≠ .call) {e : Expr}
    (derived : Expression limit.layer ts e n) (few : ts.length ≤ k + 1)
    (follows : Follows limit.rank rest) :
    expression r (k + 1) limit (ts.map Token.bare ++ rest) = (e.bare, rest) := by
  obtain ⟨j, -, run⟩ := expression_resumes faithful loose derived (Nat.le_refl _) few
    (follows.mono limit.rank_le_layer)
  rw [run, operators_of_looser follows]

theorem stmt_faithful {s : Stmt} {exposed : Bool} (derived : Statement ts s n exposed)
    (few : ts.length ≤ k) (separate : Separate exposed rest) :
    stmt r (ts.map Token.bare ++ rest) = (s.bare, rest) := by
  cases derived with
  | @var word name sign ts us e _ _ kind ident assign value stop =>
    simp only [List.length_cons, List.length_append] at few
    have form : word.bare.kind.stmtForm? = some .var := congrArg Kind.stmtForm? kind
    have text : (word :: name :: sign :: (ts ++ us)).map Token.bare ++ rest = word.bare ::
        name.bare :: sign.bare :: (ts.map Token.bare ++ (us.map Token.bare ++ rest)) := by simp
    have read := faithful.lowest value (by omega) (follows_bare stop separate)
    rw [text, stmt, form]
    simp only [List.tail_cons, List.headD_cons, read, skipSemicolon_of_terminator stop separate]
    rfl
  | @ret word ts us e _ _ kind value stop =>
    simp only [List.length_cons, List.length_append] at few
    have form : word.bare.kind.stmtForm? = some .ret := congrArg Kind.stmtForm? kind
    have text : (word :: (ts ++ us)).map Token.bare ++ rest =
        word.bare :: (ts.map Token.bare ++ (us.map Token.bare ++ rest)) := by simp
    have read := faithful.lowest value (by omega) (follows_bare stop separate)
    rw [text, stmt, form]
    simp only [read, skipSemicolon_of_terminator stop separate]
    rfl
  | @loop word ts us vs test block _ _ _ kind condition body stop =>
    simp only [List.length_cons, List.length_append] at few
    have form : word.bare.kind.stmtForm? = some .loop := congrArg Kind.stmtForm? kind
    have text : (word :: (ts ++ (us ++ vs))).map Token.bare ++ rest = word.bare ::
        (ts.map Token.bare ++ (us.map Token.bare ++ (vs.map Token.bare ++ rest))) := by simp
    obtain ⟨right, first⟩ := parenthesised_faithful faithful condition (by omega)
      (us.map Token.bare ++ (vs.map Token.bare ++ rest))
    have second := faithful.block body (by omega) (vs.map Token.bare ++ rest)
    rw [text, stmt, form]
    simp only [first, List.tail_cons, second, skipSemicolon_of_terminator stop separate]
    rfl
  | @expression first ts us e _ _ value stop =>
    simp only [List.length_cons, List.length_append] at few
    have form : first.bare.kind.stmtForm? = none := by
      obtain ⟨t, vs, same, operand⟩ := value.exists_head
      obtain ⟨rfl, rfl⟩ := List.cons.inj same
      exact Kind.stmtForm?_of_operand operand
    have text : (first :: (ts ++ us)).map Token.bare ++ rest =
        first.bare :: (ts.map Token.bare ++ (us.map Token.bare ++ rest)) := by simp
    have read := faithful.lowest value (by rw [List.length_cons]; omega)
      (follows_bare stop separate)
    rw [List.map_cons, List.cons_append] at read
    rw [text, stmt, form]
    simp only [read, skipSemicolon_of_terminator stop separate]
    rfl

theorem stmts_faithful (closes : Rule.Closes .rbrace rest) :
    ∀ {ts ss n j}, Statements ts ss n → ts.length ≤ k → ts.length ≤ j →
      stmts r j (ts.map Token.bare ++ rest) = (mapStatements Token.bare Token.bare ss, rest)
  | _, _, _, j, .nil, _, _ => by
    cases j with
    | zero => rfl
    | succ j =>
      cases rest with
      | nil => rfl
      | cons t rest =>
        rw [List.map_nil, List.nil_append, stmts, if_pos (closes.2 t rfl)]
        rfl
  | _, _, _, j, @Statements.cons ts us s ss _ _ exposed head tail apart, few, rounds => by
    rw [List.length_append] at few rounds
    have separate : Separate exposed (us.map Token.bare ++ rest) := by
      have given := Rule.separate_of_statements tail apart closes
      cases us with
      | nil => exact given
      | cons t us =>
        rintro u ⟨⟩
        exact given t rfl
    have first := stmt_faithful faithful head (by omega) separate
    obtain ⟨t, vs, rfl, starts⟩ := head.exists_head
    rw [List.length_cons] at few rounds
    obtain ⟨i, rfl⟩ : ∃ i, j = i + 1 := ⟨j - 1, by omega⟩
    have others := stmts_faithful closes (j := i) tail (by omega) (by omega)
    have running : t.bare.kind ≠ .rbrace := starts.ne.2.2.1
    rw [List.map_cons, List.cons_append] at first
    rw [List.map_append, List.append_assoc, List.map_cons, List.cons_append, stmts,
      if_neg running]
    simp only [first, others]
    rfl

theorem bracedStmts_faithful {b : Block} (derived : Braced ts b n) (few : ts.length ≤ k + 1) :
    bracedStmts r (k + 1) (ts.map Token.bare ++ rest) = (b.bare, rest) := by
  cases derived with
  | @mk left right ts ss _ opening body closing =>
    simp only [List.length_cons, List.length_append] at few
    have closes : Rule.Closes .rbrace (right.bare :: rest) := by
      refine ⟨.inl rfl, ?_⟩
      rintro t ⟨⟩
      exact closing
    have inside := stmts_faithful faithful closes (j := k + 1) body (by omega) (by omega)
    have text : (left :: (ts ++ [right])).map Token.bare ++ rest =
        left.bare :: (ts.map Token.bare ++ right.bare :: rest) := by simp
    rw [text, bracedStmts]
    simp only [inside, List.tail_cons]
    rfl

omit faithful

theorem upTo_faithful (k : Nat) : (upTo k).Faithful k := by
  induction k with
  | zero =>
    refine ⟨fun _ derived few _ => ?_, fun derived few _ => ?_⟩
    · obtain ⟨t, us, rfl, -⟩ := derived.exists_head
      cases few
    · obtain ⟨-, -, -⟩ := derived
      cases few
  | succ k ih =>
    exact ⟨fun loose derived few follows => expression_faithful ih loose derived few follows,
      fun derived few _ => bracedStmts_faithful ih derived few⟩

end Reader

theorem readTokens_of_derives {ts : List Token} {program : Program} {n : Nat}
    (derived : Derives ts program n) : readTokens (ts.map Token.bare) = program.bare := by
  have closes : Rule.Closes .rbrace [] := ⟨.inl rfl, nofun⟩
  have read := Reader.stmts_faithful (Reader.upTo_faithful ts.length) closes derived
    (Nat.le_refl _) (Nat.le_refl _)
  rw [List.append_nil, mapStatements_eq_map] at read
  rw [readTokens, List.length_map, read]
  rfl

/-- Tokens of the same kinds and literals have no two programs, however deep these nest. -/
theorem Derives.bare_unique {ts us : List Token} {p q : Program} {n m : Nat}
    (first : Derives ts p n) (second : Derives us q m)
    (same : ts.map Token.symbol = us.map Token.symbol) : p.bare = q.bare := by
  rw [← readTokens_of_derives first, bare_of_symbols same, readTokens_of_derives second]

theorem exists_derives_render {source : String} {file : Option String} {program : Program}
    (accepted : parse source file = .ok program) :
    ∃ ts p n, Derives ts p n ∧ p.core = program.core ∧
      symbols program.render.toList = ts.map Token.symbol := by
  obtain ⟨ts, ss, derived, same, scans⟩ := echo_of_parse accepted
  refine ⟨ts, ⟨ss⟩, _, derived, ?_, ?_⟩
  · rw [mapStatements_eq_map, mapStatements_eq_map] at same
    exact congrArg Program.mk same
  · have nothing : symbols [] = [] := symbols_of_blanks rfl
    have scanned := scans [] nofun
    rwa [List.append_nil, nothing, List.append_nil] at scanned

/-- Accepted programs with the same canonical text agree in everything but the places of
their tokens and the tokens that expression statements begin with. No bound is set on how
deep they nest. -/
theorem render_injective {source other : String} {file name : Option String} {p q : Program}
    (first : parse source file = .ok p) (second : parse other name = .ok q)
    (same : p.render = q.render) : p.core = q.core := by
  obtain ⟨ts, p', n, derived, core, text⟩ := exists_derives_render first
  obtain ⟨us, q', m, derived', core', text'⟩ := exists_derives_render second
  have tokens : ts.map Token.symbol = us.map Token.symbol := by rw [← text, ← text', same]
  rw [← core, ← core', Program.core_eq_of_bare (derived.bare_unique derived' tokens)]

theorem render_injective_grouped :
    ∃ p q, parse "f(-a + b*c)" none = .ok p ∧ parse "(f)(((-a) + (b*c)));" none = .ok q ∧
      p.render = q.render ∧ p.core = q.core := by
  have first : parse "f(-a + b*c)" none = .ok (readProgram "f(-a + b*c)" none).1 :=
    parse_of_isEmpty (by decide +kernel)
  have second : parse "(f)(((-a) + (b*c)));" none =
      .ok (readProgram "(f)(((-a) + (b*c)));" none).1 := parse_of_isEmpty (by decide +kernel)
  have same : (readProgram "f(-a + b*c)" none).1.render =
      (readProgram "(f)(((-a) + (b*c)));" none).1.render := by decide +kernel
  exact ⟨_, _, first, second, same, render_injective first second same⟩

end ScriptFront
