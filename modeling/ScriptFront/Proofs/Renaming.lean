import ScriptFront.Tree

/-! Trees with other tokens in the same places. -/

namespace ScriptFront

def Identifier.mapToken (f : Token → Token) (name : Identifier) : Identifier :=
  { name with token := f name.token }

mutual

/-- Changes the tokens of a tree. The token that an expression statement begins with is
changed by `g`, all others by `f`. -/
def Expr.mapTokens (f g : Token → Token) : Expr → Expr
  | .identifier name => .identifier (name.mapToken f)
  | .integer token value => .integer (f token) value
  | .boolean token value => .boolean (f token) value
  | .unary token operator operand => .unary (f token) operator (operand.mapTokens f g)
  | .binary token left operator right =>
    .binary (f token) (left.mapTokens f g) operator (right.mapTokens f g)
  | .conditional token condition consequence alternative =>
    .conditional (f token) (condition.mapTokens f g) (consequence.mapTokens f g)
      (mapAlternative f g alternative)
  | .function token parameters body =>
    .function (f token) (parameters.map (Identifier.mapToken f)) (body.mapTokens f g)
  | .call token callee arguments =>
    .call (f token) (callee.mapTokens f g) (mapArguments f g arguments)

def mapAlternative (f g : Token → Token) : Option Block → Option Block
  | none => none
  | some block => some (block.mapTokens f g)

def mapArguments (f g : Token → Token) : List Expr → List Expr
  | [] => []
  | e :: rest => e.mapTokens f g :: mapArguments f g rest

def mapValue (f g : Token → Token) : Option Expr → Option Expr
  | none => none
  | some e => some (e.mapTokens f g)

def Block.mapTokens (f g : Token → Token) : Block → Block
  | .mk token body => .mk (f token) (mapStatements f g body)

def Stmt.mapTokens (f g : Token → Token) : Stmt → Stmt
  | .var token name value => .var (f token) (name.mapToken f) (mapValue f g value)
  | .ret token value => .ret (f token) (mapValue f g value)
  | .expression token value => .expression (g token) (mapValue f g value)
  | .block body => .block (body.mapTokens f g)
  | .loop token condition body => .loop (f token) (condition.mapTokens f g) (body.mapTokens f g)

def mapStatements (f g : Token → Token) : List Stmt → List Stmt
  | [] => []
  | s :: rest => s.mapTokens f g :: mapStatements f g rest

end

section Composition

variable (f g h k : Token → Token)

mutual

theorem Expr.mapTokens_mapTokens : ∀ e : Expr,
    (e.mapTokens f g).mapTokens h k = e.mapTokens (h ∘ f) (k ∘ g)
  | .identifier _ | .integer _ _ | .boolean _ _ => rfl
  | .unary _ _ operand => by simp only [Expr.mapTokens, operand.mapTokens_mapTokens]; rfl
  | .binary _ left _ right => by
    simp only [Expr.mapTokens, left.mapTokens_mapTokens, right.mapTokens_mapTokens]
    rfl
  | .conditional _ condition consequence alternative => by
    simp only [Expr.mapTokens, condition.mapTokens_mapTokens, consequence.mapTokens_mapTokens,
      mapAlternative_mapAlternative alternative]
    rfl
  | .function _ parameters body => by
    simp only [Expr.mapTokens, body.mapTokens_mapTokens, List.map_map]
    rfl
  | .call _ callee arguments => by
    simp only [Expr.mapTokens, callee.mapTokens_mapTokens, mapArguments_mapArguments arguments]
    rfl

theorem mapAlternative_mapAlternative : ∀ b : Option Block,
    mapAlternative h k (mapAlternative f g b) = mapAlternative (h ∘ f) (k ∘ g) b
  | none => rfl
  | some b => by simp only [mapAlternative, b.mapTokens_mapTokens]

theorem mapArguments_mapArguments : ∀ es : List Expr,
    mapArguments h k (mapArguments f g es) = mapArguments (h ∘ f) (k ∘ g) es
  | [] => rfl
  | e :: es => by simp only [mapArguments, e.mapTokens_mapTokens, mapArguments_mapArguments es]

theorem mapValue_mapValue : ∀ v : Option Expr,
    mapValue h k (mapValue f g v) = mapValue (h ∘ f) (k ∘ g) v
  | none => rfl
  | some e => by simp only [mapValue, e.mapTokens_mapTokens]

theorem Block.mapTokens_mapTokens : ∀ b : Block,
    (b.mapTokens f g).mapTokens h k = b.mapTokens (h ∘ f) (k ∘ g)
  | .mk _ body => by simp only [Block.mapTokens, mapStatements_mapStatements body]; rfl

theorem Stmt.mapTokens_mapTokens : ∀ s : Stmt,
    (s.mapTokens f g).mapTokens h k = s.mapTokens (h ∘ f) (k ∘ g)
  | .var _ _ value => by simp only [Stmt.mapTokens, mapValue_mapValue value]; rfl
  | .ret _ value => by simp only [Stmt.mapTokens, mapValue_mapValue value]; rfl
  | .expression _ value => by simp only [Stmt.mapTokens, mapValue_mapValue value]; rfl
  | .block body => by simp only [Stmt.mapTokens, body.mapTokens_mapTokens]
  | .loop _ condition body => by
    simp only [Stmt.mapTokens, condition.mapTokens_mapTokens, body.mapTokens_mapTokens]
    rfl

theorem mapStatements_mapStatements : ∀ ss : List Stmt,
    mapStatements h k (mapStatements f g ss) = mapStatements (h ∘ f) (k ∘ g) ss
  | [] => rfl
  | s :: ss => by simp only [mapStatements, s.mapTokens_mapTokens, mapStatements_mapStatements ss]

end

end Composition

section Identity

theorem Identifier.mapToken_id : Identifier.mapToken id = id := rfl

mutual

theorem Expr.mapTokens_id : ∀ e : Expr, e.mapTokens id id = e
  | .identifier _ | .integer _ _ | .boolean _ _ => rfl
  | .unary _ _ operand => by rw [Expr.mapTokens, operand.mapTokens_id]; rfl
  | .binary _ left _ right => by rw [Expr.mapTokens, left.mapTokens_id, right.mapTokens_id]; rfl
  | .conditional _ condition consequence alternative => by
    rw [Expr.mapTokens, condition.mapTokens_id, consequence.mapTokens_id,
      mapAlternative_id alternative]
    rfl
  | .function _ parameters body => by
    rw [Expr.mapTokens, body.mapTokens_id, Identifier.mapToken_id, List.map_id]
    rfl
  | .call _ callee arguments => by
    rw [Expr.mapTokens, callee.mapTokens_id, mapArguments_id arguments]
    rfl

theorem mapAlternative_id : ∀ b : Option Block, mapAlternative id id b = b
  | none => rfl
  | some b => by rw [mapAlternative, b.mapTokens_id]

theorem mapArguments_id : ∀ es : List Expr, mapArguments id id es = es
  | [] => rfl
  | e :: es => by rw [mapArguments, e.mapTokens_id, mapArguments_id es]

theorem mapValue_id : ∀ v : Option Expr, mapValue id id v = v
  | none => rfl
  | some e => by rw [mapValue, e.mapTokens_id]

theorem Block.mapTokens_id : ∀ b : Block, b.mapTokens id id = b
  | .mk _ body => by rw [Block.mapTokens, mapStatements_id body]; rfl

theorem Stmt.mapTokens_id : ∀ s : Stmt, s.mapTokens id id = s
  | .var _ _ value => by rw [Stmt.mapTokens, mapValue_id value]; rfl
  | .ret _ value => by rw [Stmt.mapTokens, mapValue_id value]; rfl
  | .expression _ value => by rw [Stmt.mapTokens, mapValue_id value]; rfl
  | .block body => by rw [Stmt.mapTokens, body.mapTokens_id]
  | .loop _ condition body => by
    rw [Stmt.mapTokens, condition.mapTokens_id, body.mapTokens_id]
    rfl

theorem mapStatements_id : ∀ ss : List Stmt, mapStatements id id ss = ss
  | [] => rfl
  | s :: ss => by rw [mapStatements, s.mapTokens_id, mapStatements_id ss]

end

end Identity

theorem mapStatements_eq_map (f g : Token → Token) (ss : List Stmt) :
    mapStatements f g ss = ss.map (Stmt.mapTokens f g) := by
  induction ss with
  | nil => rfl
  | cons s ss ih => rw [mapStatements, ih, List.map_cons]

def Program.mapTokens (f g : Token → Token) (program : Program) : Program :=
  ⟨program.statements.map (Stmt.mapTokens f g)⟩

theorem Program.mapTokens_mapTokens (f g h k : Token → Token) (program : Program) :
    (program.mapTokens f g).mapTokens h k = program.mapTokens (h ∘ f) (k ∘ g) := by
  simp only [Program.mapTokens, ← mapStatements_eq_map, mapStatements_mapStatements]

end ScriptFront
