import ScriptFront.Tree

/-! The nodes of a tree in the order of the source. Statements and blocks are the wholes
among them; names and expressions are their parts. -/

namespace ScriptFront

/-- A part of a tree that holds a token. -/
inductive Node where
  | name (name : Identifier)
  | expr (e : Expr)
  | block (b : Block)
  | stmt (s : Stmt)

mutual

/-- The nodes of an expression in the order of the source: an infix operator stands between
its operands, a call behind what is called and every other node before its parts. -/
def Expr.nodes : Expr → List Node
  | .identifier name => [.name name]
  | .integer token value => [.expr (.integer token value)]
  | .boolean token value => [.expr (.boolean token value)]
  | .unary token operator operand => .expr (.unary token operator operand) :: operand.nodes
  | .binary token left operator right =>
    left.nodes ++ .expr (.binary token left operator right) :: right.nodes
  | .conditional token condition consequence alternative =>
    .expr (.conditional token condition consequence alternative) ::
      (condition.nodes ++ (consequence.nodes ++ alternativeNodes alternative))
  | .function token parameters body =>
    .expr (.function token parameters body) :: (parameters.map .name ++ body.nodes)
  | .call token callee arguments =>
    callee.nodes ++ .expr (.call token callee arguments) :: argumentNodes arguments

def alternativeNodes : Option Block → List Node
  | none => []
  | some block => block.nodes

def argumentNodes : List Expr → List Node
  | [] => []
  | e :: rest => e.nodes ++ argumentNodes rest

def valueNodes : Option Expr → List Node
  | none => []
  | some e => e.nodes

def Block.nodes : Block → List Node
  | .mk token body => .block (.mk token body) :: statementNodes body

def Stmt.nodes : Stmt → List Node
  | .var token name value => .stmt (.var token name value) :: .name name :: valueNodes value
  | .ret token value => .stmt (.ret token value) :: valueNodes value
  | .expression token value => .stmt (.expression token value) :: valueNodes value
  | .block body => body.nodes
  | .loop token condition body =>
    .stmt (.loop token condition body) :: (condition.nodes ++ body.nodes)

def statementNodes : List Stmt → List Node
  | [] => []
  | s :: rest => s.nodes ++ statementNodes rest

end

def Program.nodes (program : Program) : List Node := statementNodes program.statements

theorem statementNodes_eq_flatMap (ss : List Stmt) : statementNodes ss = ss.flatMap Stmt.nodes := by
  induction ss with
  | nil => rfl
  | cons s ss ih => rw [statementNodes, ih, List.flatMap_cons]

def Node.isPart : Node → Bool
  | .name _ | .expr _ => true
  | .block _ | .stmt _ => false

def Stmt.isIncomplete : Stmt → Bool
  | .var _ _ none | .ret _ none | .expression _ none => true
  | _ => false

/-- The statements and blocks among some nodes. -/
def wholes (ns : List Node) : List Node := ns.filter (!·.isPart)

@[simp] theorem wholes_nil : wholes [] = [] := rfl

@[simp] theorem wholes_append (ns ms : List Node) : wholes (ns ++ ms) = wholes ns ++ wholes ms :=
  List.filter_append ..

@[simp] theorem wholes_expr (e : Expr) (ns : List Node) : wholes (.expr e :: ns) = wholes ns := rfl

@[simp] theorem wholes_name (name : Identifier) (ns : List Node) :
    wholes (.name name :: ns) = wholes ns := rfl

@[simp] theorem wholes_stmt (s : Stmt) (ns : List Node) :
    wholes (.stmt s :: ns) = .stmt s :: wholes ns := rfl

@[simp] theorem wholes_block (b : Block) (ns : List Node) :
    wholes (.block b :: ns) = .block b :: wholes ns := rfl

@[simp] theorem wholes_names (names : List Identifier) : wholes (names.map .name) = [] := by
  induction names with
  | nil => rfl
  | cons name names ih => exact ih

end ScriptFront
