import ScriptFront.Tree

/-! The canonical text of a tree. Operators are always parenthesised. An expression
that another statement follows is closed by a semicolon, since what follows could
otherwise be read as its continuation. -/

namespace ScriptFront

mutual

def Expr.render : Expr → String
  | .identifier name => name.value
  | .integer token _ => token.literal
  | .boolean token _ => token.literal
  | .unary _ operator operand => "(" ++ operator ++ operand.render ++ ")"
  | .binary _ left operator right => "(" ++ left.render ++ operator ++ right.render ++ ")"
  | .conditional token condition consequence alternative =>
    token.literal ++ " (" ++ condition.render ++ ") " ++ consequence.render
      ++ renderElse alternative
  | .function token parameters body =>
    token.literal ++ "(" ++ ",".intercalate (parameters.map Identifier.value) ++ ") "
      ++ body.render
  | .call _ callee arguments => callee.render ++ "(" ++ renderArguments arguments ++ ")"

def renderElse : Option Block → String
  | none => ""
  | some block => " else " ++ block.render

def renderArguments : List Expr → String
  | [] => ""
  | [e] => e.render
  | e :: rest => e.render ++ "," ++ renderArguments rest

def renderValue : Option Expr → String
  | none => ""
  | some e => e.render

def Block.render : Block → String
  | .mk _ [] => "\x7b\x7d"
  | .mk _ body => "\x7b " ++ renderStatements body ++ " \x7d"

def Stmt.render : Stmt → String
  | .var token name value => token.literal ++ " " ++ name.value ++ " = " ++ renderValue value ++ ";"
  | .ret token value => token.literal ++ " " ++ renderValue value ++ ";"
  | .expression _ value => renderValue value
  | .block body => body.render
  | .loop token condition body => token.literal ++ " (" ++ condition.render ++ ") " ++ body.render

def renderStatements : List Stmt → String
  | [] => ""
  | [s] => s.render
  | s :: rest => s.render ++ (if s.isExpression then "; " else " ") ++ renderStatements rest

end

def Program.render (p : Program) : String := renderStatements p.statements

end ScriptFront
