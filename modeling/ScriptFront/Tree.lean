import ScriptFront.Token

/-! Syntax trees. Every node keeps the token it was built from. A value that could
not be read is absent from its statement, so a tree exists for every input. -/

namespace ScriptFront

structure Identifier where
  token : Token
  value : String
deriving DecidableEq, Repr, Inhabited

mutual

inductive Expr where
  | identifier (name : Identifier)
  | integer (token : Token) (value : Int32)
  | boolean (token : Token) (value : Bool)
  | unary (token : Token) (operator : String) (operand : Expr)
  | binary (token : Token) (left : Expr) (operator : String) (right : Expr)
  | conditional (token : Token) (condition : Expr) (consequence : Block)
      (alternative : Option Block)
  | function (token : Token) (parameters : List Identifier) (body : Block)
  | call (token : Token) (callee : Expr) (arguments : List Expr)

/-- Statements in braces; `token` is the opening brace. -/
inductive Block where
  | mk (token : Token) (body : List Stmt)

inductive Stmt where
  | var (token : Token) (name : Identifier) (value : Option Expr)
  | ret (token : Token) (value : Option Expr)
  | expression (token : Token) (value : Option Expr)
  | block (body : Block)
  | loop (token : Token) (condition : Expr) (body : Block)

end

namespace Block

def token : Block → Token
  | mk token _ => token

def body : Block → List Stmt
  | mk _ body => body

end Block

namespace Expr

def token : Expr → Token
  | identifier name => name.token
  | integer token _ | boolean token _ | unary token _ _ | binary token _ _ _
  | conditional token _ _ _ | function token _ _ | call token _ _ => token

end Expr

namespace Stmt

def token : Stmt → Token
  | var token _ _ | ret token _ | expression token _ | loop token _ _ => token
  | block body => body.token

def isExpression : Stmt → Bool
  | expression _ _ => true
  | _ => false

end Stmt

structure Program where
  statements : List Stmt

namespace Program

def tokenLiteral (p : Program) : String :=
  match p.statements with
  | [] => ""
  | s :: _ => s.token.literal

def size (p : Program) : Nat := p.statements.length

def isEmpty (p : Program) : Bool := p.statements.isEmpty

end Program

end ScriptFront
