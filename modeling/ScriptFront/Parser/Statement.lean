import ScriptFront.Parser.Expression

/-! Statements and blocks. A broken statement is recorded and left out, and one token
is passed over after every statement whether it could be read or not. A broken value
is recorded too, but its statement stays, with the value absent. -/

namespace ScriptFront.Rule

def value (inner : Inner) : Rule (Option Expr) := optional (inner.expr .lowest)

def expressionStmt (inner : Inner) : Rule Stmt := do
  let token ← current
  let value ← value inner
  skipSemicolon
  return .expression token value

def varStmt (inner : Inner) : Rule Stmt := do
  let token ← current
  expectPeek .ident
  let name ← name
  expectPeek .assign
  advance
  let value ← value inner
  skipSemicolon
  return .var token name value

def returnStmt (inner : Inner) : Rule Stmt := do
  let token ← current
  advance
  let value ← value inner
  skipSemicolon
  return .ret token value

def whileStmt (inner : Inner) : Rule Stmt := do
  let token ← current
  let test ← condition inner
  let body ← bracedBlock inner
  skipSemicolon
  return .loop token test body

def keywordStmt (inner : Inner) : StmtForm → Rule Stmt
  | .var => varStmt inner
  | .ret => returnStmt inner
  | .loop => whileStmt inner

def stmt (inner : Inner) : Rule Stmt := do
  let token ← current
  match token.kind.stmtForm? with
  | some form => keywordStmt inner form
  | none => expressionStmt inner

/-- Statements until `close` or the end token is current. Reading them cannot fail. -/
def stmtsUntil (inner : Inner) (close : Kind) : Nat → Parser → List Stmt × Parser
  | 0, p => ([], p)
  | n + 1, p =>
    if p.current.kind = close ∨ p.current.kind = .eof then ([], p)
    else match stmt inner p with
      | .ok s q =>
        let (rest, r) := stmtsUntil inner close n q.advance
        (s :: rest, r)
      | .error d q => stmtsUntil inner close n (q.record d).advance

def bracedStmts (inner : Inner) : Rule Block := do
  let token ← current
  advance
  let body ← modifyGet fun p => stmtsUntil inner .rbrace p.remaining p
  let closing ← current
  if closing.kind = .rbrace then return .mk token body
  else fail (.unexpectedToken .rbrace closing.kind)

end ScriptFront.Rule
