import ScriptFront.Parser.Form
import ScriptFront.Parser.Rule
import ScriptFront.Tree

/-! Expressions, by operator precedence. The rules here are given those for the
expressions and blocks inside as an argument, `Inner`, so that each of them is an
ordinary definition; `Parser.Grammar` closes the recursion. Every loop runs at most
once per token that is left, which never cuts it short. -/

namespace ScriptFront

/-- The rules for what stands one level deeper. -/
structure Inner where
  expr : Precedence → Rule Expr
  block : Rule Block

def decimalValue (digits : List Char) : Nat :=
  digits.foldl (fun value c => 10 * value + (c.toNat - '0'.toNat)) 0

def maxInteger : Nat := 2147483647

/-- The value of a literal made of digits that fits in a signed 32-bit word. -/
def integerValue? (literal : String) : Option Int32 :=
  let digits := literal.toList
  if digits ≠ [] ∧ digits.all Char.isDigit ∧ decimalValue digits ≤ maxInteger then
    some (Int32.ofNat (decimalValue digits))
  else none

namespace Rule

def name : Rule Identifier := do
  let token ← current
  return ⟨token, token.literal⟩

def identifier : Rule Expr := do
  return .identifier (← name)

def integer : Rule Expr := do
  let token ← current
  match integerValue? token.literal with
  | some value => return .integer token value
  | none => fail (.integerOutOfRange token.literal)

def boolean : Rule Expr := do
  let token ← current
  return .boolean token (token.kind = .trueWord)

def unary (inner : Inner) : Rule Expr := do
  let token ← current
  advance
  let operand ← inner.expr .unary
  return .unary token token.literal operand

def group (inner : Inner) : Rule Expr := do
  advance
  let e ← inner.expr .lowest
  expectPeek .rparen
  return e

def condition (inner : Inner) : Rule Expr := do
  expectPeek .lparen
  advance
  let e ← inner.expr .lowest
  expectPeek .rparen
  return e

def bracedBlock (inner : Inner) : Rule Block := do
  expectPeek .lbrace
  inner.block

def alternative (inner : Inner) : Rule (Option Block) := do
  if ← peekIs .elseWord then
    advance
    return some (← bracedBlock inner)
  else
    return none

def conditional (inner : Inner) : Rule Expr := do
  let token ← current
  let test ← condition inner
  let consequence ← bracedBlock inner
  return .conditional token test consequence (← alternative inner)

def moreParameters : Nat → Rule (List Identifier)
  | 0 => return []
  | n + 1 => do
    if ← peekIs .comma then
      advance
      expectPeek .ident
      let parameter ← name
      return parameter :: (← moreParameters n)
    else
      return []

def parameters : Rule (List Identifier) := do
  if ← peekIs .rparen then
    advance
    return []
  else
    expectPeek .ident
    let first ← name
    let others ← moreParameters (← remaining)
    expectPeek .rparen
    return first :: others

def function (inner : Inner) : Rule Expr := do
  let token ← current
  expectPeek .lparen
  let parameters ← parameters
  return .function token parameters (← bracedBlock inner)

def operand (inner : Inner) : OperandForm → Rule Expr
  | .identifier => identifier
  | .integer => integer
  | .boolean => boolean
  | .unary => unary inner
  | .group => group inner
  | .conditional => conditional inner
  | .function => function inner

/-- The right operand is read at the operator's own precedence, so an operator that
binds equally is left to the caller and operators associate to the left. -/
def binary (inner : Inner) (left : Expr) : Rule Expr := do
  let token ← current
  advance
  let right ← inner.expr token.kind.precedence
  return .binary token left token.literal right

def moreArguments (inner : Inner) : Nat → Rule (List Expr)
  | 0 => return []
  | n + 1 => do
    if ← peekIs .comma then
      advance
      advance
      let argument ← inner.expr .lowest
      return argument :: (← moreArguments inner n)
    else
      return []

def arguments (inner : Inner) : Rule (List Expr) := do
  if ← peekIs .rparen then
    advance
    return []
  else
    advance
    let first ← inner.expr .lowest
    let others ← moreArguments inner (← remaining)
    expectPeek .rparen
    return first :: others

def call (inner : Inner) (callee : Expr) : Rule Expr := do
  let token ← current
  return .call token callee (← arguments inner)

def operator (inner : Inner) (left : Expr) : OperatorForm → Rule Expr
  | .binary => binary inner left
  | .call => call inner left

def tighterOperator (limit : Precedence) : Rule (Option OperatorForm) := fun p =>
  let kind := p.peek.kind
  .ok (if kind ≠ .semicolon ∧ limit < kind.precedence then kind.operatorForm? else none) p

/-- Folds the operators that bind tighter than `limit` into `left`. -/
def operators (inner : Inner) (limit : Precedence) : Nat → Expr → Rule Expr
  | 0, left => return left
  | n + 1, left => do
    match ← tighterOperator limit with
    | none => return left
    | some form =>
      advance
      let left ← operator inner left form
      operators inner limit n left

def firstOperand (inner : Inner) : Rule Expr := do
  let token ← current
  match token.kind.operandForm? with
  | none => fail (.noOperand token.kind)
  | some form => operand inner form

def expression (inner : Inner) (limit : Precedence) : Rule Expr := do
  let left ← firstOperand inner
  operators inner limit (← remaining) left

end Rule

end ScriptFront
