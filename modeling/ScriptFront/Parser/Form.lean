import ScriptFront.Token

/-! What a token can begin. The first token of a statement selects its form, the
first token of an expression the form of its operand, and a token after a complete
operand the operator it stands for and how tightly that binds. -/

namespace ScriptFront

/-- How tightly an operator holds its operands, from loose to tight. -/
inductive Precedence where
  | lowest
  | equality
  | comparison
  | sum
  | product
  | unary
  | call
deriving DecidableEq, Repr, Inhabited

namespace Precedence

def rank : Precedence → Nat
  | lowest => 0
  | equality => 1
  | comparison => 2
  | sum => 3
  | product => 4
  | unary => 5
  | call => 6

instance : LT Precedence := ⟨fun a b => a.rank < b.rank⟩

instance (a b : Precedence) : Decidable (a < b) := inferInstanceAs (Decidable (a.rank < b.rank))

theorem lt_iff (a b : Precedence) : a < b ↔ a.rank < b.rank := Iff.rfl

end Precedence

inductive StmtForm where
  | var
  | ret
  | loop
deriving DecidableEq, Repr, Inhabited

inductive OperandForm where
  | identifier
  | integer
  | boolean
  | unary
  | group
  | conditional
  | function
deriving DecidableEq, Repr, Inhabited

inductive OperatorForm where
  | binary
  | call
deriving DecidableEq, Repr, Inhabited

namespace Kind

def precedence : Kind → Precedence
  | eq | notEq => .equality
  | lessThan | greaterThan => .comparison
  | plus | minus => .sum
  | slash | asterisk => .product
  | lparen => .call
  | _ => .lowest

/-- Statements that a keyword introduces. All others are expressions. -/
def stmtForm? : Kind → Option StmtForm
  | varWord => some .var
  | returnWord => some .ret
  | whileWord => some .loop
  | _ => none

def operandForm? : Kind → Option OperandForm
  | ident => some .identifier
  | int => some .integer
  | trueWord | falseWord => some .boolean
  | bang | minus => some .unary
  | lparen => some .group
  | ifWord => some .conditional
  | functionWord => some .function
  | _ => none

def operatorForm? : Kind → Option OperatorForm
  | plus | minus | slash | asterisk | eq | notEq | lessThan | greaterThan => some .binary
  | lparen => some .call
  | _ => none

theorem operatorForm?_isSome (k : Kind) : k.operatorForm?.isSome ↔ .lowest < k.precedence := by
  cases k <;> decide

end Kind

end ScriptFront
