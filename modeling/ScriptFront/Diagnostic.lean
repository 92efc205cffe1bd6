import ScriptFront.Token

/-! What can be wrong with a script, and where. A diagnostic stands at the token
that caused it. Some causes come with a tip. -/

namespace ScriptFront

inductive Cause where
  | unexpectedToken (expected received : Kind)
  | noOperand (kind : Kind)
  | integerOutOfRange (literal : String)
  | nestingTooDeep (limit : Nat)
deriving DecidableEq, Repr, Inhabited

namespace Cause

def message : Cause → String
  | unexpectedToken expected received =>
    "Expected token " ++ expected.name ++ ", got " ++ received.name ++ " instead"
  | noOperand kind => "No prefix parse function for " ++ kind.name
  | integerOutOfRange literal => "Could not parse " ++ literal ++ " as integer"
  | nestingTooDeep limit => "Nesting exceeds the limit of " ++ toString limit ++ " levels"

def tip? : Cause → Option String
  | unexpectedToken .rparen _ => some "unbalanced parentheses"
  | unexpectedToken .rbrace .eof => some "block is never closed"
  | unexpectedToken _ _ => none
  | noOperand .illegal => some "unrecognised character"
  | noOperand _ => none
  | integerOutOfRange _ => some "integer literals must fit in a signed 32-bit integer"
  | nestingTooDeep _ => none

end Cause

structure Diagnostic where
  cause : Cause
  position : Position
deriving DecidableEq, Repr, Inhabited

namespace Diagnostic

def message (d : Diagnostic) : String := d.cause.message

def tip? (d : Diagnostic) : Option String := d.cause.tip?

/-- The message, with the tip in parentheses if there is one. -/
def headline (d : Diagnostic) : String :=
  match d.tip? with
  | none => "Error: " ++ d.message
  | some tip => "Error: " ++ d.message ++ " (" ++ tip ++ ")"

end Diagnostic

end ScriptFront
