import ScriptFront.Journal
import ScriptFront.Token.Lexer

/-! The parser's state and the elementary rules. The parser sees two tokens: the
current one and the one after it, called `peek`. A rule starts with its first token
current and, if it succeeds, ends with its last token current. A rule that fails
keeps the state it reached, so reading can go on from there. -/

namespace ScriptFront

structure Parser where
  input : TokenStream
  errors : Array Diagnostic
  depth : Nat
  journal : Journal
deriving DecidableEq, Repr, Inhabited

def maxDepth : Nat := 256

namespace Parser

def ofLexer (l : Lexer) : Parser :=
  let input := l.stream
  ⟨input, #[], 0, #[.scanned (input.get 0), .scanned (input.get 1), .parserCreated l.file]⟩

def ofSource (source : String) (file : Option String) : Parser :=
  ofLexer (Lexer.ofSource source file)

def current (p : Parser) : Token := p.input.get 0

def peek (p : Parser) : Token := p.input.get 1

def remaining (p : Parser) : Nat := p.input.body.length

def note (p : Parser) (e : Event) : Parser := { p with journal := p.journal.push e }

/-- Moves one token on; the token that becomes visible is noted. -/
def advance (p : Parser) : Parser :=
  { p with input := p.input.rest }.note (.scanned (p.input.get 2))

def record (p : Parser) (d : Diagnostic) : Parser :=
  { p with errors := p.errors.push d }.note (.recorded d)

@[simp] theorem advance_input (p : Parser) : p.advance.input = p.input.rest := rfl

@[simp] theorem advance_errors (p : Parser) : p.advance.errors = p.errors := rfl

@[simp] theorem advance_depth (p : Parser) : p.advance.depth = p.depth := rfl

theorem advance_current (p : Parser) : p.advance.current = p.peek := p.input.get_rest 0

theorem advance_remaining (p : Parser) : p.advance.remaining = p.remaining - 1 := by
  simp [remaining, TokenStream.rest]

@[simp] theorem record_input (p : Parser) (d : Diagnostic) : (p.record d).input = p.input := rfl

@[simp] theorem record_errors (p : Parser) (d : Diagnostic) :
    (p.record d).errors = p.errors.push d := rfl

@[simp] theorem record_depth (p : Parser) (d : Diagnostic) : (p.record d).depth = p.depth := rfl

end Parser

/-- A step of the parser that yields a value or the diagnostic that stopped it. -/
abbrev Rule (α : Type) := EStateM Diagnostic Parser α

namespace Rule

def current : Rule Token := fun p => .ok p.current p

def peekIs (kind : Kind) : Rule Bool := fun p => .ok (p.peek.kind = kind) p

def remaining : Rule Nat := fun p => .ok p.remaining p

def advance : Rule Unit := fun p => .ok () p.advance

def fail {α : Type} (cause : Cause) : Rule α := fun p => .error ⟨cause, p.current.position⟩ p

def expectPeek (expected : Kind) : Rule Unit := fun p =>
  if p.peek.kind = expected then .ok () p.advance
  else .error ⟨.unexpectedToken expected p.peek.kind, p.peek.position⟩ p

def nested {α : Type} (rule : Rule α) : Rule α := fun p =>
  if p.depth < maxDepth then
    match rule { p with depth := p.depth + 1 } with
    | .ok a q => .ok a { q with depth := q.depth - 1 }
    | .error d q => .error d { q with depth := q.depth - 1 }
  else fail (.nestingTooDeep maxDepth) p

/-- A rule whose failure is recorded and leaves its value absent. -/
def optional {α : Type} (rule : Rule α) : Rule (Option α) := fun p =>
  match rule p with
  | .ok a q => .ok (some a) q
  | .error d q => .ok none (q.record d)

def skipSemicolon : Rule Unit := fun p =>
  if p.peek.kind = .semicolon then .ok () p.advance else .ok () p

end Rule

end ScriptFront
