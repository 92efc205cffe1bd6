import ScriptFront.Parser.Statement

/-! The whole grammar. `Inner.levels n` reads expressions and blocks that open at most
`n` further levels. The nesting limit leaves `maxDepth - depth` levels to a parser, so
that many always suffice, and the recursion of the grammar is one on that number. -/

namespace ScriptFront

namespace Inner

def above (inner : Inner) : Inner :=
  ⟨fun limit => Rule.nested (Rule.expression inner limit), Rule.nested (Rule.bracedStmts inner)⟩

def exhausted : Inner :=
  ⟨fun _ => Rule.fail (.nestingTooDeep maxDepth), Rule.fail (.nestingTooDeep maxDepth)⟩

def levels : Nat → Inner
  | 0 => exhausted
  | n + 1 => (levels n).above

end Inner

namespace Parser

def inner (p : Parser) : Inner := Inner.levels (maxDepth - p.depth)

def stmtsUntil (p : Parser) (close : Kind) : List Stmt × Parser :=
  Rule.stmtsUntil p.inner close p.remaining p

/-- Reads all that is left. A program always results; it can be relied on when no
diagnostic was recorded. -/
def program (p : Parser) : Program × Parser :=
  let (statements, q) := p.stmtsUntil .eof
  (⟨statements⟩, q.note (.parsed statements.length q.errors.size))

end Parser

namespace Rule

def within {α : Type} (rule : Inner → Rule α) : Rule α := fun p => rule p.inner p

end Rule

/-- The program of a source, with the parser that has read it. -/
def readProgram (source : String) (file : Option String) : Program × Parser :=
  (Parser.ofSource source file).program

/-- A program counts if nothing was found wrong while it was read. -/
def Parser.verdict (p : Parser) (program : Program) : Except (List Diagnostic) Program :=
  if p.errors.isEmpty then .ok program else .error p.errors.toList

def parse (source : String) (file : Option String) : Except (List Diagnostic) Program :=
  let (program, p) := readProgram source file
  p.verdict program

end ScriptFront
