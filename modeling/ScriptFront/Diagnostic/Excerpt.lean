import ScriptFront.Diagnostic
import ScriptFront.Text.Blank
import ScriptFront.Text.Line

/-! A diagnostic shown with the line it stands on: the headline, the name of the
input, the line without its indentation, and a caret under the position. The bars
of the three lower rows stand in one column, which depends on the width of the
line number. -/

namespace ScriptFront

def isIndent (c : Char) : Bool := c = ' ' || c = '\t'

namespace Text.Line

def indent (l : Line) : Nat := (l.text.takeWhile isIndent).length

def shown (l : Line) : List Char := dropSpaceEnd (l.text.dropWhile isIndent)

/-- The column of the caret in the shown line. A position inside the indentation
is moved to the first column. -/
def caret (l : Line) : Nat := l.column - l.indent

end Text.Line

namespace Diagnostic

/-- A row that begins at the bar, padded so that the bar follows a line number of
`digits` characters. -/
def barRow (digits : Nat) : List Char := List.replicate (digits + 1) ' ' ++ ['|']

def caretRow (digits caret : Nat) : List Char :=
  barRow digits ++ [' '] ++ List.replicate caret '-' ++ ['^']

def lineRow (l : Text.Line) : List Char := (toString l.number).toList ++ " | ".toList ++ l.shown

def excerpt (d : Diagnostic) (source : String) : String :=
  let line := Text.lineAt source d.position.offset.toNat
  let digits := (toString line.number).length
  d.headline ++ "\n-> " ++ d.position.file ++ "\n" ++ String.ofList (barRow digits) ++ "\n"
    ++ String.ofList (lineRow line) ++ "\n" ++ String.ofList (caretRow digits line.caret)

end Diagnostic

end ScriptFront
