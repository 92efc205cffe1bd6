import ScriptFront.Diagnostic.Excerpt
import ScriptFront.Parser.Grammar
import ScriptFront.Tree.Render

/-! What is shown for a source: the canonical text of its program, or an excerpt for
each thing that is wrong with it. -/

namespace ScriptFront

def reportHeading : String := "Parser errors:"

def reportVerdict (source : String) : Except (List Diagnostic) Program → String
  | .ok program => program.render
  | .error diagnostics =>
    reportHeading ++ String.join (diagnostics.map fun d => "\n" ++ d.excerpt source)

def report (source : String) (file : Option String) : String :=
  reportVerdict source (parse source file)

def reportNoted (source : String) (file : Option String) : String × Journal :=
  let (program, p) := readProgram source file
  (reportVerdict source (p.verdict program), p.journal)

@[simp] theorem reportNoted_fst (source : String) (file : Option String) :
    (reportNoted source file).1 = report source file := rfl

end ScriptFront
