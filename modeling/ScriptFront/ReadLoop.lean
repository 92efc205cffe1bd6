import ScriptFront.Config
import ScriptFront.Console
import ScriptFront.Report

/-! The read-loop: one prompt a line, one answer a line. A line of the form `file NAME`
reports on a script, any other line is itself the source. A script that cannot be read
is an answer like any other; only input that is not text ends the loop early. -/

namespace ScriptFront

inductive Command where
  | load (name : String)
  | source (text : String)
deriving DecidableEq, Repr, Inhabited

namespace Command

/-- The name after the word `file`, when the line holds these two words only. -/
def scriptName? (line : List Char) : Option (List Char) :=
  match line.dropWhile Text.isSpace with
  | 'f' :: 'i' :: 'l' :: 'e' :: gap :: rest =>
    let word := rest.dropWhile Text.isSpace
    let name := word.takeWhile (!Text.isSpace ·)
    let after := word.dropWhile (!Text.isSpace ·)
    if Text.isSpace gap ∧ name ≠ [] ∧ after.all Text.isSpace then some name else none
  | _ => none

def ofLine (line : String) : Command :=
  match scriptName? line.toList with
  | some name => load (String.ofList name)
  | none => source line

end Command

/-- The report on what was read from a path. The name it gives the input is the last
name in the path, or else the whole path. -/
def reportFile (path : String) (content : Except ReadError String) :
    Except ReadFailure String × Journal :=
  match content with
  | .error reason => (.error ⟨path, reason⟩, #[])
  | .ok source =>
    let (text, journal) := reportNoted source (some ((Path.fileName? path).getD path))
    (.ok text, journal)

def evalFile (files : FileTable) (path : String) : Except ReadFailure String × Journal :=
  reportFile path (files.read path)

section

variable {m : Type → Type} [Monad m]

def answerLine (readText : String → m (Except ReadError String)) (config : Config)
    (line : String) : m (Except ReadFailure String × Journal) :=
  match Command.ofLine line with
  | .load name => do
    let path := config.scriptPath name
    let (answer, journal) := reportFile path (← readText path)
    return (answer, #[.loading path] ++ journal)
  | .source text =>
    let (answer, journal) := reportNoted text none
    return (.ok answer, journal)

end

def evalLine (config : Config) (files : FileTable) (line : String) :
    Except ReadFailure String × Journal :=
  Id.run (answerLine (fun path => pure (files.read path)) config line)

namespace ReadLoop

def prompt : String := ">> "

def banner : String :=
  "\n   ___/-\\___\n  |---------|\n   | | | | |\n   | | | | |\n   | | | | |\n   |_______|\n\n"
    ++ "  TrashLang v0.1\n"

def greeting (config : Config) : String := if config.quiet then "" else banner ++ "\n"

def showAnswer : Except ReadFailure String → String
  | .ok text => text ++ "\n\n"
  | .error failure => failure.message ++ "\n\n"

section

variable {m : Type → Type} [Monad m] (console : Console m) (config : Config)

def reply (line : String) : m Unit := do
  let text := Text.trim line
  unless text.isEmpty do
    let (answer, journal) ← answerLine console.readText config text
    console.note journal
    console.print (showAnswer answer)

/-- One line of the input and the prompt for the next. Only a line that is not text ends
the loop. -/
def round (line : List UInt8) : m (ForInStep (Option ReadError)) := do
  match decodeUtf8 ⟨line.toArray⟩ with
  | .error fault => return .done (some fault)
  | .ok text =>
    reply console config text
    console.print prompt
    return .yield none

/-- The loop over the lines of an input, each with the line feed that closes it. It comes
to the fault that stopped it, if one did. -/
def start {ρ : Type} [ForIn m ρ (List UInt8)] (input : ρ) : m (Option ReadError) := do
  console.print (greeting config)
  console.note #[.loopStarted config.scriptDir]
  console.print prompt
  let stopped ← forIn input none fun line _ => round console config line
  if stopped.isNone then console.note #[.loopFinished]
  return stopped

end

structure Transcript where
  output : String
  stopped : Option ReadError
  journal : Journal
deriving Repr, Inhabited

def inputLines (input : ByteArray) : List (List UInt8) :=
  Text.splitLines (· = 10) input.data.toList

def run (config : Config) (files : FileTable) (input : ByteArray) : Transcript :=
  let (stopped, record) := (start (Console.recorder files) config (inputLines input)).run {}
  ⟨record.stdout, stopped, record.journal⟩

end ReadLoop

end ScriptFront
