import ScriptFront.Path

/-! Settings of a run, taken from the command line and the environment. -/

namespace ScriptFront

structure Config where
  scriptDir : String
  extension : String
  quiet : Bool
  input : Option String
deriving DecidableEq, Repr, Inhabited

inductive UsageError where
  | unknownFlag (flag : String)
  | missingValue (flag : String)
  | tooManyInputs (first second : String)
deriving DecidableEq, Repr, Inhabited

def UsageError.message : UsageError → String
  | unknownFlag flag => "Unknown option " ++ flag
  | missingValue flag => "Option " ++ flag ++ " requires a value"
  | tooManyInputs first second =>
    "Only one input file can be given, got " ++ first ++ " and " ++ second

structure Request where
  quiet : Bool
  dir : Option String
  input : Option String
deriving DecidableEq, Repr, Inhabited

namespace Request

def none : Request := ⟨false, .none, .none⟩

def looksLikeFlag (arg : String) : Bool :=
  match arg.toList with
  | '-' :: _ :: _ => true
  | _ => false

/-- Reads arguments from the left into `r`. A directory flag takes the argument after
it as it stands, and a later one overrides it. -/
def ofArgs (r : Request) : List String → Except UsageError Request
  | [] => .ok r
  | arg :: rest =>
    if arg = "-q" ∨ arg = "--quiet" then ofArgs { r with quiet := true } rest
    else if arg = "-d" ∨ arg = "--dir" then
      match rest with
      | [] => .error (.missingValue arg)
      | dir :: rest => ofArgs { r with dir := some dir } rest
    else if looksLikeFlag arg then .error (.unknownFlag arg)
    else match r.input with
      | some first => .error (.tooManyInputs first arg)
      | .none => ofArgs { r with input := some arg } rest

end Request

namespace Config

def defaultScriptDir : String := "scripts"

def defaultExtension : String := "txt"

def default : Config := ⟨defaultScriptDir, defaultExtension, false, none⟩

def envScriptDir (env : Option String) : String :=
  match env with
  | some dir => if dir.isEmpty then defaultScriptDir else dir
  | none => defaultScriptDir

def resolve (args : List String) (env : Option String) : Except UsageError Config := do
  let r ← Request.none.ofArgs args
  return ⟨r.dir.getD (envScriptDir env), defaultExtension, r.quiet, r.input⟩

def agrees (a b : Config) : Bool :=
  Path.parts a.scriptDir = Path.parts b.scriptDir && a.extension = b.extension
    && a.quiet = b.quiet && a.input.map Path.parts = b.input.map Path.parts

/-- The extension is added to the whole name, whatever dots it has. -/
def scriptPath (c : Config) (name : String) : String :=
  Path.join c.scriptDir (name ++ "." ++ c.extension)

end Config

end ScriptFront
