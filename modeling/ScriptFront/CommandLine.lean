import ScriptFront.ReadLoop

/-! The program as a function of its arguments, its environment, its files and its
input: what it prints and how it ends. -/

namespace ScriptFront.CommandLine

def scriptDirVariable : String := "TRASHLANG_SCRIPT_DIR"

def usage : String := "Usage: trashlang [-q] [-d <dir>] [file]"

structure Outcome where
  exit : UInt8
  stdout : String
  stderr : String
deriving DecidableEq, Repr, Inhabited

def ofSource (source : String) (file : Option String) : Outcome :=
  match parse source file with
  | .ok program => ⟨0, program.render ++ "\n", ""⟩
  | .error diagnostics =>
    ⟨1, "", String.join (diagnostics.map fun d => d.excerpt source ++ "\n\n")⟩

def ofFile (path : String) (content : Except ReadError String) : Outcome :=
  match content with
  | .error reason => ⟨1, "", ReadFailure.message ⟨path, reason⟩ ++ "\n"⟩
  | .ok source => ofSource source (Path.fileName? path)

section

variable {m : Type → Type} [Monad m] {ρ : Type} [ForIn m ρ (List UInt8)]

/-- The program, ending with its exit code. It reads the file it is given, or else the
lines of `input`. -/
def program (console : Console m) (input : ρ) (args : List String) (env : Option String) :
    m UInt8 :=
  match Config.resolve args env with
  | .error e => do
    console.printError (e.message ++ "\n" ++ usage ++ "\n")
    return 2
  | .ok config =>
    match config.input with
    | some path => do
      let outcome := ofFile path (← console.readText path)
      console.print outcome.stdout
      console.printError outcome.stderr
      return outcome.exit
    | none => do
      match ← ReadLoop.start console config input with
      | none => return 0
      | some fault =>
        console.note #[.loopStopped fault.message]
        return 1

end

def run (args : List String) (env : Option String) (files : FileTable) (stdin : ByteArray) :
    Outcome :=
  let (exit, record) :=
    (program (Console.recorder files) (ReadLoop.inputLines stdin) args env).run {}
  ⟨exit, record.stdout, record.stderr⟩

end ScriptFront.CommandLine
