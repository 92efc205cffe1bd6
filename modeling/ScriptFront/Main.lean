import ScriptFront.CommandLine

/-! The program on the system's own console, with its files and its input. What is noted
goes nowhere. -/

namespace ScriptFront.Terminal

def readErrorOf : IO.Error → ReadError
  | .noFileOrDirectory _ _ _ => .notFound
  | .inappropriateType _ 20 _ => .notADirectory
  | .inappropriateType _ 21 _ => .isADirectory
  | .invalidArgument _ 36 _ => .nameTooLong
  | e => .other (toString e)

def readText (path : String) : IO (Except ReadError String) := do
  match FileTable.pathFault? path with
  | some fault => return .error fault
  | none =>
    try
      return decodeUtf8 (← IO.FS.readBinFile path)
    catch e =>
      return .error (readErrorOf e)

def putText (stream : IO.FS.Stream) (text : String) : IO Unit := do
  stream.putStr text
  stream.flush

def console (output errors : IO.FS.Stream) : Console IO where
  print := putText output
  printError := putText errors
  note _ := pure ()
  readText := readText

structure Input where
  stream : IO.FS.Stream

partial def Input.readLine (input : Input) (line : ByteArray) : IO ByteArray := do
  let next ← input.stream.read 1
  if next.isEmpty then return line
  else if next.toList = [10] then return line ++ next
  else input.readLine (line ++ next)

partial def Input.fold {β : Type} (input : Input) (state : β)
    (round : List UInt8 → β → IO (ForInStep β)) : IO β := do
  let line ← input.readLine ByteArray.empty
  if line.isEmpty then return state
  match ← round line.toList state with
  | .done last => return last
  | .yield next => input.fold next round

instance : ForIn IO Input (List UInt8) := ⟨Input.fold⟩

end ScriptFront.Terminal

open ScriptFront in
def main (args : List String) : IO UInt32 := do
  let console := Terminal.console (← IO.getStdout) (← IO.getStderr)
  let input : Terminal.Input := ⟨← IO.getStdin⟩
  let env ← IO.getEnv CommandLine.scriptDirVariable
  return (← CommandLine.program console input args env).toUInt32
