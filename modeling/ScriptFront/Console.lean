import ScriptFront.FileTable
import ScriptFront.Journal

/-! What the program asks of its surroundings. The recorder answers from a table of files
and keeps what is printed and noted, so that a whole run is a function. -/

namespace ScriptFront

structure Console (m : Type → Type) where
  print : String → m Unit
  printError : String → m Unit
  note : Journal → m Unit
  readText : String → m (Except ReadError String)

structure Record where
  stdout : String := ""
  stderr : String := ""
  journal : Journal := #[]
deriving Repr, Inhabited

def Record.extend (r : Record) (shown : String) (journal : Journal) : Record :=
  { r with stdout := r.stdout ++ shown, journal := r.journal ++ journal }

def Console.recorder (files : FileTable) : Console (StateM Record) where
  print text := modify fun r => { r with stdout := r.stdout ++ text }
  printError text := modify fun r => { r with stderr := r.stderr ++ text }
  note events := modify fun r => { r with journal := r.journal ++ events }
  readText path := return files.read path

namespace Record

theorem run_bind {α β : Type} {x : StateM Record α} {f : α → StateM Record β} {r r' : Record}
    {a : α} (first : x.run r = (a, r')) : (x >>= f).run r = (f a).run r' := by
  rw [StateT.run_bind, first]
  rfl

theorem print_recorder (files : FileTable) (text : String) (r : Record) :
    ((Console.recorder files).print text).run r = ((), r.extend text #[]) := by
  rw [extend, Array.append_empty]
  rfl

theorem printError_recorder (files : FileTable) (text : String) (r : Record) :
    ((Console.recorder files).printError text).run r =
      ((), { r with stderr := r.stderr ++ text }) := rfl

theorem readText_recorder (files : FileTable) (path : String) (r : Record) :
    ((Console.recorder files).readText path).run r = (files.read path, r) := rfl

end Record

end ScriptFront
