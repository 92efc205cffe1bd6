import ScriptFront.Path

/-! Files held in memory, and how a path finds its way to one of them. An absolute path
starts at the root and any other at the working directory; two dots lead to the directory
above, and from the root back to the root. An entry that the system refuses to read or to
enter keeps the reason that it gives. -/

namespace ScriptFront

inductive ReadError where
  | notFound
  | notADirectory
  | isADirectory
  | nameTooLong
  | nulInPath
  | notUtf8
  | other (text : String)
deriving DecidableEq, Repr, Inhabited

def ReadError.message : ReadError → String
  | notFound => "No such file or directory (os error 2)"
  | notADirectory => "Not a directory (os error 20)"
  | isADirectory => "Is a directory (os error 21)"
  | nameTooLong => "File name too long (os error 36)"
  | nulInPath => "file name contained an unexpected NUL byte"
  | notUtf8 => "stream did not contain valid UTF-8"
  | other text => text

structure ReadFailure where
  path : String
  reason : ReadError
deriving DecidableEq, Repr, Inhabited

def ReadFailure.message (f : ReadFailure) : String :=
  "Could not read " ++ f.path ++ ": " ++ f.reason.message

def decodeUtf8 (bytes : ByteArray) : Except ReadError String :=
  match String.fromUTF8? bytes with
  | some text => .ok text
  | none => .error .notUtf8

inductive FileEntry where
  | file (content : ByteArray)
  | directory
  | unreadable (reason : ReadError)
  | sealed (reason : ReadError)
deriving Inhabited

/-- Entries by the names on the way to them from the root, the latest first. -/
structure FileTable where
  workingDirectory : List String
  entries : List (List String × FileEntry)

namespace FileTable

def empty : FileTable := ⟨["work"], []⟩

def origin (table : FileTable) (path : String) : List String :=
  if Path.isAbsolute path then [] else table.workingDirectory

/-- A way through directories that are made as it needs them, and those among them that
were stepped back from. -/
structure Trail where
  way : List String
  left : List (List String)
deriving DecidableEq, Repr, Inhabited

def Trail.follow (trail : Trail) : List Path.Segment → Trail
  | [] => trail
  | .stay :: rest => trail.follow rest
  | .up :: rest => Trail.follow ⟨trail.way.dropLast, trail.way :: trail.left⟩ rest
  | .name text :: rest => Trail.follow ⟨trail.way ++ [text], trail.left⟩ rest

def trail (table : FileTable) (path : String) : Trail :=
  Trail.follow ⟨table.origin path, []⟩ (Path.segments path)

/-- Puts an entry at a path, with the directories on the way. A later entry replaces
an earlier one of the same place. -/
def put (table : FileTable) (path : String) (entry : FileEntry) : FileTable :=
  let trail := table.trail path
  { table with
    entries := (trail.way, entry) ::
      (trail.left.map fun way => (way, FileEntry.directory)) ++ table.entries }

def ofList (entries : List (String × FileEntry)) : FileTable :=
  entries.foldl (fun table (path, entry) => table.put path entry) empty

/-- What stands at the end of a way. A directory is there if it was entered, or if some
entry or the working directory lies below it. -/
def find? (table : FileTable) (way : List String) : Option FileEntry :=
  match table.entries.lookup way with
  | some entry => some entry
  | none =>
    if (table.workingDirectory :: table.entries.map (·.1)).any (way.isPrefixOf ·) then
      some .directory
    else none

inductive Place where
  | file (content : ByteArray)
  | unreadable (reason : ReadError)
  | directory (way : List String)
deriving Inhabited

def maxName : Nat := 255

def maxPath : Nat := 4095

def enter (table : FileTable) (way : List String) (name : String) : Except ReadError Place :=
  if maxName < name.utf8ByteSize then .error .nameTooLong
  else match table.find? (way ++ [name]) with
    | some (.file content) => .ok (.file content)
    | some (.unreadable reason) => .ok (.unreadable reason)
    | some (.sealed reason) => .error reason
    | some .directory => .ok (.directory (way ++ [name]))
    | none => .error .notFound

def step (table : FileTable) : Place → Path.Segment → Except ReadError Place
  | .file _, _ | .unreadable _, _ => .error .notADirectory
  | .directory way, .stay => .ok (.directory way)
  | .directory way, .up => .ok (.directory way.dropLast)
  | .directory way, .name text => table.enter way text

def walk (table : FileTable) : Place → List Path.Segment → Except ReadError Place
  | place, [] => .ok place
  | place, segment :: rest => do table.walk (← table.step place segment) rest

def pathFault? (path : String) : Option ReadError :=
  if path.toList.contains (Char.ofNat 0) then some .nulInPath
  else if maxPath < path.utf8ByteSize then some .nameTooLong
  else if path.isEmpty then some .notFound
  else none

def resolve (table : FileTable) (path : String) : Except ReadError Place :=
  match pathFault? path with
  | some fault => .error fault
  | none => table.walk (.directory (table.origin path)) (Path.segments path)

/-- The text of the file at a path. -/
def read (table : FileTable) (path : String) : Except ReadError String := do
  match ← table.resolve path with
  | .file content => decodeUtf8 content
  | .unreadable reason => .error reason
  | .directory _ => .error .isADirectory

end FileTable

end ScriptFront
