/-! Paths as text. A slash divides a path into segments, each of which stays where it
is, goes up or names something. Segments that stay do not count when paths are compared,
except for a dot at the very beginning. -/

namespace ScriptFront.Path

inductive Segment where
  | stay
  | up
  | name (text : String)
deriving DecidableEq, Repr, Inhabited

def Segment.ofChars (piece : List Char) : Segment :=
  if piece = [] ∨ piece = ['.'] then .stay
  else if piece = ['.', '.'] then .up
  else .name (String.ofList piece)

def pieces : List Char → List (List Char)
  | [] => [[]]
  | c :: rest =>
    if c = '/' then [] :: pieces rest
    else match pieces rest with
      | [] => [[c]]
      | piece :: others => (c :: piece) :: others

def segments (path : String) : List Segment := (pieces path.toList).map Segment.ofChars

def isAbsolute (path : String) : Bool := path.toList.head? = some '/'

inductive Part where
  | root
  | here
  | up
  | name (text : String)
deriving DecidableEq, Repr, Inhabited

def Part.ofSegment? : Segment → Option Part
  | .stay => none
  | .up => some .up
  | .name text => some (.name text)

def Part.first? (path : String) : Option Part :=
  if isAbsolute path then some .root
  else if (pieces path.toList).head? = some ['.'] then some .here
  else none

/-- What the path means part by part. Two paths are equal if their parts are. -/
def parts (path : String) : List Part :=
  (Part.first? path).toList ++ (segments path).filterMap Part.ofSegment?

def fileName? (path : String) : Option String :=
  match (parts path).getLast? with
  | some (.name text) => some text
  | _ => none

/-- The path of `name` seen from `dir`. An absolute name stands for itself, and an
empty directory adds nothing. -/
def join (dir name : String) : String :=
  if isAbsolute name || dir.isEmpty then name
  else if dir.toList.getLast? = some '/' then dir ++ name
  else dir ++ "/" ++ name

end ScriptFront.Path
