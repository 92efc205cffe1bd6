/-! Texts as lines. A line keeps the end mark that closes it, so lines put back
together give the text; only the last line may lack the mark. `lineAt` finds the
line that holds a position. -/

namespace ScriptFront.Text

def splitLines {α : Type} (isEnd : α → Bool) : List α → List (List α)
  | [] => []
  | a :: rest =>
    if isEnd a then [a] :: splitLines isEnd rest
    else match splitLines isEnd rest with
      | [] => [[a]]
      | line :: lines => (a :: line) :: lines

theorem flatten_splitLines {α : Type} (isEnd : α → Bool) (text : List α) :
    (splitLines isEnd text).flatten = text := by
  induction text with
  | nil => rfl
  | cons a rest ih =>
    rw [splitLines]
    split
    · simp [ih]
    · split
      · next h => simpa [h] using ih
      · next h => simpa [h] using ih

structure Line where
  number : Nat
  text : List Char
  column : Nat
deriving DecidableEq, Repr, Inhabited

/-- Walks the lines from the one numbered `number`. A position past the end
stands after the last character, which is on a new empty line when that
character closes its line. -/
def lineAmong (number : Nat) : List (List Char) → Nat → Line
  | [], _ => ⟨number, [], 0⟩
  | line :: lines, position =>
    if position < line.length then ⟨number, line, position⟩
    else if line.getLast? = some '\n' then lineAmong (number + 1) lines (position - line.length)
    else ⟨number, line, line.length⟩

def lineAt (source : String) (position : Nat) : Line :=
  lineAmong 1 (splitLines (· = '\n') source.toList) position

end ScriptFront.Text
