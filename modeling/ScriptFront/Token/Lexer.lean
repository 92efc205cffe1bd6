import ScriptFront.Token

/-! Scanning a text into tokens. Blanks separate tokens and belong to none.
`lexeme` reads the token at the head of a text by longest match, and `Lexer.next`
places it. At the end of the input the same end token comes out again and again,
so a scanned input is a finite list of tokens followed by one that repeats. -/

namespace ScriptFront

def defaultFile : String := "shell"

def isBlank (c : Char) : Bool := c = ' ' || c = '\t' || c = '\n' || c = '\r'

def isLetter (c : Char) : Bool := c.isAlpha || c = '_'

def isWordChar (c : Char) : Bool := isLetter c || c.isDigit

/-- The kind and the characters of the token at the head of a text that does not
begin with a blank. Only the empty text yields the end token. -/
def lexeme : List Char → Kind × List Char
  | [] => (.eof, [])
  | '=' :: '=' :: _ => (.eq, ['=', '='])
  | '!' :: '=' :: _ => (.notEq, ['!', '='])
  | c :: rest =>
    if isLetter c then
      let word := c :: rest.takeWhile isWordChar
      (Kind.ofWord (String.ofList word), word)
    else if c.isDigit then (.int, c :: rest.takeWhile Char.isDigit)
    else (Kind.ofChar c, [c])

theorem lexeme_ne_nil {text : List Char} (h : text ≠ []) : (lexeme text).2 ≠ [] := by
  unfold lexeme
  split <;> try simp_all
  split <;> try simp
  split <;> simp

structure Lexer where
  file : String
  rest : List Char
  offset : Nat
deriving DecidableEq, Repr, Inhabited

namespace Lexer

def ofSource (source : String) (file : Option String) : Lexer :=
  ⟨file.getD defaultFile, source.toList, 0⟩

def atEnd (l : Lexer) : Bool := l.rest.isEmpty

def skipBlanks (l : Lexer) : Lexer :=
  { l with
    rest := l.rest.dropWhile isBlank
    offset := l.offset + (l.rest.takeWhile isBlank).length }

def next (l : Lexer) : Token × Lexer :=
  let here := l.skipBlanks
  let (kind, literal) := lexeme here.rest
  let stop := here.offset + literal.length
  (⟨kind, String.ofList literal, Span.between here.offset stop l.file⟩,
    { l with rest := here.rest.drop literal.length, offset := stop })

theorem skipBlanks_length_le (l : Lexer) : l.skipBlanks.rest.length ≤ l.rest.length :=
  (List.dropWhile_sublist isBlank).length_le

theorem next_length_lt (l : Lexer) (h : l.skipBlanks.rest ≠ []) :
    l.next.2.rest.length < l.rest.length := by
  have literal := List.length_pos_iff.2 (lexeme_ne_nil h)
  have text := List.length_pos_iff.2 h
  have blanks := l.skipBlanks_length_le
  simp only [next, List.length_drop]
  omega

end Lexer

/-- A scanned input: the tokens that have text, then `last` for ever. -/
structure TokenStream where
  body : List Token
  last : Token
deriving DecidableEq, Repr, Inhabited

namespace TokenStream

def get (s : TokenStream) (i : Nat) : Token := s.body.getD i s.last

def rest (s : TokenStream) : TokenStream := { s with body := s.body.tail }

def toList (s : TokenStream) : List Token := s.body ++ [s.last]

def push (t : Token) (s : TokenStream) : TokenStream := { s with body := t :: s.body }

theorem get_rest (s : TokenStream) (i : Nat) : s.rest.get i = s.get (i + 1) := by
  obtain ⟨body, last⟩ := s
  cases body <;> simp [rest, get]

@[simp] theorem rest_last (s : TokenStream) : s.rest.last = s.last := rfl

theorem toList_push (t : Token) (s : TokenStream) : (push t s).toList = t :: s.toList := rfl

end TokenStream

namespace Lexer

/-- All that is left to scan. -/
def stream (l : Lexer) : TokenStream :=
  if h : l.skipBlanks.rest = [] then ⟨[], l.next.1⟩
  else
    have := l.next_length_lt h
    l.next.2.stream.push l.next.1
termination_by l.rest.length

end Lexer

def tokenize (source : String) (file : Option String) : List Token :=
  (Lexer.ofSource source file).stream.toList

end ScriptFront
