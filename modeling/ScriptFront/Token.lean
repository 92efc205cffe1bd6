import ScriptFront.Position

/-! Tokens of the script language. A token keeps its kind, the text it was
scanned from and where that text stands. The kind of a word comes from the
keyword table, the kind of a lone character from `Kind.ofChar`. -/

namespace ScriptFront

inductive Kind where
  | illegal
  | eof
  | ident
  | int
  | assign
  | plus
  | minus
  | slash
  | asterisk
  | lessThan
  | greaterThan
  | bang
  | eq
  | notEq
  | comma
  | semicolon
  | lparen
  | rparen
  | lbrace
  | rbrace
  | functionWord
  | varWord
  | trueWord
  | falseWord
  | ifWord
  | elseWord
  | returnWord
  | whileWord
deriving DecidableEq, Repr, Inhabited

namespace Kind

def name : Kind → String
  | illegal => "ILLEGAL"
  | eof => "EOF"
  | ident => "IDENT"
  | int => "INT"
  | assign => "ASSIGN"
  | plus => "PLUS"
  | minus => "MINUS"
  | slash => "SLASH"
  | asterisk => "ASTERISK"
  | lessThan => "LESSTHAN"
  | greaterThan => "GREATERTHAN"
  | bang => "BANG"
  | eq => "EQ"
  | notEq => "NOT_EQ"
  | comma => "COMMA"
  | semicolon => "SEMICOLON"
  | lparen => "LPAREN"
  | rparen => "RPAREN"
  | lbrace => "LBRACE"
  | rbrace => "RBRACE"
  | functionWord => "FUNCTION"
  | varWord => "VAR"
  | trueWord => "TRUE"
  | falseWord => "FALSE"
  | ifWord => "IF"
  | elseWord => "ELSE"
  | returnWord => "RETURN"
  | whileWord => "WHILE"

def all : List Kind :=
  [illegal, eof, ident, int, assign, plus, minus, slash, asterisk, lessThan, greaterThan, bang,
    eq, notEq, comma, semicolon, lparen, rparen, lbrace, rbrace, functionWord, varWord, trueWord,
    falseWord, ifWord, elseWord, returnWord, whileWord]

theorem mem_all (k : Kind) : k ∈ all := by cases k <;> decide

def ofName? (text : String) : Option Kind := all.find? (·.name = text)

def keywords : List (String × Kind) :=
  [("function", functionWord), ("fn", functionWord), ("var", varWord), ("true", trueWord),
    ("false", falseWord), ("if", ifWord), ("else", elseWord), ("return", returnWord),
    ("while", whileWord)]

def isKeyword (word : String) : Bool := (keywords.lookup word).isSome

def ofWord (word : String) : Kind := (keywords.lookup word).getD ident

def ofChar : Char → Kind
  | '=' => assign
  | '+' => plus
  | '-' => minus
  | '/' => slash
  | '*' => asterisk
  | '<' => lessThan
  | '>' => greaterThan
  | '!' => bang
  | ',' => comma
  | ';' => semicolon
  | '(' => lparen
  | ')' => rparen
  | '{' => lbrace
  | '}' => rbrace
  | _ => illegal

end Kind

structure Token where
  kind : Kind
  literal : String
  span : Span
deriving DecidableEq, Repr, Inhabited

namespace Token

def position (t : Token) : Position := t.span.start

def isOneOf (t : Token) (kinds : List Kind) : Bool := kinds.contains t.kind

/-- Tokens whose kind does not fix their text show it in parentheses. -/
def display (t : Token) : String :=
  if t.isOneOf [.ident, .int, .illegal] then t.kind.name ++ " (" ++ t.literal ++ ")"
  else t.kind.name

end Token

end ScriptFront
