import Mathlib.Tactic.Common
import ScriptFront.Parser.Expression

/-! The grammar of the script language, stated without reference to the parser. A
derivation relates a list of tokens to the tree it stands for and to the number of
levels that are open at once. A level is opened by each expression that a statement
holds, each expression in parentheses, each condition, argument, operand of a prefix
operator and right operand of an infix operator, and by each block. An operand on the
left and a callee stay on the level of the whole. -/

namespace ScriptFront

/-- The layers of expressions, from loose to tight. The last holds calls and all that needs
no operator. -/
inductive Layer where
  | equality
  | comparison
  | sum
  | product
  | unary
  | call
deriving DecidableEq, Repr

namespace Layer

def tighter : Layer → Layer
  | equality => comparison
  | comparison => sum
  | sum => product
  | product => unary
  | unary | call => call

def operators : Layer → List Kind
  | equality => [.eq, .notEq]
  | comparison => [.lessThan, .greaterThan]
  | sum => [.plus, .minus]
  | product => [.asterisk, .slash]
  | unary | call => []

end Layer

def continuations : List Kind :=
  [.eq, .notEq, .lessThan, .greaterThan, .plus, .minus, .asterisk, .slash, .lparen]

/-- A text of digits whose value is that of a signed 32-bit word. -/
structure Numeral (literal : String) (value : Int32) : Prop where
  nonempty : literal.toList ≠ []
  digits : ∀ c ∈ literal.toList, c.isDigit
  small : decimalValue literal.toList ≤ 2147483647
  value : value.toInt = decimalValue literal.toList

namespace Derivation

inductive Parameters : List Token → List Identifier → Prop where
  | one {t : Token} (ident : t.kind = .ident) : Parameters [t] [⟨t, t.literal⟩]
  | more {t comma : Token} {ts : List Token} {names : List Identifier} (ident : t.kind = .ident)
      (separator : comma.kind = .comma) (others : Parameters ts names) :
      Parameters (t :: comma :: ts) (⟨t, t.literal⟩ :: names)

/-- The optional semicolon of a statement; the flag says that it is missing. -/
inductive Terminator : List Token → Bool → Prop where
  | semicolon {t : Token} (kind : t.kind = .semicolon) : Terminator [t] false
  | missing : Terminator [] true

mutual

/-- `Expression layer ts e n`: the tokens `ts` are the expression `e` of a layer, with `n`
levels open at once. Its own level is counted. -/
inductive Expression : Layer → List Token → Expr → Nat → Prop where
  | identifier {t : Token} (kind : t.kind = .ident) :
      Expression .call [t] (.identifier ⟨t, t.literal⟩) 1
  | integer {t : Token} {value : Int32} (kind : t.kind = .int) (numeral : Numeral t.literal value) :
      Expression .call [t] (.integer t value) 1
  | boolean {t : Token} {value : Bool} (kind : t.kind = if value then .trueWord else .falseWord) :
      Expression .call [t] (.boolean t value) 1
  | group {ts : List Token} {e : Expr} {n : Nat} (body : Parenthesised ts e n) :
      Expression .call ts e (n + 1)
  | conditional {word : Token} {ts us vs : List Token} {test : Expr} {consequence : Block}
      {alternative : Option Block} {n m k : Nat} (kind : word.kind = .ifWord)
      (condition : Parenthesised ts test n) (body : Braced us consequence m)
      (otherwise : Alternative vs alternative k) :
      Expression .call (word :: (ts ++ (us ++ vs)))
        (.conditional word test consequence alternative) (max n (max m k) + 1)
  | function {word left right : Token} {us : List Token} {block : Block} {n : Nat}
      (kind : word.kind = .functionWord) (opening : left.kind = .lparen)
      (closing : right.kind = .rparen) (body : Braced us block n) :
      Expression .call (word :: left :: right :: us) (.function word [] block) (n + 1)
  | functionOf {word left right : Token} {ts us : List Token} {names : List Identifier}
      {block : Block} {n : Nat} (kind : word.kind = .functionWord) (opening : left.kind = .lparen)
      (parameters : Parameters ts names) (closing : right.kind = .rparen)
      (body : Braced us block n) :
      Expression .call (word :: left :: (ts ++ right :: us)) (.function word names block) (n + 1)
  | call {left right : Token} {ts : List Token} {callee : Expr} {n : Nat}
      (function : Expression .call ts callee n) (opening : left.kind = .lparen)
      (closing : right.kind = .rparen) :
      Expression .call (ts ++ [left, right]) (.call left callee []) n
  | callWith {left right : Token} {ts us : List Token} {callee : Expr} {arguments : List Expr}
      {n m : Nat} (function : Expression .call ts callee n) (opening : left.kind = .lparen)
      (list : Arguments us arguments m) (closing : right.kind = .rparen) :
      Expression .call (ts ++ left :: (us ++ [right])) (.call left callee arguments)
        (max n (m + 1))
  | unary {t : Token} {ts : List Token} {e : Expr} {n : Nat}
      (kind : t.kind = .bang ∨ t.kind = .minus) (operand : Expression .unary ts e n) :
      Expression .unary (t :: ts) (.unary t t.literal e) (n + 1)
  | binary {layer : Layer} {t : Token} {ts us : List Token} {left right : Expr} {n m : Nat}
      (first : Expression layer ts left n) (kind : t.kind ∈ layer.operators)
      (second : Expression layer.tighter us right m) :
      Expression layer (ts ++ t :: us) (.binary t left t.literal right) (max n (m + 1))
  | loosen {layer : Layer} {ts : List Token} {e : Expr} {n : Nat}
      (tight : Expression layer.tighter ts e n) : Expression layer ts e n

inductive Parenthesised : List Token → Expr → Nat → Prop where
  | mk {left right : Token} {ts : List Token} {e : Expr} {n : Nat} (opening : left.kind = .lparen)
      (body : Expression .equality ts e n) (closing : right.kind = .rparen) :
      Parenthesised (left :: (ts ++ [right])) e n

inductive Arguments : List Token → List Expr → Nat → Prop where
  | one {ts : List Token} {e : Expr} {n : Nat} (argument : Expression .equality ts e n) :
      Arguments ts [e] n
  | more {comma : Token} {ts us : List Token} {e : Expr} {es : List Expr} {n m : Nat}
      (argument : Expression .equality ts e n) (separator : comma.kind = .comma)
      (others : Arguments us es m) : Arguments (ts ++ comma :: us) (e :: es) (max n m)

inductive Alternative : List Token → Option Block → Nat → Prop where
  | missing : Alternative [] none 0
  | block {word : Token} {ts : List Token} {b : Block} {n : Nat} (kind : word.kind = .elseWord)
      (body : Braced ts b n) : Alternative (word :: ts) (some b) n

inductive Braced : List Token → Block → Nat → Prop where
  | mk {left right : Token} {ts : List Token} {ss : List Stmt} {n : Nat}
      (opening : left.kind = .lbrace) (body : Statements ts ss n) (closing : right.kind = .rbrace) :
      Braced (left :: (ts ++ [right])) (.mk left ss) (n + 1)

/-- `Statement ts s n exposed`: the flag says that the statement ends in an expression
without a semicolon, so that what follows could be read as a part of it. -/
inductive Statement : List Token → Stmt → Nat → Bool → Prop where
  | var {word name sign : Token} {ts us : List Token} {e : Expr} {n : Nat} {exposed : Bool}
      (kind : word.kind = .varWord) (ident : name.kind = .ident) (assign : sign.kind = .assign)
      (value : Expression .equality ts e n) (stop : Terminator us exposed) :
      Statement (word :: name :: sign :: (ts ++ us)) (.var word ⟨name, name.literal⟩ (some e)) n
        exposed
  | ret {word : Token} {ts us : List Token} {e : Expr} {n : Nat} {exposed : Bool}
      (kind : word.kind = .returnWord) (value : Expression .equality ts e n)
      (stop : Terminator us exposed) :
      Statement (word :: (ts ++ us)) (.ret word (some e)) n exposed
  | loop {word : Token} {ts us vs : List Token} {test : Expr} {block : Block} {n m : Nat}
      {missing : Bool} (kind : word.kind = .whileWord) (condition : Parenthesised ts test n)
      (body : Braced us block m) (stop : Terminator vs missing) :
      Statement (word :: (ts ++ (us ++ vs))) (.loop word test block) (max n m) false
  | expression {first : Token} {ts us : List Token} {e : Expr} {n : Nat} {exposed : Bool}
      (value : Expression .equality (first :: ts) e n) (stop : Terminator us exposed) :
      Statement (first :: (ts ++ us)) (.expression first (some e)) n exposed

inductive Statements : List Token → List Stmt → Nat → Prop where
  | nil : Statements [] [] 0
  | cons {ts us : List Token} {s : Stmt} {ss : List Stmt} {n m : Nat} {exposed : Bool}
      (head : Statement ts s n exposed) (tail : Statements us ss m)
      (apart : exposed = true → ∀ t ∈ us.head?, t.kind ∉ continuations) :
      Statements (ts ++ us) (s :: ss) (max n m)

end

end Derivation

/-- The tokens are those of the program, and reading them opens `n` levels at once. -/
def Derives (ts : List Token) (program : Program) (n : Nat) : Prop :=
  Derivation.Statements ts program.statements n

end ScriptFront
