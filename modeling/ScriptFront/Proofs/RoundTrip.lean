import ScriptFront.Proofs.Acceptance
import ScriptFront.Tree.Render

/-! The canonical text of an accepted program is read back as that program, as long as it
does not nest too deeply. The text has a derivation of its own. It opens as many levels as
the tree is high: the parentheses around every operator count, which those of the source
need not. Spaces, semicolons and the signs between tokens keep the text apart into the
tokens of that derivation. -/

namespace ScriptFront

mutual

/-- The levels that are open at once in the text of an expression. -/
def Expr.height : Expr → Nat
  | .identifier _ | .integer _ _ | .boolean _ _ => 1
  | .unary _ _ operand => 2 + operand.height
  | .binary _ left _ right => 1 + max left.height (1 + right.height)
  | .conditional _ condition consequence alternative =>
    1 + max condition.height (max consequence.height (alternativeHeight alternative))
  | .function _ _ body => 1 + body.height
  | .call _ callee arguments => max callee.height (argumentsHeight arguments)

def alternativeHeight : Option Block → Nat
  | none => 0
  | some block => block.height

def argumentsHeight : List Expr → Nat
  | [] => 0
  | e :: rest => max (1 + e.height) (argumentsHeight rest)

def valueHeight : Option Expr → Nat
  | none => 0
  | some e => e.height

def Block.height : Block → Nat
  | .mk _ body => 1 + statementsHeight body

def Stmt.height : Stmt → Nat
  | .var _ _ value | .ret _ value | .expression _ value => valueHeight value
  | .block body => body.height
  | .loop _ condition body => max condition.height body.height

def statementsHeight : List Stmt → Nat
  | [] => 0
  | s :: rest => max s.height (statementsHeight rest)

end

def Program.height (program : Program) : Nat := statementsHeight program.statements

def Token.forget (_ : Token) : Token := default

/-- The program without the places of its tokens and without the tokens that expression
statements begin with. -/
def Program.core (program : Program) : Program := program.mapTokens Token.bare Token.forget

theorem Program.core_eq_of_bare {a b : Program} (h : a.bare = b.bare) : a.core = b.core := by
  have forget : ∀ program : Program,
      program.core = program.bare.mapTokens Token.bare Token.forget :=
    fun program => (program.mapTokens_mapTokens Token.bare Token.bare Token.bare Token.forget).symm
  rw [forget a, forget b, h]

def Apart (more : List Char) : Prop := ∀ c ∈ more.head?, isWordChar c = false

/-- What may follow a sign that an equality sign would change. -/
def Opens (text : List Char) : Prop := ∃ c rest, text = c :: rest ∧ c ≠ '='

/-- The text scans to the tokens, whatever follows that is apart from it. -/
def Scans (text : List Char) (ts : List Token) : Prop :=
  ∀ more, Apart more → symbols (text ++ more) = ts.map Token.symbol ++ symbols more

theorem Apart.append {a b : List Char} (ha : Apart a) (hb : Apart b) : Apart (a ++ b) := by
  cases a with
  | nil => exact hb
  | cons c a => exact ha

theorem Apart.cons {c : Char} (h : isWordChar c = false) (rest : List Char) :
    Apart (c :: rest) := by
  rintro d ⟨⟩
  exact h

theorem Opens.append {text : List Char} (h : Opens text) (more : List Char) :
    Opens (text ++ more) := by
  obtain ⟨c, rest, rfl, other⟩ := h
  exact ⟨c, rest ++ more, rfl, other⟩

namespace Scans

variable {text more : List Char} {ts us : List Token} {t : Token}

theorem nil : Scans [] [] := fun _ _ => rfl

theorem append (first : Scans text ts) (second : Scans more us) (apart : Apart more) :
    Scans (text ++ more) (ts ++ us) := by
  intro rest free
  rw [List.append_assoc, first _ (apart.append free), second _ free, List.map_append,
    List.append_assoc]

theorem blank (h : Scans text ts) : Scans (' ' :: text) ts := by
  intro rest free
  rw [List.cons_append, symbols_blank rfl, h rest free]

theorem token (lexical : t.Lexical) (h : Scans text ts)
    (breaks : ∀ rest, Apart rest → Breaks t.kind (text ++ rest)) :
    Scans (t.literal.toList ++ text) (t :: ts) := by
  intro rest free
  rw [List.append_assoc, symbols_token lexical (breaks rest free), h rest free]
  rfl

theorem word (lexical : t.Lexical) (kind : t.kind.isSign = false) (h : Scans text ts)
    (apart : Apart text) : Scans (t.literal.toList ++ text) (t :: ts) := by
  refine h.token lexical fun rest free c head => ⟨fun _ => apart.append free c head, ?_⟩
  rintro (sign | sign) <;> rw [sign] at kind <;> cases kind

theorem sign (lexical : t.Lexical) (kind : t.kind.isSign) (h : Scans text ts)
    (opens : t.kind = .assign ∨ t.kind = .bang → Opens text) :
    Scans (t.literal.toList ++ text) (t :: ts) := by
  refine h.token lexical fun rest _ c head => ⟨fun other => ?_, fun double => ?_⟩
  · rw [kind] at other
    cases other
  · obtain ⟨d, more, rfl, different⟩ := opens double
    cases head
    exact different

end Scans

/-- The signs that no other character changes. -/
def marks : List Char := ['(', ')', '\x7b', '\x7d', ',', ';']

def Token.mark (c : Char) : Token := ⟨Kind.ofChar c, String.ofList [c], default⟩

theorem isWordChar_of_mark {c : Char} (h : c ∈ marks) : isWordChar c = false := by
  simp only [marks, List.mem_cons, List.not_mem_nil, or_false] at h
  rcases h with rfl | rfl | rfl | rfl | rfl | rfl <;> decide

theorem lone_of_mark {c : Char} (h : c ∈ marks) : Lone c [] ∧ isBlank c = false := by
  have word := isWordChar_of_mark h
  rw [isWordChar, Bool.or_eq_false_iff] at word
  refine ⟨⟨word.1, word.2, by simp⟩, ?_⟩
  simp only [marks, List.mem_cons, List.not_mem_nil, or_false] at h
  rcases h with rfl | rfl | rfl | rfl | rfl | rfl <;> decide

theorem kind_of_mark {c : Char} (h : c ∈ marks) :
    (Kind.ofChar c).isSign ∧ ¬ (Kind.ofChar c = .assign ∨ Kind.ofChar c = .bang) ∧
      Kind.ofChar c ≠ .eq ∧ Kind.ofChar c ≠ .notEq := by
  simp only [marks, List.mem_cons, List.not_mem_nil, or_false] at h
  rcases h with rfl | rfl | rfl | rfl | rfl | rfl <;> decide

theorem Apart.mark {c : Char} (h : c ∈ marks) (rest : List Char) : Apart (c :: rest) :=
  .cons (isWordChar_of_mark h) rest

theorem Token.Lexical.sign_cases {t : Token} (lexical : t.Lexical) (sign : t.kind.isSign) :
    (∃ c, t.literal.toList = [c] ∧ Kind.ofChar c = t.kind ∧ isWordChar c = false) ∨
      (t.literal.toList = ['=', '='] ∧ t.kind = .eq) ∨
      (t.literal.toList = ['!', '='] ∧ t.kind = .notEq) := by
  have scanned := lexical.scanned
  rcases text_cases t.literal.toList with text | ⟨rest, text⟩ | ⟨rest, text⟩ | ⟨c, rest, text, h⟩ |
    ⟨c, rest, text, h⟩ | ⟨c, rest, text, h⟩
  · exact absurd text lexical.nonempty
  · rw [text] at scanned
    obtain ⟨kind, whole⟩ := Prod.mk.inj scanned
    exact .inr (.inl ⟨by rw [text, ← whole], kind.symm⟩)
  · rw [text] at scanned
    obtain ⟨kind, whole⟩ := Prod.mk.inj scanned
    exact .inr (.inr ⟨by rw [text, ← whole], kind.symm⟩)
  · rw [text, lexeme_letter h] at scanned
    rw [← (Prod.mk.inj scanned).1, Kind.isSign_ofWord] at sign
    cases sign
  · rw [text, lexeme_digit h] at scanned
    rw [← (Prod.mk.inj scanned).1] at sign
    cases sign
  · rw [text, lexeme_lone h] at scanned
    obtain ⟨kind, whole⟩ := Prod.mk.inj scanned
    exact .inl ⟨c, by rw [text, ← whole], kind, by rw [isWordChar, h.letter, h.digit]; rfl⟩

theorem Token.Lexical.literal_mark {t : Token} (lexical : t.Lexical) {c : Char} (h : c ∈ marks)
    (kind : t.kind = Kind.ofChar c) : t.literal.toList = [c] := by
  have same : ∀ c ∈ marks, ∀ d, Kind.ofChar d = Kind.ofChar c → d = c := by
    intro c member d equal
    simp only [marks, List.mem_cons, List.not_mem_nil, or_false] at member
    rcases member with rfl | rfl | rfl | rfl | rfl | rfl
    all_goals
      change Kind.ofChar d = _ at equal
      unfold Kind.ofChar at equal
      split at equal <;> first | rfl | cases equal
  obtain ⟨sign, -, eq, notEq⟩ := kind_of_mark h
  rcases lexical.sign_cases (kind ▸ sign) with ⟨d, text, equal, -⟩ | ⟨-, other⟩ | ⟨-, other⟩
  · rw [text, same c h d (equal.trans kind)]
  · exact absurd (kind.symm.trans other) eq
  · exact absurd (kind.symm.trans other) notEq

theorem Token.Lexical.apart {t : Token} (lexical : t.Lexical) (sign : t.kind.isSign)
    (rest : List Char) : Apart (t.literal.toList ++ rest) := by
  rcases lexical.sign_cases sign with ⟨c, text, -, free⟩ | ⟨text, -⟩ | ⟨text, -⟩
  · rw [text]
    exact .cons free rest
  · rw [text]
    exact .cons rfl _
  · rw [text]
    exact .cons rfl _

theorem Token.Lexical.opens {t : Token} (lexical : t.Lexical)
    (other : t.kind ≠ .assign ∧ t.kind ≠ .eq) : Opens t.literal.toList := by
  rcases text : t.literal.toList with _ | ⟨c, rest⟩
  · exact absurd text lexical.nonempty
  · refine ⟨c, rest, rfl, ?_⟩
    rintro rfl
    have scanned := congrArg Prod.fst lexical.scanned
    rw [text] at scanned
    by_cases double : rest.head? = some '='
    · obtain ⟨rest, rfl⟩ := List.head?_eq_some_iff.1 double
      exact other.2 scanned.symm
    · rw [lexeme_lone ⟨rfl, rfl, fun _ => double⟩] at scanned
      exact other.1 scanned.symm

namespace Scans

variable {text : List Char} {ts : List Token} {t : Token}

theorem ofMark (scans : Scans text ts) (lexical : t.Lexical) {c : Char} (h : c ∈ marks)
    (kind : t.kind = Kind.ofChar c) : Scans (c :: text) (t :: ts) := by
  obtain ⟨sign, plain, -⟩ := kind_of_mark h
  have scanned := scans.sign lexical (kind ▸ sign) fun double => absurd (kind ▸ double) plain
  rwa [lexical.literal_mark h kind] at scanned

theorem mark (scans : Scans text ts) {c : Char} (h : c ∈ marks) :
    Scans (c :: text) (Token.mark c :: ts) := by
  obtain ⟨lone, visible⟩ := lone_of_mark h
  have literal : (Token.mark c).literal.toList = [c] := String.toList_ofList
  refine scans.ofMark ⟨?_, ?_, ?_⟩ h rfl
  · rw [literal]
    exact lexeme_lone lone
  · rw [literal]
    exact List.cons_ne_nil c []
  · rw [literal]
    rintro d ⟨⟩
    exact visible

theorem closed {c : Char} (h : c ∈ marks) (scans : Scans text ts) :
    Scans (text ++ [c]) (ts ++ [Token.mark c]) :=
  scans.append (nil.mark h) (.mark h [])

theorem parenthesised (scans : Scans text ts) :
    Scans ('(' :: (text ++ [')'])) (Token.mark '(' :: (ts ++ [Token.mark ')'])) :=
  (scans.closed (by decide)).mark (by decide)

theorem lone (lexical : t.Lexical) (kind : t.kind.isSign = false) :
    Scans t.literal.toList [t] := by
  have scanned := nil.word lexical kind nofun
  rwa [List.append_nil] at scanned

end Scans

theorem Layer.isSign_of_mem {layer : Layer} {k : Kind} (h : k ∈ layer.operators) : k.isSign := by
  cases layer <;> simp only [operators, List.mem_cons, List.not_mem_nil, or_false] at h
  all_goals rcases h with rfl | rfl <;> rfl

def Expr.core : Expr → Expr := Expr.mapTokens Token.bare Token.forget

def Block.core : Block → Block := Block.mapTokens Token.bare Token.forget

def Stmt.core : Stmt → Stmt := Stmt.mapTokens Token.bare Token.forget

open ScriptFront.Derivation

/-- The text of the expression has a derivation of its tree with as many levels as the tree
is high. -/
def Expr.Echoes (e : Expr) : Prop :=
  ∃ ts e', Expression .call ts e' e.height ∧ e'.core = e.core ∧ Scans e.render.toList ts ∧
    Opens e.render.toList

def Block.Echoes (b : Block) : Prop :=
  ∃ ts b', Braced ts b' b.height ∧ b'.core = b.core ∧ Scans b.render.toList ts

def AlternativeEchoes (b : Option Block) : Prop :=
  ∃ ts b', Alternative ts b' (alternativeHeight b) ∧
    mapAlternative Token.bare Token.forget b' = mapAlternative Token.bare Token.forget b ∧
    Scans (renderElse b).toList ts ∧ Apart (renderElse b).toList

def ArgumentsEcho (es : List Expr) : Prop :=
  ∃ ts es' n, Arguments ts es' n ∧ n + 1 = argumentsHeight es ∧
    mapArguments Token.bare Token.forget es' = mapArguments Token.bare Token.forget es ∧
    Scans (renderArguments es).toList ts

/-- A statement echoes on its own and, closed by a semicolon if it is an expression, in front
of others. -/
def Stmt.Echoes (s : Stmt) : Prop :=
  ∃ s', s'.core = s.core ∧
    (∃ ts exposed, Statement ts s' s.height exposed ∧ Scans s.render.toList ts) ∧
    ∃ ts, Statement ts s' s.height false ∧
      Scans (s.render.toList ++ if s.isExpression then [';'] else []) ts

def StatementsEcho (ss : List Stmt) : Prop :=
  ∃ ts ss', Statements ts ss' (statementsHeight ss) ∧
    mapStatements Token.bare Token.forget ss' = mapStatements Token.bare Token.forget ss ∧
    Scans (renderStatements ss).toList ts

theorem parenthesised {ts : List Token} {e : Expr} {n : Nat}
    (derived : Expression .equality ts e n) :
    Parenthesised (Token.mark '(' :: (ts ++ [Token.mark ')'])) e n := .mk rfl derived rfl

namespace Expr.Echoes

variable {t left : Token} {e e₁ e₂ : Expr} {b : Block}

theorem of {ts : List Token} {e' : Expr} {n : Nat} (derived : Expression .call ts e' n)
    (levels : e.height = n) (same : e'.core = e.core) (scans : Scans e.render.toList ts)
    (opens : Opens e.render.toList) : e.Echoes :=
  ⟨ts, e', levels ▸ derived, same, scans, opens⟩

theorem identifier (lexical : t.Lexical) (kind : t.kind = .ident) :
    (Expr.identifier ⟨t, t.literal⟩).Echoes :=
  ⟨[t], _, .identifier kind, rfl, .lone lexical (by rw [kind]; rfl),
    lexical.opens (by rw [kind]; decide)⟩

theorem integer {value : Int32} (lexical : t.Lexical) (kind : t.kind = .int)
    (numeral : Numeral t.literal value) : (Expr.integer t value).Echoes :=
  ⟨[t], _, .integer kind numeral, rfl, .lone lexical (by rw [kind]; rfl),
    lexical.opens (by rw [kind]; decide)⟩

theorem boolean {value : Bool} (lexical : t.Lexical)
    (kind : t.kind = if value then .trueWord else .falseWord) : (Expr.boolean t value).Echoes :=
  ⟨[t], _, .boolean kind, rfl, .lone lexical (by rw [kind]; cases value <;> rfl),
    lexical.opens (by rw [kind]; cases value <;> decide)⟩

/-- An expression that the text puts in parentheses. -/
theorem grouped {ts : List Token} {e' : Expr} {n : Nat} {text : List Char}
    (derived : Expression .equality ts e' n) (levels : e.height = n + 1) (same : e'.core = e.core)
    (rendered : e.render.toList = '(' :: (text ++ [')'])) (scans : Scans text ts) : e.Echoes := by
  refine of (.group (parenthesised derived)) levels same ?_ ⟨'(', _, rendered, by decide⟩
  rw [rendered]
  exact scans.parenthesised

theorem unary (h : e.Echoes) (lexical : t.Lexical) (kind : t.kind = .bang ∨ t.kind = .minus) :
    (Expr.unary t t.literal e).Echoes := by
  obtain ⟨ts, e', derived, same, scans, opens⟩ := h
  have sign : t.kind.isSign := by rcases kind with kind | kind <;> rw [kind] <;> rfl
  have whole : Expression .equality (t :: ts) (.unary t t.literal e') (e.height + 1) :=
    .loosenTo (by decide) (.unary kind (.loosen derived))
  refine grouped whole ?_ ?_ ?_ (scans.sign lexical sign fun _ => opens)
  · rw [Expr.height]
    omega
  · simp only [Expr.core, Expr.mapTokens] at same ⊢
    rw [same]
  · simp [Expr.render]

theorem binary {layer : Layer} (h₁ : e₁.Echoes) (h₂ : e₂.Echoes) (lexical : t.Lexical)
    (kind : t.kind ∈ layer.operators) : (Expr.binary t e₁ t.literal e₂).Echoes := by
  obtain ⟨ts, e₁', left, same₁, scans₁, opens₁⟩ := h₁
  obtain ⟨us, e₂', right, same₂, scans₂, opens₂⟩ := h₂
  have sign : t.kind.isSign := Layer.isSign_of_mem kind
  have whole : Expression .equality (ts ++ t :: us) (.binary t e₁' t.literal e₂')
      (max e₁.height (e₂.height + 1)) :=
    .loosenTo layer.equality_rank_le (.binary (.loosenTo layer.rank_le left) kind
      (.loosenTo layer.tighter.rank_le right))
  have scans := scans₁.append (scans₂.sign lexical sign fun _ => opens₂) (lexical.apart sign _)
  refine grouped whole ?_ ?_ ?_ scans
  · rw [Expr.height]
    omega
  · simp only [Expr.core, Expr.mapTokens] at same₁ same₂ ⊢
    rw [same₁, same₂]
  · simp [Expr.render]

theorem conditional {alternative : Option Block} (condition : e.Echoes) (body : b.Echoes)
    (otherwise : AlternativeEchoes alternative) (lexical : t.Lexical) (kind : t.kind = .ifWord) :
    (Expr.conditional t e b alternative).Echoes := by
  obtain ⟨ts, e', derived, same, scans, -⟩ := condition
  obtain ⟨us, b', block, sameBody, scansBody⟩ := body
  obtain ⟨vs, a', other, sameElse, scansElse, apart⟩ := otherwise
  have text : (Expr.conditional t e b alternative).render.toList = t.literal.toList ++
      ' ' :: ('(' :: (e.render.toList ++ [')']) ++
        ' ' :: (b.render.toList ++ (renderElse alternative).toList)) := by simp [Expr.render]
  refine of (.conditional kind (parenthesised (.loosenTo (by decide) derived)) block other)
    ?_ ?_ ?_ ?_
  · rw [Expr.height, Nat.add_comm]
  · simp only [Expr.core, Block.core, Expr.mapTokens] at same sameBody ⊢
    rw [same, sameBody, sameElse]
  · rw [text]
    have tail := (scansBody.append scansElse apart).blank
    exact .word lexical (by rw [kind]; rfl)
      (scans.parenthesised.append tail (.cons rfl _)).blank (.cons rfl _)
  · rw [text]
    exact (lexical.opens (by rw [kind]; decide)).append _

theorem function {ts us : List Token} {names : List Identifier} {b' : Block} (lexical : t.Lexical)
    (kind : t.kind = .functionWord)
    (parameters : Scans (",".intercalate (names.map Identifier.value)).toList ts)
    (body : Scans b.render.toList us) (same : b'.core = b.core)
    (derived : Expression .call (t :: Token.mark '(' :: (ts ++ Token.mark ')' :: us))
      (.function t names b') (b.height + 1)) : (Expr.function t names b).Echoes := by
  have text : (Expr.function t names b).render.toList = t.literal.toList ++
      '(' :: ((",".intercalate (names.map Identifier.value)).toList ++
        ')' :: ' ' :: b.render.toList) := by simp [Expr.render, -String.toList_intercalate]
  refine of derived ?_ ?_ ?_ ?_
  · rw [Expr.height, Nat.add_comm]
  · simp only [Expr.core, Block.core, Expr.mapTokens] at same ⊢
    rw [same]
  · rw [text]
    have tail := body.blank.mark (c := ')') (by decide)
    have opened := (parameters.append tail (.mark (by decide) _)).mark (c := '(') (by decide)
    exact opened.word lexical (by rw [kind]; rfl) (.mark (by decide) _)
  · rw [text]
    exact (lexical.opens (by rw [kind]; decide)).append _

theorem call {es : List Expr} {ts us : List Token} {e' : Expr} {es' : List Expr} {n : Nat}
    (lexical : left.Lexical) (opening : left.kind = .lparen) (scans : Scans e.render.toList ts)
    (opens : Opens e.render.toList) (arguments : Scans (renderArguments es).toList us)
    (same : e'.core = e.core)
    (sameArguments : mapArguments Token.bare Token.forget es' =
      mapArguments Token.bare Token.forget es)
    (levels : max e.height (argumentsHeight es) = n)
    (derived : Expression .call (ts ++ left :: (us ++ [Token.mark ')'])) (.call left e' es') n) :
    (Expr.call left e es).Echoes := by
  have text : (Expr.call left e es).render.toList =
      e.render.toList ++ '(' :: ((renderArguments es).toList ++ [')']) := by simp [Expr.render]
  refine of derived ?_ ?_ ?_ ?_
  · rw [Expr.height, levels]
  · simp only [Expr.core, Expr.mapTokens] at same ⊢
    rw [same, sameArguments]
  · rw [text]
    have tail := (arguments.closed (c := ')') (by decide)).ofMark (c := '(')
      lexical (by decide) opening
    exact scans.append tail (.mark (by decide) _)
  · rw [text]
    exact opens.append _

end Expr.Echoes

theorem parameters_echo {ts : List Token} {names : List Identifier} (derived : Parameters ts names)
    (lexical : ∀ t ∈ ts, t.Lexical) :
    ∃ us, Parameters us names ∧ Scans (",".intercalate (names.map Identifier.value)).toList us := by
  induction derived with
  | @one t ident =>
    refine ⟨[t], .one ident, ?_⟩
    rw [List.map_singleton, String.intercalate_singleton]
    exact .lone (lexical t (List.mem_singleton_self t)) (by rw [ident]; rfl)
  | @more t comma ts names ident separator others ih =>
    obtain ⟨head, -, tail⟩ := by simpa using lexical
    obtain ⟨us, listed, scans⟩ := ih tail
    refine ⟨t :: Token.mark ',' :: us, .more ident rfl listed, ?_⟩
    have text : (",".intercalate ((⟨t, t.literal⟩ :: names).map Identifier.value)).toList =
        t.literal.toList ++ ',' :: (",".intercalate (names.map Identifier.value)).toList := by
      cases others <;> simp
    rw [text]
    exact (scans.mark (by decide)).word head (by rw [ident]; rfl) (.mark (by decide) _)

theorem ArgumentsEcho.one {e : Expr} (h : e.Echoes) : ArgumentsEcho [e] := by
  obtain ⟨ts, e', derived, same, scans, -⟩ := h
  refine ⟨ts, [e'], e.height, .one (.loosenTo (by decide) derived), ?_, ?_, scans⟩
  · simp only [argumentsHeight]
    omega
  · exact congrArg (· :: []) same

theorem ArgumentsEcho.more {e : Expr} {es : List Expr} (h : e.Echoes) (others : ArgumentsEcho es) :
    ArgumentsEcho (e :: es) := by
  obtain ⟨ts, e', derived, same, scans, -⟩ := h
  obtain ⟨us, es', n, listed, levels, sameTail, scansTail⟩ := others
  refine ⟨ts ++ Token.mark ',' :: us, e' :: es', max e.height n,
    .more (.loosenTo (by decide) derived) rfl listed, ?_, ?_, ?_⟩
  · rw [argumentsHeight, ← levels]
    omega
  · exact congrArg₂ List.cons same sameTail
  · cases es with
    | nil => cases listed <;> cases sameTail
    | cons f es =>
      have text : (renderArguments (e :: f :: es)).toList =
          e.render.toList ++ ',' :: (renderArguments (f :: es)).toList := by simp [renderArguments]
      rw [text]
      exact scans.append (scansTail.mark (by decide)) (.mark (by decide) _)

theorem AlternativeEchoes.none : AlternativeEchoes none :=
  ⟨[], Option.none, .missing, rfl, .nil, nofun⟩

theorem AlternativeEchoes.some {b : Block} (h : b.Echoes) : AlternativeEchoes (some b) := by
  obtain ⟨ts, b', derived, same, scans⟩ := h
  have text : (renderElse (Option.some b)).toList =
      ' ' :: ((Token.mk .elseWord "else" default).literal.toList ++ ' ' :: b.render.toList) := by
    simp [renderElse]
  refine ⟨⟨.elseWord, "else", default⟩ :: ts, Option.some b', .block rfl derived, ?_, ?_, ?_⟩
  · exact congrArg Option.some same
  · rw [text]
    have lexical : (Token.mk .elseWord "else" default).Lexical :=
      ⟨by decide, by decide, by rintro c ⟨⟩; rfl⟩
    exact (scans.blank.word lexical rfl (.cons rfl _)).blank
  · rw [text]
    exact .cons rfl _

theorem Block.Echoes.mk {left : Token} {ss : List Stmt} (h : StatementsEcho ss)
    (lexical : left.Lexical) (opening : left.kind = .lbrace) : (Block.mk left ss).Echoes := by
  cases ss with
  | nil =>
    have text : (Block.mk left []).render.toList = ['\x7b', '\x7d'] := by simp [Block.render]
    refine ⟨left :: ([] ++ [Token.mark '\x7d']), .mk left [], .mk opening .nil rfl, rfl, ?_⟩
    rw [text]
    exact (Scans.nil.mark (by decide)).ofMark lexical (by decide) opening
  | cons s ss =>
    obtain ⟨ts, ss', derived, same, scans⟩ := h
    have text : (Block.mk left (s :: ss)).render.toList =
        '\x7b' :: ' ' :: ((renderStatements (s :: ss)).toList ++ [' ', '\x7d']) := by
      simp [Block.render]
    refine ⟨left :: (ts ++ [Token.mark '\x7d']), .mk left ss', ?_, ?_, ?_⟩
    · rw [Block.height, Nat.add_comm]
      exact .mk opening derived rfl
    · simp only [Block.core, Block.mapTokens]
      rw [same]
    · rw [text]
      have closing := (Scans.nil.mark (c := '\x7d') (by decide)).blank
      exact (scans.append closing (.cons rfl _)).blank.ofMark lexical (by decide) opening

namespace Stmt.Echoes

variable {word name : Token} {e : Expr} {b : Block}

theorem of_closed {s s' : Stmt} {ts : List Token} {n : Nat} (derived : Statement ts s' n false)
    (levels : s.height = n) (same : s'.core = s.core) (other : s.isExpression = false)
    (scans : Scans s.render.toList ts) : s.Echoes := by
  refine ⟨s', same, ⟨ts, false, levels ▸ derived, scans⟩, ts, levels ▸ derived, ?_⟩
  rw [other]
  simpa using scans

theorem var (value : e.Echoes) (lexical : word.Lexical) (kind : word.kind = .varWord)
    (lexical' : name.Lexical) (ident : name.kind = .ident) :
    (Stmt.var word ⟨name, name.literal⟩ (some e)).Echoes := by
  obtain ⟨ts, e', derived, same, scans, -⟩ := value
  have text : (Stmt.var word ⟨name, name.literal⟩ (some e)).render.toList = word.literal.toList ++
      ' ' :: (name.literal.toList ++ ' ' :: ((Token.mk .assign "=" default).literal.toList ++
        ' ' :: (e.render.toList ++ [';']))) := by simp [Stmt.render, renderValue]
  have assign : (Token.mk .assign "=" default).kind = .assign := rfl
  refine of_closed (.var kind ident assign (.loosenTo (by decide) derived)
    (.semicolon (t := Token.mark ';') rfl)) rfl ?_ rfl ?_
  · simp only [Stmt.core, Expr.core, Stmt.mapTokens, mapValue] at same ⊢
    rw [same]
  · rw [text]
    have closed := (scans.closed (c := ';') (by decide)).blank
    have equals : (Token.mk .assign "=" default).Lexical :=
      ⟨by decide, by decide, by rintro c ⟨⟩; rfl⟩
    have assigned := closed.sign equals rfl fun _ => ⟨' ', _, rfl, by decide⟩
    have named := assigned.blank.word lexical' (by rw [ident]; rfl) (.cons rfl _)
    exact named.blank.word lexical (by rw [kind]; rfl) (.cons rfl _)

theorem ret (value : e.Echoes) (lexical : word.Lexical) (kind : word.kind = .returnWord) :
    (Stmt.ret word (some e)).Echoes := by
  obtain ⟨ts, e', derived, same, scans, -⟩ := value
  have text : (Stmt.ret word (some e)).render.toList = word.literal.toList ++
      ' ' :: (e.render.toList ++ [';']) := by simp [Stmt.render, renderValue]
  refine of_closed (.ret kind (.loosenTo (by decide) derived)
    (.semicolon (t := Token.mark ';') rfl)) rfl ?_ rfl ?_
  · simp only [Stmt.core, Expr.core, Stmt.mapTokens, mapValue] at same ⊢
    rw [same]
  · rw [text]
    have closed := (scans.closed (c := ';') (by decide)).blank
    exact closed.word lexical (by rw [kind]; rfl) (.cons rfl _)

theorem loop (condition : e.Echoes) (body : b.Echoes) (lexical : word.Lexical)
    (kind : word.kind = .whileWord) : (Stmt.loop word e b).Echoes := by
  obtain ⟨ts, e', derived, same, scans, -⟩ := condition
  obtain ⟨us, b', block, sameBody, scansBody⟩ := body
  have text : (Stmt.loop word e b).render.toList = word.literal.toList ++
      ' ' :: ('(' :: (e.render.toList ++ [')']) ++ ' ' :: b.render.toList) := by simp [Stmt.render]
  refine of_closed (.loop kind (parenthesised (.loosenTo (by decide) derived)) block .missing) rfl
    ?_ rfl ?_
  · simp only [Stmt.core, Expr.core, Block.core, Stmt.mapTokens] at same sameBody ⊢
    rw [same, sameBody]
  · rw [text, List.append_nil]
    have whole := (scans.parenthesised.append scansBody.blank (.cons rfl _)).blank
    exact whole.word lexical (by rw [kind]; rfl) (.cons rfl _)

theorem expression {first : Token} (value : e.Echoes) :
    (Stmt.expression first (some e)).Echoes := by
  obtain ⟨ts, e', derived, same, scans, -⟩ := value
  obtain ⟨t, us, rfl, -⟩ := derived.exists_head
  have derived : Expression .equality (t :: us) e' e.height := .loosenTo (by decide) derived
  refine ⟨.expression t (some e'), ?_, ⟨_, _, .expression derived .missing, ?_⟩,
    ⟨_, .expression derived (.semicolon (t := Token.mark ';') rfl), ?_⟩⟩
  · simp only [Stmt.core, Expr.core, Stmt.mapTokens, mapValue] at same ⊢
    rw [same]
    rfl
  · rw [List.append_nil]
    exact scans
  · exact scans.closed (by decide)

end Stmt.Echoes

theorem StatementsEcho.cons {s : Stmt} {ss : List Stmt} (head : s.Echoes)
    (tail : StatementsEcho ss) :
    StatementsEcho (s :: ss) := by
  obtain ⟨s', same, ⟨ts, exposed, derived, scans⟩, us, closed, scansClosed⟩ := head
  cases ss with
  | nil =>
    refine ⟨ts, [s'], ?_, congrArg (· :: []) same, scans⟩
    have single := Statements.cons derived .nil nofun
    rwa [List.append_nil] at single
  | cons next rest =>
    obtain ⟨vs, ss', others, sameTail, scansTail⟩ := tail
    have text : (renderStatements (s :: next :: rest)).toList =
        (s.render.toList ++ if s.isExpression then [';'] else []) ++
          ' ' :: (renderStatements (next :: rest)).toList := by
      cases separator : s.isExpression <;> simp [renderStatements, separator]
    refine ⟨us ++ vs, s' :: ss', .cons closed others nofun, congrArg₂ List.cons same sameTail, ?_⟩
    rw [text]
    exact scansClosed.append scansTail.blank (.cons rfl _)

namespace Derivation

mutual

theorem Expression.echoes {layer : Layer} {ts : List Token} {e : Expr} {n : Nat} :
    Expression layer ts e n → (∀ t ∈ ts, t.Lexical) → e.Echoes
  | .identifier kind, lexical => .identifier (by simpa using lexical) kind
  | .integer kind numeral, lexical => .integer (by simpa using lexical) kind numeral
  | .boolean kind, lexical => .boolean (by simpa using lexical) kind
  | .group body, lexical => body.echoes lexical
  | .conditional kind condition body otherwise, lexical => by
    simp only [List.forall_mem_cons, List.forall_mem_append] at lexical
    obtain ⟨first, second, third, fourth⟩ := lexical
    exact .conditional (condition.echoes second) (body.echoes third) (otherwise.echoes fourth) first
      kind
  | .function kind _ _ body, lexical => by
    simp only [List.forall_mem_cons] at lexical
    obtain ⟨us, b', derived, same, scans⟩ := body.echoes lexical.2.2.2
    exact .function lexical.1 kind .nil scans same (.function kind rfl rfl derived)
  | .functionOf kind _ parameters _ body, lexical => by
    simp only [List.forall_mem_cons, List.forall_mem_append] at lexical
    obtain ⟨first, -, second, -, third⟩ := lexical
    obtain ⟨ts, listed, scans⟩ := parameters_echo parameters second
    obtain ⟨us, b', derived, same, scansBody⟩ := body.echoes third
    exact .function first kind scans scansBody same (.functionOf kind rfl listed rfl derived)
  | .call function opening _, lexical => by
    simp only [List.forall_mem_cons, List.forall_mem_append] at lexical
    obtain ⟨ts, e', derived, same, scans, opens⟩ := function.echoes lexical.1
    exact .call lexical.2.1 opening scans opens .nil same rfl (Nat.max_zero _)
      (.call derived opening rfl)
  | .callWith function opening list _, lexical => by
    simp only [List.forall_mem_cons, List.forall_mem_append] at lexical
    obtain ⟨first, second, third, -⟩ := lexical
    obtain ⟨ts, e', derived, same, scans, opens⟩ := function.echoes first
    obtain ⟨us, es', m, listed, levels, sameList, scansList⟩ := list.echo third
    exact .call second opening scans opens scansList same sameList (by rw [levels])
      (.callWith derived opening listed rfl)
  | .unary kind operand, lexical => by
    simp only [List.forall_mem_cons] at lexical
    exact .unary (operand.echoes lexical.2) lexical.1 kind
  | .binary first kind second, lexical => by
    simp only [List.forall_mem_cons, List.forall_mem_append] at lexical
    exact .binary (first.echoes lexical.1) (second.echoes lexical.2.2) lexical.2.1 kind
  | .loosen tight, lexical => tight.echoes lexical

theorem Parenthesised.echoes {ts : List Token} {e : Expr} {n : Nat} :
    Parenthesised ts e n → (∀ t ∈ ts, t.Lexical) → e.Echoes
  | .mk _ body _, lexical => by
    simp only [List.forall_mem_cons, List.forall_mem_append] at lexical
    exact body.echoes lexical.2.1

theorem Arguments.echo {ts : List Token} {es : List Expr} {n : Nat} :
    Arguments ts es n → (∀ t ∈ ts, t.Lexical) → ArgumentsEcho es
  | .one argument, lexical => .one (argument.echoes lexical)
  | .more argument _ others, lexical => by
    simp only [List.forall_mem_cons, List.forall_mem_append] at lexical
    exact .more (argument.echoes lexical.1) (others.echo lexical.2.2)

theorem Alternative.echoes {ts : List Token} {b : Option Block} {n : Nat} :
    Alternative ts b n → (∀ t ∈ ts, t.Lexical) → AlternativeEchoes b
  | .missing, _ => .none
  | .block _ body, lexical => by
    simp only [List.forall_mem_cons] at lexical
    exact .some (body.echoes lexical.2)

theorem Braced.echoes {ts : List Token} {b : Block} {n : Nat} :
    Braced ts b n → (∀ t ∈ ts, t.Lexical) → b.Echoes
  | .mk opening body _, lexical => by
    simp only [List.forall_mem_cons, List.forall_mem_append] at lexical
    exact .mk (body.echo lexical.2.1) lexical.1 opening

theorem Statement.echoes {ts : List Token} {s : Stmt} {n : Nat} {exposed : Bool} :
    Statement ts s n exposed → (∀ t ∈ ts, t.Lexical) → s.Echoes
  | .var kind ident _ value _, lexical => by
    simp only [List.forall_mem_cons, List.forall_mem_append] at lexical
    obtain ⟨first, second, -, third, -⟩ := lexical
    exact .var (value.echoes third) first kind second ident
  | .ret kind value _, lexical => by
    simp only [List.forall_mem_cons, List.forall_mem_append] at lexical
    exact .ret (value.echoes lexical.2.1) lexical.1 kind
  | .loop kind condition body _, lexical => by
    simp only [List.forall_mem_cons, List.forall_mem_append] at lexical
    obtain ⟨first, second, third, -⟩ := lexical
    exact .loop (condition.echoes second) (body.echoes third) first kind
  | .expression value _, lexical => by
    rw [← List.cons_append, List.forall_mem_append] at lexical
    exact .expression (value.echoes lexical.1)

theorem Statements.echo {ts : List Token} {ss : List Stmt} {n : Nat} :
    Statements ts ss n → (∀ t ∈ ts, t.Lexical) → StatementsEcho ss
  | .nil, _ => ⟨[], [], .nil, rfl, .nil⟩
  | .cons head tail _, lexical => by
    rw [List.forall_mem_append] at lexical
    exact .cons (head.echoes lexical.1) (tail.echo lexical.2)

end

end Derivation

theorem echo_of_parse {source : String} {file : Option String} {program : Program}
    (accepted : parse source file = .ok program) : StatementsEcho program.statements := by
  obtain ⟨quiet, rfl⟩ := verdict_eq_ok accepted
  obtain ⟨n, -, derived⟩ := (Parser.ofSource_fresh source file).derives quiet
  exact Statements.echo derived fun t member => (Lexer.stream_lexical _ t member).1

/-- The canonical text of an accepted program is accepted as the same program if the program
is at most 256 levels high; if it is higher, that is the first thing found wrong. -/
theorem parse_render {source : String} {file : Option String} {program : Program}
    (accepted : parse source file = .ok program) (name : Option String) :
    (program.height ≤ 256 → ∃ result, parse program.render name = .ok result ∧
        result.core = program.core) ∧
      (256 < program.height → ∃ d ds, parse program.render name = .error (d :: ds) ∧
        d.cause = .nestingTooDeep 256) := by
  obtain ⟨ts, ss, derived, same, scans⟩ := echo_of_parse accepted
  have whole : Derives ts ⟨ss⟩ program.height := derived
  have core : Program.core ⟨ss⟩ = program.core := by
    rw [mapStatements_eq_map, mapStatements_eq_map] at same
    exact congrArg Program.mk same
  have tokens : (Parser.ofSource program.render name).input.body.map Token.symbol =
      ts.map Token.symbol := by
    have nothing : symbols [] = [] := symbols_of_blanks rfl
    have scanned := scans [] nofun
    rw [List.append_nil, nothing, List.append_nil] at scanned
    exact (Lexer.stream_symbols _).trans scanned
  obtain ⟨fits, exceeds⟩ :=
    (Parser.ofSource_fresh program.render name).verdict_of_derives whole tokens
  refine ⟨fun few => ?_, exceeds⟩
  obtain ⟨result, read, bare⟩ := fits few
  exact ⟨result, read, (Program.core_eq_of_bare bare).trans core⟩

theorem parse_render_statements :
    ∃ program, parse "var x = -a+b; f(!x, 1)" none = .ok program ∧ program.height ≤ 256 ∧
      ∃ result, parse program.render none = .ok result ∧ result.core = program.core := by
  have accepted : parse "var x = -a+b; f(!x, 1)" none =
      .ok (readProgram "var x = -a+b; f(!x, 1)" none).1 := parse_of_isEmpty (by decide +kernel)
  have low : (readProgram "var x = -a+b; f(!x, 1)" none).1.height ≤ 256 := by decide +kernel
  exact ⟨_, accepted, low, (parse_render accepted none).1 low⟩

end ScriptFront
