import Mathlib
import ScriptFront.Token.Lexer

/-! How texts are scanned. The token at the head of a text is a prefix of it that scans to
itself, and what stands behind it matters only where the token reaches the end of the
text. So two texts can be scanned one after the other wherever the last token of the
first does not go on into the second. -/

namespace ScriptFront

def Token.symbol (t : Token) : Kind × String := (t.kind, t.literal)

theorem Kind.ofChar_ne_eof (c : Char) : Kind.ofChar c ≠ .eof := by
  unfold Kind.ofChar
  split <;> decide

theorem Kind.ofChar_ne_int (c : Char) : Kind.ofChar c ≠ .int := by
  unfold Kind.ofChar
  split <;> decide

def Kind.isSign : Kind → Bool
  | ident | int | functionWord | varWord | trueWord | falseWord | ifWord | elseWord | returnWord
  | whileWord => false
  | _ => true

/-- What holds of identifiers and of all keywords holds of every word. -/
theorem Kind.ofWord_of_forall {P : Kind → Prop} (ident : P .ident)
    (all : ∀ pair ∈ Kind.keywords, P pair.2) (word : String) : P (Kind.ofWord word) := by
  unfold Kind.ofWord
  cases found : Kind.keywords.lookup word with
  | none => exact ident
  | some kind =>
    obtain ⟨before, after, split, -⟩ := List.lookup_eq_some_iff.1 found
    have member : (word, kind) ∈ Kind.keywords := by rw [split]; simp
    exact all _ member

theorem Kind.isSign_ofWord (word : String) : (Kind.ofWord word).isSign = false :=
  Kind.ofWord_of_forall (P := fun kind => kind.isSign = false) rfl (by decide) word

theorem Kind.ofWord_ne_int (word : String) : Kind.ofWord word ≠ .int :=
  Kind.ofWord_of_forall (P := (· ≠ .int)) (by decide) (by decide) word

theorem Kind.ofWord_ne_eof (word : String) : Kind.ofWord word ≠ .eof :=
  Kind.ofWord_of_forall (P := (· ≠ .eof)) (by decide) (by decide) word

/-- A character that is a token of its own before `rest`. -/
structure Lone (c : Char) (rest : List Char) : Prop where
  letter : isLetter c = false
  digit : c.isDigit = false
  single : c = '=' ∨ c = '!' → rest.head? ≠ some '='

section Lexeme

variable {text : List Char} {c : Char} {rest : List Char}

theorem lexeme_letter (h : isLetter c) :
    lexeme (c :: rest) = (Kind.ofWord (String.ofList (c :: rest.takeWhile isWordChar)),
      c :: rest.takeWhile isWordChar) := by
  unfold lexeme
  split
  · contradiction
  · next same => cases same; exact absurd h (by decide)
  · next same => cases same; exact absurd h (by decide)
  · next same => cases same; rw [if_pos h]

theorem isLetter_of_isDigit (h : c.isDigit) : isLetter c = false := by
  simp only [Char.isDigit, Bool.and_eq_true, decide_eq_true_eq] at h
  by_contra letter
  simp only [isLetter, Char.isAlpha, Char.isUpper, Char.isLower, Bool.not_eq_false,
    Bool.or_eq_true, Bool.and_eq_true, decide_eq_true_eq] at letter
  rcases letter with (upper | lower) | rfl
  · exact absurd (UInt32.le_trans upper.1 h.2) (by decide)
  · exact absurd (UInt32.le_trans lower.1 h.2) (by decide)
  · exact absurd h.2 (by decide)

theorem lexeme_digit (h : c.isDigit) :
    lexeme (c :: rest) = (.int, c :: rest.takeWhile Char.isDigit) := by
  unfold lexeme
  split
  · contradiction
  · next same => cases same; exact absurd h (by decide)
  · next same => cases same; exact absurd h (by decide)
  · next same => cases same; rw [if_neg (by simp [isLetter_of_isDigit h]), if_pos h]

theorem lexeme_lone (h : Lone c rest) : lexeme (c :: rest) = (Kind.ofChar c, [c]) := by
  unfold lexeme
  split
  · contradiction
  · next same => cases same; exact absurd rfl (h.single (.inl rfl))
  · next same => cases same; exact absurd rfl (h.single (.inr rfl))
  · next same =>
    cases same
    rw [if_neg (by simp [h.letter]), if_neg (by simp [h.digit])]

theorem text_cases (text : List Char) :
    text = [] ∨ (∃ rest, text = '=' :: '=' :: rest) ∨ (∃ rest, text = '!' :: '=' :: rest) ∨
      (∃ c rest, text = c :: rest ∧ isLetter c) ∨ (∃ c rest, text = c :: rest ∧ c.isDigit) ∨
      ∃ c rest, text = c :: rest ∧ Lone c rest := by
  rcases text with _ | ⟨c, rest⟩
  · exact .inl rfl
  · by_cases letter : isLetter c
    · exact .inr (.inr (.inr (.inl ⟨c, rest, rfl, letter⟩)))
    · by_cases digit : c.isDigit
      · exact .inr (.inr (.inr (.inr (.inl ⟨c, rest, rfl, digit⟩))))
      · by_cases double : (c = '=' ∨ c = '!') ∧ rest.head? = some '='
        · obtain ⟨rfl | rfl, next⟩ := double
          · obtain ⟨rest, rfl⟩ := List.head?_eq_some_iff.1 next
            exact .inr (.inl ⟨rest, rfl⟩)
          · obtain ⟨rest, rfl⟩ := List.head?_eq_some_iff.1 next
            exact .inr (.inr (.inl ⟨rest, rfl⟩))
        · refine .inr (.inr (.inr (.inr (.inr ⟨c, rest, rfl, ⟨?_, ?_, ?_⟩⟩))))
          · simpa using letter
          · simpa using digit
          · exact fun sign next => double ⟨sign, next⟩

theorem lexeme_prefix_text (text : List Char) : (lexeme text).2 <+: text := by
  rcases text_cases text with rfl | ⟨rest, rfl⟩ | ⟨rest, rfl⟩ | ⟨c, rest, rfl, h⟩ |
    ⟨c, rest, rfl, h⟩ | ⟨c, rest, rfl, h⟩
  · exact List.prefix_rfl
  · exact ⟨rest, rfl⟩
  · exact ⟨rest, rfl⟩
  · rw [lexeme_letter h]
    exact List.cons_prefix_cons.2 ⟨rfl, List.takeWhile_prefix _⟩
  · rw [lexeme_digit h]
    exact List.cons_prefix_cons.2 ⟨rfl, List.takeWhile_prefix _⟩
  · rw [lexeme_lone h]
    exact ⟨rest, rfl⟩

theorem lexeme_ne_eof (nonempty : text ≠ []) : (lexeme text).1 ≠ .eof := by
  rcases text_cases text with rfl | ⟨rest, rfl⟩ | ⟨rest, rfl⟩ | ⟨c, rest, rfl, h⟩ |
    ⟨c, rest, rfl, h⟩ | ⟨c, rest, rfl, h⟩
  · exact absurd rfl nonempty
  · exact nofun
  · exact nofun
  · rw [lexeme_letter h]
    exact Kind.ofWord_ne_eof _
  · rw [lexeme_digit h]
    exact nofun
  · rw [lexeme_lone h]
    exact Kind.ofChar_ne_eof c

theorem lexeme_literal (text : List Char) : lexeme (lexeme text).2 = lexeme text := by
  rcases text_cases text with rfl | ⟨rest, rfl⟩ | ⟨rest, rfl⟩ | ⟨c, rest, rfl, h⟩ |
    ⟨c, rest, rfl, h⟩ | ⟨c, rest, rfl, h⟩
  · rfl
  · rfl
  · rfl
  · rw [lexeme_letter h, lexeme_letter h, List.takeWhile_idem]
  · rw [lexeme_digit h, lexeme_digit h, List.takeWhile_idem]
  · rw [lexeme_lone h, lexeme_lone ⟨h.letter, h.digit, by simp⟩]

/-- A token that ends before its text does is not changed by what follows the text. -/
theorem lexeme_append (h : (lexeme text).2 ≠ text) (more : List Char) :
    lexeme (text ++ more) = lexeme text := by
  rcases text_cases text with rfl | ⟨rest, rfl⟩ | ⟨rest, rfl⟩ | ⟨c, rest, rfl, letter⟩ |
    ⟨c, rest, rfl, digit⟩ | ⟨c, rest, rfl, lone⟩
  · exact absurd rfl h
  · rfl
  · rfl
  · rw [lexeme_letter letter] at h ⊢
    have short : (rest.takeWhile isWordChar).length ≠ rest.length := fun full =>
      h (congrArg (c :: ·) ((List.takeWhile_prefix _).eq_of_length full))
    rw [List.cons_append, lexeme_letter letter, List.takeWhile_append, if_neg short]
  · rw [lexeme_digit digit] at h ⊢
    have short : (rest.takeWhile Char.isDigit).length ≠ rest.length := fun full =>
      h (congrArg (c :: ·) ((List.takeWhile_prefix _).eq_of_length full))
    rw [List.cons_append, lexeme_digit digit, List.takeWhile_append, if_neg short]
  · rw [lexeme_lone lone] at h ⊢
    have head : (rest ++ more).head? = rest.head? := by
      cases rest with
      | nil => exact absurd rfl h
      | cons d rest => rfl
    exact lexeme_lone ⟨lone.letter, lone.digit, head ▸ lone.single⟩

/-- What may follow a token without becoming part of it. -/
def Breaks (kind : Kind) (more : List Char) : Prop :=
  ∀ c ∈ more.head?, (kind.isSign = false → isWordChar c = false) ∧
    (kind = .assign ∨ kind = .bang → c ≠ '=')

theorem Breaks.semicolon (more : List Char) : Breaks .semicolon more := fun _ _ => ⟨nofun, nofun⟩

theorem isBlank_iff {c : Char} : isBlank c ↔ c = ' ' ∨ c = '\t' ∨ c = '\n' ∨ c = '\r' := by
  simp [isBlank, or_assoc]

theorem isWordChar_of_isBlank {c : Char} (blank : isBlank c) : isWordChar c = false := by
  rcases isBlank_iff.1 blank with rfl | rfl | rfl | rfl <;> decide

theorem isBlank_of_isWordChar {c : Char} (word : isWordChar c) : isBlank c = false := by
  by_contra blank
  have other := isWordChar_of_isBlank (by simpa using blank)
  rw [word] at other
  cases other

theorem Breaks.blank {c : Char} (blank : isBlank c) (kind : Kind) (rest : List Char) :
    Breaks kind (c :: rest) := by
  rintro d ⟨⟩
  refine ⟨fun _ => isWordChar_of_isBlank blank, ?_⟩
  rintro - rfl
  exact absurd blank (by decide)

theorem takeWhile_append_of_head {p : Char → Bool} {rest more : List Char}
    (h : rest.takeWhile p = rest) (apart : ∀ c ∈ more.head?, p c = false) :
    (rest ++ more).takeWhile p = rest := by
  rw [List.takeWhile_append, if_pos (by rw [h])]
  cases more with
  | nil => simp
  | cons c more => simp [apart c rfl]

theorem lexeme_append_of_breaks {kind : Kind} {more : List Char} (h : lexeme text = (kind, text))
    (nonempty : text ≠ []) (apart : Breaks kind more) : lexeme (text ++ more) = (kind, text) := by
  rcases text_cases text with rfl | ⟨rest, rfl⟩ | ⟨rest, rfl⟩ | ⟨c, rest, rfl, letter⟩ |
    ⟨c, rest, rfl, digit⟩ | ⟨c, rest, rfl, lone⟩
  · exact absurd rfl nonempty
  · exact h
  · exact h
  · rw [lexeme_letter letter, Prod.mk.injEq, List.cons.injEq] at h
    rw [List.cons_append, lexeme_letter letter,
      takeWhile_append_of_head h.2.2 fun d hd => (apart d hd).1 (h.1 ▸ Kind.isSign_ofWord _), ← h.1,
      h.2.2]
  · rw [lexeme_digit digit, Prod.mk.injEq, List.cons.injEq] at h
    have other : ∀ d ∈ more.head?, d.isDigit = false := by
      intro d hd
      have word := (apart d hd).1 (h.1 ▸ rfl)
      simp only [isWordChar, Bool.or_eq_false_iff] at word
      exact word.2
    rw [List.cons_append, lexeme_digit digit, takeWhile_append_of_head h.2.2 other, ← h.1]
  · rw [lexeme_lone lone, Prod.mk.injEq] at h
    obtain ⟨kind, alone⟩ := h
    obtain rfl : rest = [] := (List.cons.inj alone).2.symm
    refine (lexeme_lone ⟨lone.letter, lone.digit, ?_⟩).trans (by rw [kind])
    rintro sign next
    refine (apart '=' next).2 ?_ rfl
    rcases sign with rfl | rfl
    · exact .inl kind.symm
    · exact .inr kind.symm

end Lexeme

/-- A token as the lexer makes them: its literal begins with no blank and scans to the
token's kind and to itself. -/
structure Token.Lexical (t : Token) : Prop where
  scanned : lexeme t.literal.toList = (t.kind, t.literal.toList)
  nonempty : t.literal.toList ≠ []
  start : ∀ c ∈ t.literal.toList.head?, isBlank c = false

theorem Token.Lexical.digits {t : Token} (lexical : t.Lexical) (int : t.kind = .int) :
    ∀ c ∈ t.literal.toList, c.isDigit := by
  have scanned := lexical.scanned
  rw [int] at scanned
  rcases text_cases t.literal.toList with text | ⟨rest, text⟩ | ⟨rest, text⟩ | ⟨c, rest, text, h⟩ |
    ⟨c, rest, text, h⟩ | ⟨c, rest, text, h⟩
  · exact absurd text lexical.nonempty
  · rw [text] at scanned
    cases scanned
  · rw [text] at scanned
    cases scanned
  · rw [text, lexeme_letter h] at scanned
    exact absurd (congrArg Prod.fst scanned) (Kind.ofWord_ne_int _)
  · rw [text, lexeme_digit h] at scanned
    have whole : c :: rest.takeWhile Char.isDigit = c :: rest := congrArg Prod.snd scanned
    rw [text, ← whole]
    intro d member
    rcases List.mem_cons.1 member with rfl | later
    · exact h
    · exact List.mem_takeWhile_imp later
  · rw [text, lexeme_lone h] at scanned
    exact absurd (congrArg Prod.fst scanned) (Kind.ofChar_ne_int c)

namespace Lexer

theorem head_skipBlanks (l : Lexer) : ∀ c ∈ l.skipBlanks.rest.head?, isBlank c = false := by
  intro c head
  have first := List.head?_dropWhile_not isBlank l.rest
  change (List.dropWhile isBlank l.rest).head? = some c at head
  rw [head] at first
  simpa using first

theorem next_lexical (l : Lexer) (h : l.skipBlanks.rest ≠ []) : l.next.1.Lexical := by
  have literal : l.next.1.literal.toList = (lexeme l.skipBlanks.rest).2 := String.toList_ofList
  refine ⟨?_, ?_, ?_⟩
  · rw [literal, lexeme_literal]
    rfl
  · rw [literal]
    exact lexeme_ne_nil h
  · rw [literal]
    obtain ⟨rest, split⟩ := lexeme_prefix_text l.skipBlanks.rest
    intro c head
    refine l.head_skipBlanks c ?_
    rw [← split, List.head?_append, head]
    rfl

theorem next_kind_ne_eof (l : Lexer) (h : l.skipBlanks.rest ≠ []) : l.next.1.kind ≠ .eof :=
  lexeme_ne_eof h

theorem stream_of_blank (l : Lexer) (h : l.skipBlanks.rest = []) : l.stream = ⟨[], l.next.1⟩ := by
  rw [stream, dif_pos h]

theorem stream_of_text (l : Lexer) (h : l.skipBlanks.rest ≠ []) :
    l.stream = l.next.2.stream.push l.next.1 := by
  rw [stream, dif_neg h]

theorem stream_last_kind (l : Lexer) : l.stream.last.kind = .eof := by
  fun_induction stream l with
  | case1 l h =>
    change (lexeme l.skipBlanks.rest).1 = .eof
    rw [h]
    rfl
  | case2 l h _ ih => exact ih

theorem stream_lexical (l : Lexer) : ∀ t ∈ l.stream.body, t.Lexical ∧ t.kind ≠ .eof := by
  fun_induction stream l with
  | case1 l h => simp
  | case2 l h _ ih =>
    intro t member
    rcases List.mem_cons.1 member with rfl | later
    · exact ⟨l.next_lexical h, l.next_kind_ne_eof h⟩
    · exact ih t later

end Lexer

def symbols (text : List Char) : List (Kind × String) :=
  (Lexer.mk defaultFile text 0).stream.body.map Token.symbol

namespace Lexer

theorem map_symbol_congr (l m : Lexer) (same : l.rest = m.rest) :
    l.stream.body.map Token.symbol = m.stream.body.map Token.symbol := by
  have blanks : l.skipBlanks.rest = m.skipBlanks.rest := congrArg (List.dropWhile isBlank) same
  fun_induction stream l generalizing m with
  | case1 l h => rw [m.stream_of_blank (blanks ▸ h)]
  | case2 l h _ ih =>
    have head : l.next.1.symbol = m.next.1.symbol :=
      congrArg (fun text => ((lexeme text).1, String.ofList (lexeme text).2)) blanks
    have tail : l.next.2.rest = m.next.2.rest :=
      congrArg (fun text => text.drop (lexeme text).2.length) blanks
    rw [m.stream_of_text (blanks ▸ h)]
    change _ :: _ = _ :: _
    rw [head, ih _ tail (congrArg (List.dropWhile isBlank) tail)]

theorem stream_symbols (l : Lexer) : l.stream.body.map Token.symbol = symbols l.rest :=
  l.map_symbol_congr _ rfl

end Lexer

theorem symbols_of_blanks {text : List Char} (h : text.dropWhile isBlank = []) :
    symbols text = [] := by
  rw [symbols, Lexer.stream_of_blank ⟨defaultFile, text, 0⟩ h]
  rfl

theorem symbols_of_text {text : List Char} (h : text.dropWhile isBlank ≠ []) :
    symbols text = ((lexeme (text.dropWhile isBlank)).1,
      String.ofList (lexeme (text.dropWhile isBlank)).2) ::
        symbols ((text.dropWhile isBlank).drop (lexeme (text.dropWhile isBlank)).2.length) := by
  rw [symbols, Lexer.stream_of_text ⟨defaultFile, text, 0⟩ h]
  exact congrArg (_ :: ·) (Lexer.stream_symbols _)

theorem symbols_blank {c : Char} (h : isBlank c) (text : List Char) :
    symbols (c :: text) = symbols text := by
  have skip : (c :: text).dropWhile isBlank = text.dropWhile isBlank := List.dropWhile_cons_of_pos h
  by_cases empty : text.dropWhile isBlank = []
  · rw [symbols_of_blanks empty, symbols_of_blanks (skip.trans empty)]
  · rw [symbols_of_text empty, symbols_of_text (by rwa [skip]), skip]

theorem symbols_token {t : Token} (lexical : t.Lexical) {more : List Char}
    (apart : Breaks t.kind more) :
    symbols (t.literal.toList ++ more) = t.symbol :: symbols more := by
  have scanned := lexeme_append_of_breaks lexical.scanned lexical.nonempty apart
  have skip : (t.literal.toList ++ more).dropWhile isBlank = t.literal.toList ++ more := by
    have start := lexical.start
    rcases text : t.literal.toList with _ | ⟨c, rest⟩
    · exact absurd text lexical.nonempty
    · rw [text] at start
      simp [start c rfl]
  have nonempty : (t.literal.toList ++ more).dropWhile isBlank ≠ [] := by
    rw [skip]
    exact List.append_ne_nil_of_left_ne_nil lexical.nonempty more
  rw [symbols_of_text nonempty, skip, scanned]
  simp [Token.symbol]

theorem tokenize_dropLast (source : String) (file : Option String) :
    (tokenize source file).dropLast = (Lexer.ofSource source file).stream.body := by
  simp [tokenize, TokenStream.toList]

theorem tokenize_filter (source : String) (file : Option String) :
    (tokenize source file).filter (·.kind ≠ .eof) = (Lexer.ofSource source file).stream.body := by
  have running : ∀ t ∈ (Lexer.ofSource source file).stream.body, decide (t.kind ≠ .eof) = true :=
    fun t member => decide_eq_true ((Lexer.ofSource source file).stream_lexical t member).2
  have stop := (Lexer.ofSource source file).stream_last_kind
  rw [tokenize, TokenStream.toList, List.filter_append, List.filter_eq_self.2 running]
  simp [stop]

def tokenCount (source : String) (file : Option String) : Nat :=
  ((tokenize source file).filter (·.kind ≠ .eof)).length

theorem tokenCount_eq (source : String) (file : Option String) :
    tokenCount source file = (Lexer.ofSource source file).stream.body.length :=
  congrArg List.length (tokenize_filter source file)

namespace TokenStream

theorem get_of_le {s : TokenStream} {k : Nat} (behind : s.body.length ≤ k) : s.get k = s.last := by
  rw [get, List.getD_eq_default _ _ behind]

theorem get_mem {s : TokenStream} {k : Nat} (inside : k < s.body.length) : s.get k ∈ s.body := by
  rw [get, List.getD_eq_getElem _ _ inside]
  exact List.getElem_mem inside

end TokenStream

theorem TokenStream.toList_getElem? (s : TokenStream) (k : Nat) :
    s.toList[min k (s.toList.length - 1)]? = some (s.get k) := by
  have length : s.toList.length - 1 = s.body.length := by simp [TokenStream.toList]
  rw [length, TokenStream.toList, TokenStream.get, List.getD_eq_getElem?_getD]
  by_cases inside : k < s.body.length
  · rw [Nat.min_eq_left (Nat.le_of_lt inside), List.getElem?_append_left inside,
      List.getElem?_eq_getElem inside, Option.getD_some]
  · rw [Nat.min_eq_right (Nat.le_of_not_lt inside), List.getElem?_concat_length,
      List.getElem?_eq_none (Nat.le_of_not_lt inside), Option.getD_none]

def Position.shift (n : Nat) (p : Position) : Position := .ofNat (p.offset.toNat + n) p.file

def Token.shift (n : Nat) (t : Token) : Token :=
  { t with span := ⟨t.span.start.shift n, t.span.stop.shift n⟩ }

theorem Position.shift_ofNat (n offset : Nat) (file : String) :
    (Position.ofNat offset file).shift n = .ofNat (offset + n) file := by
  simp only [Position.shift, Position.ofNat, UInt32.ofNat_add, UInt32.ofNat_toNat]

namespace Lexer

def shift (l : Lexer) (n : Nat) : Lexer := { l with offset := l.offset + n }

theorem next_shift (l : Lexer) (n : Nat) :
    (l.shift n).next = (l.next.1.shift n, l.next.2.shift n) := by
  have here : l.offset + n + (l.rest.takeWhile isBlank).length = l.skipBlanks.offset + n := by
    simp only [skipBlanks]
    omega
  have stop : l.skipBlanks.offset + n + (lexeme l.skipBlanks.rest).2.length =
      l.skipBlanks.offset + (lexeme l.skipBlanks.rest).2.length + n := by omega
  change (Token.mk _ _ (Span.between (l.offset + n + (l.rest.takeWhile isBlank).length)
    (l.offset + n + (l.rest.takeWhile isBlank).length + (lexeme l.skipBlanks.rest).2.length) _),
    Lexer.mk _ _ (l.offset + n + (l.rest.takeWhile isBlank).length +
      (lexeme l.skipBlanks.rest).2.length)) = _
  rw [here, stop, Span.between, ← Position.shift_ofNat, ← Position.shift_ofNat]
  rfl

theorem stream_shift (l : Lexer) (n : Nat) :
    (l.shift n).stream = ⟨l.stream.body.map (Token.shift n), l.stream.last.shift n⟩ := by
  fun_induction stream l with
  | case1 l h =>
    rw [(l.shift n).stream_of_blank h, next_shift]
    rfl
  | case2 l h _ ih =>
    rw [(l.shift n).stream_of_text h, next_shift, ih]
    rfl

theorem stream_of_skipBlanks {l m : Lexer} (h : l.skipBlanks = m.skipBlanks) :
    l.stream = m.stream := by
  have file : l.skipBlanks.file = m.skipBlanks.file := congrArg Lexer.file h
  change l.file = m.file at file
  have next : l.next = m.next := by simp only [next, h, file]
  by_cases empty : m.skipBlanks.rest = []
  · rw [m.stream_of_blank empty, l.stream_of_blank (by rw [h, empty]), next]
  · rw [m.stream_of_text empty, l.stream_of_text (by rwa [h]), next]

def followedBy (l : Lexer) (more : List Char) : Lexer := { l with rest := l.rest ++ more }

def behind (l : Lexer) (more : List Char) : Lexer := ⟨l.file, more, l.offset + l.rest.length⟩

theorem skipBlanks_followedBy_of_blank {l : Lexer} (h : l.skipBlanks.rest = []) (more : List Char) :
    (l.followedBy more).skipBlanks = (l.behind more).skipBlanks := by
  have split := List.takeWhile_append_dropWhile (p := isBlank) (l := l.rest)
  have none : l.rest.dropWhile isBlank = [] := h
  have all : l.rest.takeWhile isBlank = l.rest := by rwa [none, List.append_nil] at split
  simp only [skipBlanks, followedBy, behind, List.dropWhile_append, List.takeWhile_append, none,
    all, List.isEmpty_nil, if_true, List.length_append]
  rw [Nat.add_assoc]

theorem skipBlanks_followedBy_of_text {l : Lexer} (h : l.skipBlanks.rest ≠ []) (more : List Char) :
    (l.followedBy more).skipBlanks = l.skipBlanks.followedBy more := by
  have text : l.rest.dropWhile isBlank ≠ [] := h
  have some : (l.rest.dropWhile isBlank).isEmpty = false := List.isEmpty_eq_false_iff.2 text
  have short : (l.rest.takeWhile isBlank).length ≠ l.rest.length := by
    intro full
    have split := congrArg List.length
      (List.takeWhile_append_dropWhile (p := isBlank) (l := l.rest))
    rw [List.length_append, full] at split
    exact text (List.length_eq_zero_iff.1 (by omega))
  simp only [skipBlanks, followedBy, List.dropWhile_append, List.takeWhile_append, some, short,
    if_false, Bool.false_eq_true]

theorem next_followedBy {l : Lexer} (h : l.skipBlanks.rest ≠ []) {more : List Char}
    (same : lexeme (l.skipBlanks.rest ++ more) = lexeme l.skipBlanks.rest) :
    (l.followedBy more).next = (l.next.1, l.next.2.followedBy more) := by
  have whole : (lexeme l.skipBlanks.rest).2.length ≤ l.skipBlanks.rest.length :=
    (lexeme_prefix_text _).length_le
  unfold next
  rw [skipBlanks_followedBy_of_text h]
  simp only [followedBy, same, List.drop_append_of_le_length whole]

theorem behind_next {l : Lexer} (more : List Char) : l.next.2.behind more = l.behind more := by
  have whole : (lexeme l.skipBlanks.rest).2.length ≤ l.skipBlanks.rest.length :=
    (lexeme_prefix_text _).length_le
  have split := congrArg List.length (List.takeWhile_append_dropWhile (p := isBlank) (l := l.rest))
  rw [List.length_append] at split
  simp only [behind, next, skipBlanks, List.length_drop] at whole ⊢
  congr 1
  omega

theorem lexeme_followedBy {l : Lexer} (h : l.skipBlanks.rest ≠ []) {more : List Char}
    (apart : ∀ t ∈ (l.next.1 :: l.next.2.stream.body).getLast?, Breaks t.kind more) :
    lexeme (l.skipBlanks.rest ++ more) = lexeme l.skipBlanks.rest := by
  by_cases whole : (lexeme l.skipBlanks.rest).2 = l.skipBlanks.rest
  · have none : l.next.2.rest = [] := by
      change l.skipBlanks.rest.drop (lexeme l.skipBlanks.rest).2.length = []
      rw [whole, List.drop_length]
    have finished : l.next.2.stream.body = [] := by
      rw [l.next.2.stream_of_blank (by rw [skipBlanks, none]; rfl)]
    have breaks : Breaks (lexeme l.skipBlanks.rest).1 more := by
      rw [finished] at apart
      exact apart l.next.1 rfl
    have scanned : lexeme l.skipBlanks.rest =
        ((lexeme l.skipBlanks.rest).1, l.skipBlanks.rest) := Prod.ext rfl whole
    rw [lexeme_append_of_breaks scanned h breaks, ← scanned]
  · exact lexeme_append whole more

/-- Scanning a text and then another gives the tokens of both, if the last token of the first
does not go on into the second. -/
theorem stream_followedBy (l : Lexer) (more : List Char)
    (apart : ∀ t ∈ l.stream.body.getLast?, Breaks t.kind more) :
    (l.followedBy more).stream =
      ⟨l.stream.body ++ (l.behind more).stream.body, (l.behind more).stream.last⟩ := by
  fun_induction stream l with
  | case1 l h => exact stream_of_skipBlanks (skipBlanks_followedBy_of_blank h more)
  | case2 l h _ ih =>
    change ∀ t ∈ (l.next.1 :: l.next.2.stream.body).getLast?, Breaks t.kind more at apart
    have same := lexeme_followedBy h apart
    rw [List.getLast?_cons] at apart
    have text : (l.followedBy more).skipBlanks.rest ≠ [] := by
      rw [skipBlanks_followedBy_of_text h]
      exact List.append_ne_nil_of_left_ne_nil h more
    rw [(l.followedBy more).stream_of_text text, next_followedBy h same, ih ?_, behind_next]
    · rfl
    · intro t member
      exact apart t (by rw [member]; rfl)

theorem stream_ofSource_append {first second : String} {file : Option String}
    (apart : ∀ t ∈ (ofSource first file).stream.body.getLast?, Breaks t.kind second.toList) :
    (ofSource (first ++ second) file).stream =
      ⟨(ofSource first file).stream.body ++
        (ofSource second file).stream.body.map (Token.shift first.length),
        (ofSource second file).stream.last.shift first.length⟩ := by
  have whole : ofSource (first ++ second) file =
      (ofSource first file).followedBy second.toList := by
    rw [followedBy, ofSource, ofSource, String.toList_append]
  have rest : (ofSource first file).behind second.toList =
      (ofSource second file).shift first.length := by
    rw [behind, shift, ← String.length_toList]
    rfl
  rw [whole, stream_followedBy _ _ apart, rest, stream_shift]

end Lexer

end ScriptFront
