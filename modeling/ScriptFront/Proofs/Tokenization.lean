import ScriptFront.Proofs.Scan

/-! What the tokens of a source are, said without scanning it. They tile the source: each
stands where its span says, what lies between them is blank, and none of them could go on.
On sources whose offsets fit in a word, exactly one list of tokens does so, and it is the
one that the lexer finds. The scan and a tiling are compared from the same offset on; the
first character that is not blank begins a token in both, and its class settles the rest
of that token. -/

namespace ScriptFront

/-- The kinds of the characters that are tokens of their own. All others are illegal. -/
def Kind.signs : List (Char × Kind) :=
  [('=', assign), ('+', plus), ('-', minus), ('/', slash), ('*', asterisk), ('<', lessThan),
    ('>', greaterThan), ('!', bang), (',', comma), (';', semicolon), ('(', lparen), (')', rparen),
    ('{', lbrace), ('}', rbrace)]

theorem Kind.ofChar_eq_lookup (c : Char) : Kind.ofChar c = (signs.lookup c).getD illegal := by
  cases found : signs.lookup c with
  | some kind =>
    obtain ⟨before, after, split, -⟩ := List.lookup_eq_some_iff.1 found
    have member : (c, kind) ∈ signs := by rw [split]; simp
    have all : ∀ pair ∈ signs, Kind.ofChar pair.1 = pair.2 := by decide
    exact all _ member
  | none =>
    unfold Kind.ofChar
    split <;> first | rfl | exact absurd found (by decide)

theorem drop_takeWhile_length (p : Char → Bool) (text : List Char) :
    text.drop (text.takeWhile p).length = text.dropWhile p := by
  calc text.drop (text.takeWhile p).length
      = (text.takeWhile p ++ text.dropWhile p).drop (text.takeWhile p).length := by
        rw [List.takeWhile_append_dropWhile]
    _ = text.dropWhile p := List.drop_left

/-- `Lexeme kind literal next`: the text of a token of this kind in front of a character
`next`, or at the end of the source. -/
inductive Lexeme : Kind → List Char → Option Char → Prop where
  | word {c : Char} {rest : List Char} {next : Option Char} (head : isLetter c)
      (tail : ∀ d ∈ rest, isWordChar d) (whole : ∀ d ∈ next, ¬ isWordChar d) :
      Lexeme ((Kind.keywords.lookup (String.ofList (c :: rest))).getD .ident) (c :: rest) next
  | number {c : Char} {rest : List Char} {next : Option Char}
      (digits : ∀ d ∈ c :: rest, d.isDigit) (whole : ∀ d ∈ next, ¬ d.isDigit) :
      Lexeme .int (c :: rest) next
  | equal {next : Option Char} : Lexeme .eq ['=', '='] next
  | notEqual {next : Option Char} : Lexeme .notEq ['!', '='] next
  | sign {c : Char} {next : Option Char} (blank : ¬ isBlank c) (letter : ¬ isLetter c)
      (digit : ¬ c.isDigit) (whole : c = '=' ∨ c = '!' → next ≠ some '=') :
      Lexeme ((Kind.signs.lookup c).getD .illegal) [c] next

namespace Lexeme

variable {kind : Kind} {literal after : List Char} {next : Option Char}

theorem head_not_blank (h : Lexeme kind literal next) : ∃ c ∈ literal.head?, isBlank c = false := by
  cases h with
  | @word c rest _ head _ _ => exact ⟨c, rfl, isBlank_of_isWordChar (by simp [isWordChar, head])⟩
  | @number c rest _ digits _ =>
    have digit := digits c List.mem_cons_self
    exact ⟨c, rfl, isBlank_of_isWordChar (by simp [isWordChar, digit])⟩
  | equal | notEqual => exact ⟨_, rfl, by decide⟩
  | @sign c _ blank _ _ _ => exact ⟨c, rfl, by simpa using blank⟩

theorem scanned (h : Lexeme kind literal after.head?) :
    lexeme (literal ++ after) = (kind, literal) := by
  cases h with
  | @word c rest _ head tail whole =>
    have same : (rest ++ after).takeWhile isWordChar = rest :=
      takeWhile_append_of_head (List.takeWhile_eq_self_iff.2 tail) fun d next => by
        simpa using whole d next
    rw [List.cons_append, lexeme_letter head, same]
    rfl
  | @number c rest _ digits whole =>
    have same : (rest ++ after).takeWhile Char.isDigit = rest :=
      takeWhile_append_of_head
        (List.takeWhile_eq_self_iff.2 fun d member => digits d (List.mem_cons_of_mem c member))
        fun d next => by simpa using whole d next
    rw [List.cons_append, lexeme_digit (digits c List.mem_cons_self), same]
  | equal | notEqual => rfl
  | @sign c _ _ letter digit whole =>
    rw [← Kind.ofChar_eq_lookup]
    exact lexeme_lone ⟨by simpa using letter, by simpa using digit, whole⟩

theorem of_text {text : List Char} (nonempty : text ≠ [])
    (start : ∀ c ∈ text.head?, isBlank c = false) :
    Lexeme (lexeme text).1 (lexeme text).2 (text.drop (lexeme text).2.length).head? := by
  have stop : ∀ (p : Char → Bool) (rest : List Char),
      ∀ d ∈ (rest.drop (rest.takeWhile p).length).head?, ¬ p d := by
    intro p rest d next
    have first := List.head?_dropWhile_not p rest
    rw [drop_takeWhile_length] at next
    rw [Option.mem_def.1 next] at first
    simpa using first
  rcases text_cases text with rfl | ⟨rest, rfl⟩ | ⟨rest, rfl⟩ | ⟨c, rest, rfl, letter⟩ |
    ⟨c, rest, rfl, digit⟩ | ⟨c, rest, rfl, lone⟩
  · exact absurd rfl nonempty
  · exact .equal
  · exact .notEqual
  · rw [lexeme_letter letter]
    exact .word letter (fun d member => List.mem_takeWhile_imp member) (stop isWordChar rest)
  · rw [lexeme_digit digit]
    refine .number (fun d member => ?_) (stop Char.isDigit rest)
    rcases List.mem_cons.1 member with rfl | later
    · exact digit
    · exact List.mem_takeWhile_imp later
  · rw [lexeme_lone lone, Kind.ofChar_eq_lookup]
    exact .sign (by simp [start c rfl]) (by simp [lone.letter]) (by simp [lone.digit]) lone.single

end Lexeme

namespace Token

def first (t : Token) : Nat := t.span.start.offset.toNat

def stop (t : Token) : Nat := t.span.stop.offset.toNat

/-- The token is a lexeme of the text, at the place that its span says. -/
structure StandsIn (text : List Char) (file : String) (t : Token) : Prop where
  start_file : t.span.start.file = file
  stop_file : t.span.stop.file = file
  kind : t.kind ≠ .eof
  nonempty : t.literal ≠ ""
  within : t.stop ≤ text.length
  literal : t.literal.toList = text.extract t.first t.stop
  lexeme : Lexeme t.kind t.literal.toList text[t.stop]?

namespace StandsIn

variable {text : List Char} {file : String} {t : Token} (h : t.StandsIn text file)
include h

theorem first_lt : t.first < t.stop := by
  by_contra empty
  apply h.nonempty
  rw [← String.ofList_toList (s := t.literal), h.literal, List.extract_eq_take_drop,
    Nat.sub_eq_zero_of_le (Nat.le_of_not_lt empty), List.take_zero]

theorem stop_eq : t.first + t.literal.toList.length = t.stop := by
  have order := h.first_lt
  have within := h.within
  rw [h.literal, List.extract_eq_take_drop, List.length_take, List.length_drop]
  omega

theorem split : text.drop t.first = t.literal.toList ++ text.drop t.stop := by
  have order := h.first_lt
  rw [h.literal, List.extract_eq_take_drop]
  nth_rewrite 1 [← List.take_append_drop (t.stop - t.first) (text.drop t.first)]
  rw [List.drop_drop, Nat.add_sub_cancel' (Nat.le_of_lt order)]

theorem getElem?_first : text[t.first]? = t.literal.toList.head? := by
  obtain ⟨c, head, -⟩ := h.lexeme.head_not_blank
  rw [← List.head?_drop, h.split, List.head?_append, Option.mem_def.1 head]
  rfl

theorem exists_head : ∃ c, text[t.first]? = some c ∧ isBlank c = false := by
  obtain ⟨c, head, blank⟩ := h.lexeme.head_not_blank
  exact ⟨c, h.getElem?_first.trans head, blank⟩

theorem span_eq : t.span = Span.between t.first t.stop file := by
  obtain ⟨kind, literal, ⟨⟨first, name⟩, ⟨stop, name'⟩⟩⟩ := t
  obtain rfl : name = file := h.start_file
  obtain rfl : name' = name := h.stop_file
  simp only [Span.between, Position.ofNat, Token.first, Token.stop, UInt32.ofNat_toNat]

end StandsIn

end Token

/-- From index `n` on, the tokens stand one behind the other in the text, with nothing but
blanks between them. -/
structure Tiles (text : List Char) (file : String) (n : Nat) (tokens : List Token) : Prop where
  stands : ∀ t ∈ tokens, t.StandsIn text file
  start : ∀ t ∈ tokens, n ≤ t.first
  ordered : tokens.Pairwise fun t u => t.stop ≤ u.first
  blanks : ∀ i c, n ≤ i → text[i]? = some c → (∀ t ∈ tokens, ¬ (t.first ≤ i ∧ i < t.stop)) →
    isBlank c

theorem Tiles.tail {text : List Char} {file : String} {n : Nat} {t : Token} {rest : List Token}
    (tiles : Tiles text file n (t :: rest)) : Tiles text file t.stop rest := by
  obtain ⟨behind, ordered⟩ := List.pairwise_cons.1 tiles.ordered
  obtain ⟨stands, others⟩ := List.forall_mem_cons.1 tiles.stands
  have start := tiles.start t List.mem_cons_self
  have length := stands.first_lt
  refine ⟨others, behind, ordered, fun i c after char uncovered => ?_⟩
  refine tiles.blanks i c (by omega) char (List.forall_mem_cons.2 ⟨by omega, uncovered⟩)

def endToken (text : List Char) (file : String) : Token :=
  ⟨.eof, "", Span.between text.length text.length file⟩

theorem endToken_first {text : List Char} (small : text.length < UInt32.size) (file : String) :
    (endToken text file).first = text.length := Position.ofNat_offset_toNat _ file small

structure Lexer.On (text : List Char) (l : Lexer) : Prop where
  rest : l.rest = text.drop l.offset
  within : l.offset ≤ text.length

namespace Lexer

variable {text : List Char} {l : Lexer}

theorem On.skipBlanks (on : l.On text) : l.skipBlanks.On text := by
  have fits := (List.takeWhile_prefix (p := isBlank) (l := l.rest)).length_le
  have left : l.rest.length = text.length - l.offset := by rw [on.rest, List.length_drop]
  have within := on.within
  constructor
  · change l.rest.dropWhile isBlank = text.drop (l.offset + (l.rest.takeWhile isBlank).length)
    rw [← List.drop_drop, ← on.rest, drop_takeWhile_length]
  · change l.offset + (l.rest.takeWhile isBlank).length ≤ text.length
    omega

theorem On.next (on : l.On text) : l.next.2.On text := by
  have fits := (lexeme_prefix_text l.skipBlanks.rest).length_le
  have left : l.skipBlanks.rest.length = text.length - l.skipBlanks.offset := by
    rw [on.skipBlanks.rest, List.length_drop]
  have within := on.skipBlanks.within
  constructor
  · change l.skipBlanks.rest.drop (lexeme l.skipBlanks.rest).2.length =
      text.drop (l.skipBlanks.offset + (lexeme l.skipBlanks.rest).2.length)
    rw [← List.drop_drop, ← on.skipBlanks.rest]
  · change l.skipBlanks.offset + (lexeme l.skipBlanks.rest).2.length ≤ text.length
    omega

theorem next_offset (l : Lexer) :
    l.next.2.offset = l.skipBlanks.offset + (lexeme l.skipBlanks.rest).2.length := rfl

theorem next_fst (l : Lexer) :
    l.next.1 = ⟨(lexeme l.skipBlanks.rest).1, String.ofList (lexeme l.skipBlanks.rest).2,
      Span.between l.skipBlanks.offset l.next.2.offset l.file⟩ := rfl

theorem On.blank_of_lt (on : l.On text) {i : Nat} {c : Char} (start : l.offset ≤ i)
    (before : i < l.skipBlanks.offset) (char : text[i]? = some c) : isBlank c := by
  have index : l.rest[i - l.offset]? = some c := by
    rw [on.rest, List.getElem?_drop, Nat.add_sub_cancel' start, char]
  have inside : i - l.offset < (l.rest.takeWhile isBlank).length := by
    change i < l.offset + (l.rest.takeWhile isBlank).length at before
    omega
  rw [← List.takeWhile_append_dropWhile (p := isBlank) (l := l.rest),
    List.getElem?_append_left inside] at index
  exact List.mem_takeWhile_imp (List.mem_of_getElem? index)

theorem On.finished (on : l.On text) (h : l.skipBlanks.rest = []) :
    l.skipBlanks.offset = text.length := by
  have left := congrArg List.length (on.skipBlanks.rest.symm.trans h)
  have within := on.skipBlanks.within
  rw [List.length_drop, List.length_nil] at left
  omega

section Place

variable (small : text.length < UInt32.size) (on : l.On text)
include small on

theorem On.next_first : l.next.1.first = l.skipBlanks.offset := by
  exact Position.ofNat_offset_toNat _ l.file (Nat.lt_of_le_of_lt on.skipBlanks.within small)

theorem On.next_stop : l.next.1.stop = l.next.2.offset := by
  exact Position.ofNat_offset_toNat _ l.file (Nat.lt_of_le_of_lt on.next.within small)

theorem On.next_stands (h : l.skipBlanks.rest ≠ []) : l.next.1.StandsIn text l.file := by
  have literal : l.next.1.literal.toList = (lexeme l.skipBlanks.rest).2 := String.toList_ofList
  have stop : l.next.1.stop = l.skipBlanks.offset + (lexeme l.skipBlanks.rest).2.length :=
    on.next_stop small
  refine ⟨rfl, rfl, l.next_kind_ne_eof h, ?_, ?_, ?_, ?_⟩
  · intro empty
    exact (l.next_lexical h).nonempty (by rw [empty]; rfl)
  · rw [on.next_stop small]
    exact on.next.within
  · rw [literal, List.extract_eq_take_drop, on.next_first small, stop, Nat.add_sub_cancel_left,
      ← on.skipBlanks.rest]
    exact List.prefix_iff_eq_take.1 (lexeme_prefix_text _)
  · have found := Lexeme.of_text h l.head_skipBlanks
    rw [literal, stop, ← List.head?_drop, ← List.drop_drop, ← on.skipBlanks.rest]
    exact found

end Place

theorem On.stream_tiles (small : text.length < UInt32.size) (on : l.On text) :
    Tiles text l.file l.offset l.stream.body ∧ l.stream.last = endToken text l.file := by
  fun_induction stream l with
  | case1 l h =>
    refine ⟨⟨List.forall_mem_nil _, List.forall_mem_nil _, .nil, fun i c start char _ => ?_⟩, ?_⟩
    · refine on.blank_of_lt start ?_ char
      rw [on.finished h]
      exact (List.getElem?_eq_some_iff.1 char).1
    · rw [l.next_fst, l.next_offset, h, on.finished h]
      rfl
  | case2 l h _ ih =>
    obtain ⟨tail, last⟩ := ih on.next
    have first := on.next_first small
    have stop := on.next_stop small
    have skipped : l.offset ≤ l.skipBlanks.offset := Nat.le_add_right _ _
    have passed : l.skipBlanks.offset ≤ l.next.2.offset := Nat.le_add_right _ _
    have behind : ∀ t ∈ l.next.2.stream.body, l.next.1.stop ≤ t.first := fun t member =>
      stop ▸ tail.start t member
    refine ⟨⟨?_, ?_, List.pairwise_cons.2 ⟨behind, tail.ordered⟩, ?_⟩, last⟩
    · exact List.forall_mem_cons.2 ⟨on.next_stands small h, tail.stands⟩
    · refine List.forall_mem_cons.2 ⟨by omega, fun t member => ?_⟩
      have := behind t member
      omega
    · intro i c start char uncovered
      obtain ⟨here, later⟩ := List.forall_mem_cons.1 uncovered
      by_cases before : i < l.skipBlanks.offset
      · exact on.blank_of_lt start before char
      · exact tail.blanks i c (by omega) char later

theorem On.eq_next (on : l.On text) {t : Token} (stands : t.StandsIn text l.file)
    (first : t.first = l.skipBlanks.offset) : t = l.next.1 ∧ t.stop = l.next.2.offset := by
  have rest : l.skipBlanks.rest = t.literal.toList ++ text.drop t.stop := by
    rw [on.skipBlanks.rest, ← first, stands.split]
  have found : lexeme l.skipBlanks.rest = (t.kind, t.literal.toList) := by
    rw [rest]
    exact Lexeme.scanned (by rw [List.head?_drop]; exact stands.lexeme)
  have stop : l.next.2.offset = t.stop := by
    rw [l.next_offset, found, ← first, stands.stop_eq]
  refine ⟨?_, stop.symm⟩
  rw [l.next_fst, found, stop, ← first, ← stands.span_eq, String.ofList_toList]

theorem On.exists_first (on : l.On text) {body : List Token}
    (tiles : Tiles text l.file l.offset body) (h : l.skipBlanks.rest ≠ []) :
    ∃ t rest, body = t :: rest ∧ t.first = l.skipBlanks.offset := by
  obtain ⟨c, more, head⟩ := List.exists_cons_of_ne_nil h
  have solid : isBlank c = false := l.head_skipBlanks c (by rw [head]; rfl)
  have char : text[l.skipBlanks.offset]? = some c := by
    rw [← List.head?_drop, ← on.skipBlanks.rest, head]
    rfl
  have covered : ∃ u ∈ body, u.first ≤ l.skipBlanks.offset ∧ l.skipBlanks.offset < u.stop := by
    by_contra uncovered
    have blank := tiles.blanks _ c (Nat.le_add_right _ _) char fun u member inside =>
      uncovered ⟨u, member, inside⟩
    rw [solid] at blank
    cases blank
  obtain ⟨u, member, reached, inside⟩ := covered
  cases body with
  | nil => cases member
  | cons t rest =>
    have stands := tiles.stands t List.mem_cons_self
    have late : l.skipBlanks.offset ≤ t.first := by
      by_contra early
      obtain ⟨d, char, solid⟩ := stands.exists_head
      have blank := on.blank_of_lt (tiles.start t List.mem_cons_self) (Nat.lt_of_not_le early) char
      rw [solid] at blank
      cases blank
    refine ⟨t, rest, rfl, Nat.le_antisymm ?_ late⟩
    rcases List.mem_cons.1 member with rfl | later
    · exact reached
    · have order := (List.pairwise_cons.1 tiles.ordered).1 u later
      have length := stands.first_lt
      omega

/-- Whatever tiles the text from the lexer's place on is what the lexer finds. -/
theorem On.eq_stream (on : l.On text) {body : List Token}
    (tiles : Tiles text l.file l.offset body) : body = l.stream.body := by
  fun_induction stream l generalizing body with
  | case1 l h =>
    cases body with
    | nil => rfl
    | cons t rest =>
      obtain ⟨c, char, solid⟩ := (tiles.stands t List.mem_cons_self).exists_head
      have blank := on.blank_of_lt (tiles.start t List.mem_cons_self)
        (on.finished h ▸ (List.getElem?_eq_some_iff.1 char).1) char
      rw [solid] at blank
      cases blank
  | case2 l h _ ih =>
    obtain ⟨t, rest, rfl, first⟩ := on.exists_first tiles h
    obtain ⟨same, stop⟩ := on.eq_next (tiles.stands t List.mem_cons_self) first
    have others : rest = l.next.2.stream.body := ih on.next (stop ▸ tiles.tail)
    rw [same, others]
    rfl

theorem ofSource_on (source : String) (file : Option String) :
    (ofSource source file).On source.toList :=
  ⟨rfl, Nat.zero_le _⟩

end Lexer

theorem standsIn_or_eq_endToken {source : String} (small : source.length < 2 ^ 32)
    {file : Option String} {t : Token} (member : t ∈ tokenize source file) :
    t.StandsIn source.toList (file.getD "shell") ∨
      t = endToken source.toList (file.getD "shell") := by
  have word : source.toList.length < UInt32.size := by rwa [String.length_toList]
  obtain ⟨tiles, last⟩ := (Lexer.ofSource_on source file).stream_tiles word
  rcases List.mem_append.1 member with inside | stop
  · exact .inl (tiles.stands t inside)
  · exact .inr ((List.mem_singleton.1 stop).trans last)

/-- What the tokens of a source have to be. -/
def IsTokenization (source file : String) (tokens : List Token) : Prop :=
  ∃ body, tokens = body ++ [endToken source.toList file] ∧ Tiles source.toList file 0 body

/-- The tokens of a source are the only ones that tile it. -/
theorem tokenize_eq_iff {source : String} (small : source.length ≤ 2 ^ 32 - 1)
    (file : Option String) (tokens : List Token) :
    tokenize source file = tokens ↔ IsTokenization source (file.getD "shell") tokens := by
  have on := Lexer.ofSource_on source file
  have word : source.toList.length < UInt32.size := by
    rw [String.length_toList]
    exact Nat.lt_of_le_of_lt small (by decide)
  obtain ⟨tiles, last⟩ := on.stream_tiles word
  constructor
  · rintro rfl
    exact ⟨_, congrArg (_ ++ [·]) last, tiles⟩
  · rintro ⟨body, rfl, other⟩
    have same := on.eq_stream other
    rw [same]
    exact congrArg (_ ++ [·]) last

theorem tokenize_eq_iff_adjacent :
    IsTokenization "fn_1!==\x00 07é" "shell"
      [⟨.ident, "fn_1", .between 0 4 "shell"⟩, ⟨.notEq, "!=", .between 4 6 "shell"⟩,
        ⟨.assign, "=", .between 6 7 "shell"⟩, ⟨.illegal, "\x00", .between 7 8 "shell"⟩,
        ⟨.int, "07", .between 9 11 "shell"⟩, ⟨.illegal, "é", .between 11 12 "shell"⟩,
        ⟨.eof, "", .between 12 12 "shell"⟩] :=
  (tokenize_eq_iff (by decide) none _).1 (by decide +kernel)

end ScriptFront
