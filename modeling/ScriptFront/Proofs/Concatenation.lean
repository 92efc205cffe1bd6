import ScriptFront.Proofs.Tokenization

/-! The tokens of texts that are put together. Where the last token of a text cannot go on into
the next text, the tokens of the two are found one after the other, those of the second text
as many characters further on as the first text is long. Blanks have no tokens and no token goes
on over a blank, so blanks between two texts keep them apart whatever the texts are. -/

namespace ScriptFront

theorem Position.shift_shift (m n : Nat) (p : Position) :
    (p.shift m).shift n = p.shift (m + n) := by
  change (Position.ofNat (p.offset.toNat + m) p.file).shift n = _
  rw [Position.shift_ofNat, Nat.add_assoc]
  rfl

theorem Token.shift_shift (m n : Nat) (t : Token) : (t.shift m).shift n = t.shift (m + n) := by
  simp only [Token.shift, Position.shift_shift]

structure Token.FurtherOn (n : Nat) (t u : Token) : Prop where
  kind : u.kind = t.kind
  literal : u.literal = t.literal
  start_file : u.span.start.file = t.span.start.file
  stop_file : u.span.stop.file = t.span.stop.file
  first : u.first = t.first + n
  stop : u.stop = t.stop + n

theorem Token.furtherOn_shift {t : Token} {n : Nat} (first : t.first + n < UInt32.size)
    (stop : t.stop + n < UInt32.size) : t.FurtherOn n (t.shift n) where
  kind := rfl
  literal := rfl
  start_file := rfl
  stop_file := rfl
  first := Position.ofNat_offset_toNat _ t.span.start.file first
  stop := Position.ofNat_offset_toNat _ t.span.stop.file stop

section Sources

variable {first second blanks source : String} {file : Option String}

/-- A token of a source does not reach behind it. -/
theorem stop_le_of_mem_tokenize (small : source.length < 2 ^ 32) {t : Token}
    (member : t ∈ tokenize source file) : t.first ≤ t.stop ∧ t.stop ≤ source.length := by
  have word : source.toList.length < UInt32.size := by rwa [String.length_toList]
  rw [← String.length_toList]
  rcases standsIn_or_eq_endToken small member with stands | rfl
  · exact ⟨Nat.le_of_lt stands.first_lt, stands.within⟩
  · have stop : (endToken source.toList (file.getD "shell")).stop = source.toList.length :=
      endToken_first word _
    exact ⟨Nat.le_refl _, Nat.le_of_eq stop⟩

/-- Texts of which the first cannot go on into the second are scanned one after the other. -/
theorem tokenize_append
    (apart : ∀ t ∈ (tokenize first file).dropLast.getLast?, Breaks t.kind second.toList) :
    tokenize (first ++ second) file = (tokenize first file).filter (·.kind ≠ .eof) ++
      (tokenize second file).map (Token.shift first.length) := by
  rw [tokenize_dropLast] at apart
  rw [tokenize_filter, tokenize, Lexer.stream_ofSource_append apart]
  simp only [tokenize, TokenStream.toList, List.map_append, List.map_singleton, List.append_assoc]

theorem breaks_blanks_append (nonempty : blanks ≠ "") (blank : ∀ c ∈ blanks.toList, isBlank c)
    (kind : Kind) : Breaks kind (blanks ++ second).toList := by
  obtain ⟨c, rest, text⟩ : ∃ c rest, blanks.toList = c :: rest :=
    List.exists_cons_of_ne_nil (by simpa using nonempty)
  rw [String.toList_append, text, List.cons_append]
  exact .blank (blank c (by simp [text])) kind _

theorem Lexer.stream_body_of_blanks (blank : ∀ c ∈ blanks.toList, isBlank c) :
    (Lexer.ofSource blanks file).stream.body = [] := by
  have skipped : (Lexer.ofSource blanks file).skipBlanks.rest = [] :=
    List.dropWhile_eq_nil_iff.2 blank
  rw [Lexer.stream_of_blank _ skipped]

theorem tokenize_blanks_append (blank : ∀ c ∈ blanks.toList, isBlank c) :
    tokenize (blanks ++ second) file = (tokenize second file).map (Token.shift blanks.length) := by
  have none : (Lexer.ofSource blanks file).stream.body = [] := Lexer.stream_body_of_blanks blank
  rw [tokenize_append (by rw [tokenize_dropLast, none]; exact nofun), tokenize_filter, none,
    List.nil_append]

end Sources

/-- Texts with blanks between them are scanned one after the other, each as if it stood alone. -/
theorem tokenize_append_blanks {first blanks second : String} {file : Option String}
    (nonempty : blanks ≠ "")
    (blank : ∀ c ∈ blanks.toList, c = ' ' ∨ c = '\t' ∨ c = '\n' ∨ c = '\r')
    (small : (first ++ blanks ++ second).length < 2 ^ 32) :
    tokenize (first ++ blanks ++ second) file = (tokenize first file).filter (·.kind ≠ .eof) ++
        (tokenize second file).map (Token.shift (first ++ blanks).length) ∧
      ∀ t ∈ tokenize second file,
        t.FurtherOn (first ++ blanks).length (t.shift (first ++ blanks).length) := by
  have skipped : ∀ c ∈ blanks.toList, isBlank c := fun c member => isBlank_iff.2 (blank c member)
  constructor
  · -- The cut is made in front of the blanks: behind them the last token of the text before
    -- would be that of `first ++ blanks`, which is not known yet.
    calc tokenize (first ++ blanks ++ second) file
        = tokenize (first ++ (blanks ++ second)) file := by rw [String.append_assoc]
      _ = (tokenize first file).filter (·.kind ≠ .eof) ++
            (tokenize (blanks ++ second) file).map (Token.shift first.length) :=
          tokenize_append fun t _ => breaks_blanks_append nonempty skipped t.kind
      _ = (tokenize first file).filter (·.kind ≠ .eof) ++
            (tokenize second file).map (Token.shift (first ++ blanks).length) := by
          rw [tokenize_blanks_append skipped, List.map_map, String.length_append, Nat.add_comm]
          simp only [Function.comp_def, Token.shift_shift]
  · intro t member
    have word : UInt32.size = 2 ^ 32 := rfl
    rw [String.length_append] at small
    obtain ⟨order, within⟩ := stop_le_of_mem_tokenize (by omega) member
    exact Token.furtherOn_shift (by omega) (by omega)

theorem tokenize_append_blanks_signs :
    tokenize ("a\x00!" ++ "\r\n" ++ "= é ") none =
        (tokenize "a\x00!" none).filter (·.kind ≠ .eof) ++
          (tokenize "= é " none).map (Token.shift ("a\x00!" ++ "\r\n").length) ∧
      ∀ t ∈ tokenize "= é " none,
        t.FurtherOn ("a\x00!" ++ "\r\n").length (t.shift ("a\x00!" ++ "\r\n").length) :=
  tokenize_append_blanks (by decide) (by simp) (by decide)

/-- Without a blank, two signs may be one token. -/
example : tokenize ("!" ++ "=") none =
    [⟨.notEq, "!=", .between 0 2 "shell"⟩, ⟨.eof, "", .between 2 2 "shell"⟩] := by decide +kernel

end ScriptFront
