import ScriptFront.Diagnostic.Excerpt
import ScriptFront.Proofs.Lines
import ScriptFront.Proofs.Tokenization
import ScriptFront.Proofs.Truthfulness

/-! Where the caret of an excerpt points. The line is shown without its indentation and
without the white space at its end, and the caret is moved to the left by the width of the
indentation. A character that is not white space is never cut off, so it is shown at the
column of the caret, and at the end of the source the caret stands behind all that is shown.
Both rows begin with the same number of characters, so columns in the line are indices in
the rows. -/

namespace ScriptFront

namespace Text

theorem dropSpaceEnd_eq_rdropWhile (cs : List Char) : dropSpaceEnd cs = cs.rdropWhile isSpace := rfl

theorem dropSpaceEnd_getElem? {cs : List Char} {i : Nat} {c : Char} (char : cs[i]? = some c)
    (solid : isSpace c = false) : (dropSpaceEnd cs)[i]? = some c := by
  rw [dropSpaceEnd_eq_rdropWhile]
  induction cs using List.reverseRecOn with
  | nil => cases char
  | append_singleton cs d ih =>
    rw [List.rdropWhile_concat]
    split
    · next space =>
      have inside : i < cs.length := by
        by_contra behind
        rw [List.getElem?_append_right (Nat.le_of_not_lt behind)] at char
        have last := List.mem_singleton.1 (List.mem_of_getElem? char)
        rw [last, space] at solid
        cases solid
      exact ih (by rwa [List.getElem?_append_left inside] at char)
    · exact char

theorem not_mem_dropSpaceEnd {cs : List Char} (inner : '\n' ∉ cs.dropLast) :
    '\n' ∉ dropSpaceEnd cs := by
  rw [dropSpaceEnd_eq_rdropWhile]
  rcases List.eq_nil_or_concat cs with rfl | ⟨init, d, rfl⟩
  · exact List.not_mem_nil
  · rw [List.concat_eq_append] at inner ⊢
    rw [List.dropLast_concat] at inner
    rw [List.rdropWhile_concat]
    split
    · exact fun mark => inner ((List.rdropWhile_prefix _ _).subset mark)
    · next solid =>
      rw [List.mem_append, List.mem_singleton, not_or]
      refine ⟨inner, fun mark => solid ?_⟩
      rw [← mark]
      decide

namespace Line

variable {l : Line} {c : Char}

theorem drop_indent (l : Line) : l.text.dropWhile isIndent = l.text.drop l.indent :=
  (drop_takeWhile_length isIndent l.text).symm

theorem isSpace_of_isIndent (h : isIndent c) : isSpace c := by
  simp only [isIndent, Bool.or_eq_true, decide_eq_true_eq] at h
  rcases h with rfl | rfl <;> decide

theorem indent_le_column (char : l.text[l.column]? = some c) (solid : isSpace c = false) :
    l.indent ≤ l.column := by
  by_contra early
  have inside : l.column < (l.text.takeWhile isIndent).length := Nat.lt_of_not_le early
  rw [← List.takeWhile_append_dropWhile (p := isIndent) (l := l.text),
    List.getElem?_append_left inside] at char
  have space := isSpace_of_isIndent (List.mem_takeWhile_imp (List.mem_of_getElem? char))
  rw [space] at solid
  cases solid

theorem shown_getElem?_caret (char : l.text[l.column]? = some c) (solid : isSpace c = false) :
    l.shown[l.caret]? = some c := by
  refine dropSpaceEnd_getElem? ?_ solid
  rw [drop_indent, List.getElem?_drop, caret, Nat.add_sub_cancel' (indent_le_column char solid)]
  exact char

theorem shown_length_le_caret (behind : l.column = l.text.length) :
    l.shown.length ≤ l.caret := by
  calc l.shown.length
      ≤ (l.text.dropWhile isIndent).length := (List.rdropWhile_prefix _ _).length_le
    _ = l.caret := by rw [drop_indent, List.length_drop, caret, behind]

theorem not_mem_shown (inner : '\n' ∉ l.text.dropLast) : '\n' ∉ l.shown := by
  refine not_mem_dropSpaceEnd fun mark => inner ?_
  obtain ⟨indent, split⟩ := List.dropWhile_suffix (l := l.text) isIndent
  by_cases empty : l.text.dropWhile isIndent = []
  · rw [empty] at mark
    cases mark
  · rw [← split, List.dropLast_append_of_ne_nil empty]
    exact List.mem_append_right _ mark

end Line

end Text

theorem idxOf_append_cons {before after : List Char} {c : Char} (first : c ∉ before) :
    (before ++ c :: after).idxOf c = before.length := by
  rw [List.idxOf_append_of_notMem first, List.idxOf_cons_self, Nat.add_zero]

theorem not_mem_toString {c : Char} (other : c.isDigit = false) (n : Nat) :
    c ∉ (toString n).toList := by
  rw [Nat.toString_eq_ofList_toDigits, String.toList_ofList]
  intro member
  rw [Nat.isDigit_of_mem_toDigits (by decide) (by decide) member] at other
  cases other

namespace Diagnostic

section Rows

variable (l : Text.Line) (digits caret : Nat)

theorem lineRow_eq : lineRow l = ((toString l.number).toList ++ [' ', '|', ' ']) ++ l.shown := rfl

theorem caretRow_eq : caretRow digits caret =
    (List.replicate (digits + 1) ' ' ++ '|' :: ' ' :: List.replicate caret '-') ++ ['^'] := by
  simp [caretRow, barRow]

theorem lineRow_head_length : ((toString l.number).toList ++ [' ', '|', ' ']).length =
    (toString l.number).length + 3 := by
  rw [List.length_append, String.length_toList]
  rfl

theorem lineRow_length : (lineRow l).length = (toString l.number).length + 3 + l.shown.length := by
  rw [lineRow_eq, List.length_append, lineRow_head_length]

theorem lineRow_getElem? (i : Nat) :
    (lineRow l)[(toString l.number).length + 3 + i]? = l.shown[i]? := by
  rw [lineRow_eq, ← lineRow_head_length, List.getElem?_append_right (Nat.le_add_right _ _),
    Nat.add_sub_cancel_left]

theorem lineRow_idxOf_bar : (lineRow l).idxOf '|' = (toString l.number).length + 1 := by
  have digits := not_mem_toString (c := '|') rfl l.number
  have first : '|' ∉ (toString l.number).toList ++ [' '] := fun bar =>
    (List.mem_append.1 bar).elim digits (by decide)
  have split : lineRow l = ((toString l.number).toList ++ [' ']) ++ '|' :: ' ' :: l.shown := by
    rw [lineRow_eq, List.append_assoc, List.append_assoc]
    rfl
  rw [split, idxOf_append_cons first, List.length_append, String.length_toList]
  rfl

theorem caretRow_idxOf_bar : (caretRow digits caret).idxOf '|' = digits + 1 := by
  have first : '|' ∉ List.replicate (digits + 1) ' ' := by simp [List.mem_replicate]
  rw [caretRow_eq, List.append_assoc, List.cons_append, idxOf_append_cons first,
    List.length_replicate]

theorem caretRow_idxOf_caret : (caretRow digits caret).idxOf '^' = digits + 3 + caret := by
  have first : '^' ∉ List.replicate (digits + 1) ' ' ++ '|' :: ' ' :: List.replicate caret '-' := by
    simp [List.mem_replicate]
  rw [caretRow_eq, idxOf_append_cons first]
  simp
  omega

theorem not_mem_caretRow : '\n' ∉ caretRow digits caret := by
  simp [caretRow_eq, List.mem_replicate]

theorem not_mem_lineRow (inner : '\n' ∉ l.text.dropLast) : '\n' ∉ lineRow l := by
  have digits := not_mem_toString (c := '\n') rfl l.number
  rw [lineRow_eq, List.mem_append, List.mem_append, not_or, not_or]
  exact ⟨⟨digits, by decide⟩, Text.Line.not_mem_shown inner⟩

end Rows

/-- The rows `x` and `c` point at a token: `x` is the number of its line, a bar and some text,
`c` a bar below the other and a caret below the token's first character, unless that is white
space. The caret of the end token stands behind the text. -/
structure PointAt (source : String) (t : Token) (x c : List Char) : Prop where
  rows : '\n' ∉ x ∧ '\n' ∉ c
  line : ∃ shown, x =
    (toString ((source.toList.take t.first).count '\n' + 1)).toList ++ [' ', '|', ' '] ++ shown
  arrow : ∃ bar dashes, c =
    List.replicate bar ' ' ++ ['|'] ++ [' '] ++ List.replicate dashes '-' ++ ['^']
  bars : x.idxOf '|' = c.idxOf '|'
  char : t.kind ≠ .eof → ∃ first, t.literal.toList.head? = some first ∧
    (Text.isSpace first = false → x[c.idxOf '^']? = some first)
  stop : t.kind = .eof → x.length ≤ c.idxOf '^'

end Diagnostic

/-- The rows for the place of a token point at it. -/
theorem Token.pointAt {source : String} (small : source.length < 2 ^ 32) {file : Option String}
    {t : Token} (member : t ∈ tokenize source file) :
    Diagnostic.PointAt source t (Diagnostic.lineRow (Text.lineAt source t.first))
      (Diagnostic.caretRow (toString (Text.lineAt source t.first).number).length
        (Text.lineAt source t.first).caret) := by
  have inner := Text.lineAt_inner source t.first
  have number := Text.lineAt_number source t.first
  have column := Text.lineAt_getElem?_column source t.first
  have kinds := standsIn_or_eq_endToken small member
  refine ⟨⟨Diagnostic.not_mem_lineRow _ inner, Diagnostic.not_mem_caretRow _ _⟩,
    ⟨_, number ▸ Diagnostic.lineRow_eq _⟩, ⟨_, _, rfl⟩, ?_, fun running => ?_, fun stop => ?_⟩
  · rw [Diagnostic.lineRow_idxOf_bar, Diagnostic.caretRow_idxOf_bar]
  · rcases kinds with stands | rfl
    · obtain ⟨first, head, -⟩ := stands.lexeme.head_not_blank
      refine ⟨first, head, fun solid => ?_⟩
      have char := column.trans (stands.getElem?_first.trans head)
      rw [Diagnostic.caretRow_idxOf_caret, Diagnostic.lineRow_getElem?,
        Text.Line.shown_getElem?_caret char solid]
    · exact absurd rfl running
  · rcases kinds with stands | rfl
    · exact absurd stop stands.kind
    · have word : source.toList.length < UInt32.size := by rwa [String.length_toList]
      have last := (endToken_first word (file.getD "shell")).trans source.length_toList
      have behind := Text.lineAt_column_of_le source (Nat.le_of_eq last.symm)
      have short := Text.Line.shown_length_le_caret behind
      rw [Diagnostic.caretRow_idxOf_caret, Diagnostic.lineRow_length]
      omega

/-- The last two rows of an excerpt point at the token that the diagnostic stands at. -/
theorem excerpt_points {source : String} (small : source.length < 2 ^ 32) {file : Option String}
    {d : Diagnostic} (found : d ∈ (readProgram source file).2.errors) :
    (∃ t ∈ tokenize source file, t.position = d.position) ∧
      ∀ t ∈ tokenize source file, t.position = d.position →
        ∃ (above : String) (x c : List Char),
          d.excerpt source = above ++ "\n" ++ String.ofList x ++ "\n" ++ String.ofList c ∧
            Diagnostic.PointAt source t x c := by
  obtain ⟨i, t, member, place, -⟩ :=
    readProgram_errors_truthful source file d (Array.mem_toList_iff.2 found)
  refine ⟨⟨t, List.mem_of_getElem? member, place.symm⟩, fun t member place => ?_⟩
  have offset : t.first = d.position.offset.toNat := congrArg (·.offset.toNat) place
  exact ⟨_, _, _, rfl, offset ▸ Token.pointAt small member⟩

theorem excerpt_points_indented :
    (⟨.unexpectedToken .assign .int, ⟨16, "shell"⟩⟩ : Diagnostic) ∈
        (readProgram "  f(é);\n\t var x 5" none).2.errors ∧
      ∃ (above : String) (x c : List Char),
        Diagnostic.excerpt ⟨.unexpectedToken .assign .int, ⟨16, "shell"⟩⟩
            "  f(é);\n\t var x 5" =
          above ++ "\n" ++ String.ofList x ++ "\n" ++ String.ofList c ∧
        Diagnostic.PointAt "  f(é);\n\t var x 5" ⟨.int, "5", .between 16 17 "shell"⟩ x c := by
  have small : "  f(é);\n\t var x 5".length < 2 ^ 32 := by decide +kernel
  have found : (⟨.unexpectedToken .assign .int, ⟨16, "shell"⟩⟩ : Diagnostic) ∈
      (readProgram "  f(é);\n\t var x 5" none).2.errors := by decide +kernel
  exact ⟨found, (excerpt_points small found).2 _ (by decide +kernel) rfl⟩

example :
    Diagnostic.excerpt ⟨.unexpectedToken .assign .int, ⟨16, "shell"⟩⟩ "  f(é);\n\t var x 5" =
      "Error: Expected token ASSIGN, got INT instead\n-> shell\n  |\n2 | var x 5\n  | ------^" := by
  decide +kernel

end ScriptFront
