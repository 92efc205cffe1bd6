import Mathlib
import ScriptFront.Proofs.Remainder
import ScriptFront.ReadLoop

/-! Which lines ask for a script. Such a line matches a pattern: white space, the word `file`,
more white space, a name without any and white space again, of which the first and the last
may be missing. That is the same as having exactly two words, the first of which is `file`.
Any other line is itself the source, and nothing is loaded for it. -/

namespace ScriptFront

open scoped Computability

namespace Text

def words (text : List Char) : List (List Char) := (text.splitOnP isSpace).filter (!·.isEmpty)

def chars (p : Char → Bool) : Language Char := {text | ∃ c, text = [c] ∧ p c}

theorem mem_kstar_chars {p : Char → Bool} {text : List Char} :
    text ∈ (chars p)∗ ↔ ∀ c ∈ text, p c := by
  rw [Language.mem_kstar]
  constructor
  · rintro ⟨parts, rfl, each⟩ c member
    obtain ⟨part, own, inside⟩ := List.mem_flatten.1 member
    obtain ⟨d, rfl, has⟩ := each part own
    rwa [List.mem_singleton.1 inside]
  · intro all
    refine ⟨text.map fun c => [c], (List.flatMap_singleton' text).symm, fun part own => ?_⟩
    obtain ⟨c, member, rfl⟩ := List.mem_map.1 own
    exact ⟨c, rfl, all c member⟩

def run (p : Char → Bool) : Language Char := chars p * (chars p)∗

theorem mem_run {p : Char → Bool} {text : List Char} :
    text ∈ run p ↔ text ≠ [] ∧ ∀ c ∈ text, p c := by
  rw [run, Language.mem_mul]
  constructor
  · rintro ⟨_, ⟨c, rfl, has⟩, rest, others, rfl⟩
    exact ⟨List.cons_ne_nil c rest, List.forall_mem_cons.2 ⟨has, mem_kstar_chars.1 others⟩⟩
  · rintro ⟨nonempty, all⟩
    obtain ⟨c, rest, rfl⟩ := List.exists_cons_of_ne_nil nonempty
    obtain ⟨has, others⟩ := List.forall_mem_cons.1 all
    exact ⟨[c], ⟨c, rfl, has⟩, rest, mem_kstar_chars.2 others, rfl⟩

def IsGap (text : List Char) : Prop := ∀ c ∈ text, isSpace c

/-- A text that no white space breaks. -/
structure IsWord (text : List Char) : Prop where
  nonempty : text ≠ []
  solid : ∀ c ∈ text, isSpace c = false

section Words

variable {gap word rest text : List Char}

theorem words_append_space {c : Char} (space : isSpace c) (first second : List Char) :
    words (first ++ c :: second) = words first ++ words second := by
  rw [words, List.splitOnP_append_cons first second space, List.filter_append]
  rfl

theorem words_gap_append (h : IsGap gap) (text : List Char) : words (gap ++ text) = words text := by
  induction gap with
  | nil => rfl
  | cons c gap ih =>
    obtain ⟨space, others⟩ := List.forall_mem_cons.1 h
    exact (words_append_space space [] (gap ++ text)).trans (ih others)

theorem words_of_gap (h : IsGap text) : words text = [] := by
  have all := words_gap_append h []
  rwa [List.append_nil] at all

theorem IsWord.words_eq (h : IsWord word) : words word = [word] := by
  rw [words, List.splitOnP_eq_singleton h.solid]
  simp [h.nonempty]

theorem IsWord.words_append (h : IsWord word) (stop : ∀ c ∈ rest.head?, isSpace c) :
    words (word ++ rest) = word :: words rest := by
  cases rest with
  | nil => rw [List.append_nil, h.words_eq]; rfl
  | cons c rest =>
    have space := stop c rfl
    rw [words_append_space space, h.words_eq]
    exact congrArg (word :: ·) (words_append_space space [] rest).symm

theorem IsGap.dropWhile_append (h : IsGap gap) (text : List Char) :
    (gap ++ text).dropWhile isSpace = text.dropWhile isSpace :=
  List.dropWhile_append_of_pos h

theorem IsWord.dropWhile_append (h : IsWord word) (rest : List Char) :
    (word ++ rest).dropWhile isSpace = word ++ rest := by
  obtain ⟨c, word, rfl⟩ := List.exists_cons_of_ne_nil h.nonempty
  exact List.dropWhile_cons_of_neg (by simp [h.solid c List.mem_cons_self])

theorem IsWord.read (h : IsWord word) (stop : ∀ c ∈ rest.head?, isSpace c) :
    (word ++ rest).takeWhile (!isSpace ·) = word ∧
      (word ++ rest).dropWhile (!isSpace ·) = rest := by
  have solid : ∀ c ∈ word, (!isSpace c) = true := fun c member => by simp [h.solid c member]
  rw [List.takeWhile_append_of_pos solid, List.dropWhile_append_of_pos solid]
  cases rest with
  | nil => exact ⟨List.append_nil word, rfl⟩
  | cons c rest =>
    have space := stop c rfl
    simp [space]

theorem isGap_or_exists_word (text : List Char) :
    IsGap text ∨ ∃ gap word rest, text = gap ++ (word ++ rest) ∧ IsGap gap ∧ IsWord word ∧
      ∀ c ∈ rest.head?, isSpace c := by
  by_cases more : text.dropWhile isSpace = []
  · exact .inl (List.dropWhile_eq_nil_iff.1 more)
  · right
    refine ⟨text.takeWhile isSpace, (text.dropWhile isSpace).takeWhile (!isSpace ·),
      (text.dropWhile isSpace).dropWhile (!isSpace ·), ?_, ?_, ⟨?_, ?_⟩, ?_⟩
    · rw [List.takeWhile_append_dropWhile, List.takeWhile_append_dropWhile]
    · exact fun c member => List.mem_takeWhile_imp member
    · obtain ⟨c, rest, head⟩ := List.exists_cons_of_ne_nil more
      have first := List.head?_dropWhile_not isSpace text
      rw [head, List.head?_cons] at first
      rw [head, List.takeWhile_cons_of_pos (by simp [first])]
      exact List.cons_ne_nil c _
    · exact fun c member => by simpa using List.mem_takeWhile_imp member
    · intro c head
      have first := List.head?_dropWhile_not (!isSpace ·) (text.dropWhile isSpace)
      rw [Option.mem_def.1 head] at first
      simpa using first

theorem words_eq_nil_iff : words text = [] ↔ IsGap text := by
  refine ⟨fun none => ?_, words_of_gap⟩
  rcases isGap_or_exists_word text with all | ⟨gap, word, rest, rfl, before, own, stop⟩
  · exact all
  · rw [words_gap_append before, own.words_append stop] at none
    cases none

theorem exists_of_words_eq_cons {ws : List (List Char)} (h : words text = word :: ws) :
    ∃ gap rest, text = gap ++ (word ++ rest) ∧ IsGap gap ∧ IsWord word ∧
      (∀ c ∈ rest.head?, isSpace c) ∧ words rest = ws := by
  rcases isGap_or_exists_word text with all | ⟨gap, own, rest, rfl, before, isWord, stop⟩
  · rw [words_of_gap all] at h
    cases h
  · rw [words_gap_append before, isWord.words_append stop] at h
    obtain ⟨rfl, rfl⟩ := List.cons.inj h
    exact ⟨gap, rest, rfl, before, isWord, stop, rfl⟩

end Words

end Text

namespace Command

open Text

/-- The lines that ask for a script of this name. -/
def pattern (name : List Char) : Language Char :=
  (chars isSpace)∗ * {"file".toList} * run isSpace * ({name} ⊓ run (!isSpace ·)) *
    (chars isSpace)∗

variable {line name : List Char}

theorem mem_pattern : line ∈ pattern name ↔
    ∃ before gap after, line = before ++ ("file".toList ++ (gap ++ (name ++ after))) ∧
      IsGap before ∧ IsGap gap ∧ gap ≠ [] ∧ IsWord name ∧ IsGap after := by
  rw [pattern, mul_assoc, mul_assoc, mul_assoc]
  constructor
  · intro matched
    obtain ⟨before, first, _, worded, rfl⟩ := Language.mem_mul.1 matched
    obtain ⟨_, rfl, _, parted, rfl⟩ := Language.mem_mul.1 worded
    obtain ⟨gap, space, _, named, rfl⟩ := Language.mem_mul.1 parted
    obtain ⟨_, ⟨rfl, own⟩, after, last, rfl⟩ := Language.mem_mul.1 named
    obtain ⟨nonempty, second⟩ := mem_run.1 space
    obtain ⟨some, solid⟩ := mem_run.1 own
    exact ⟨before, gap, after, rfl, mem_kstar_chars.1 first, second, nonempty,
      ⟨some, fun c member => by simpa using solid c member⟩, mem_kstar_chars.1 last⟩
  · rintro ⟨before, gap, after, rfl, first, second, nonempty, word, last⟩
    have own : name ∈ run (!isSpace ·) :=
      mem_run.2 ⟨word.nonempty, fun c member => by simp [word.solid c member]⟩
    have named : name ++ after ∈ ({name} ⊓ run (!isSpace ·)) * (chars isSpace)∗ :=
      Language.append_mem_mul ⟨rfl, own⟩ (mem_kstar_chars.2 last)
    have parted := Language.append_mem_mul (mem_run.2 ⟨nonempty, second⟩) named
    exact Language.append_mem_mul (mem_kstar_chars.2 first)
      (Language.append_mem_mul (Set.mem_singleton "file".toList) parted)

theorem isWord_file : IsWord "file".toList where
  nonempty := by decide
  solid c member := by
    have all : "file".toList.all (!isSpace ·) := by decide
    simpa using List.all_eq_true.1 all c member

/-- A line matches the pattern if it has two words, `file` and the name. -/
theorem words_eq_iff : words line = ["file".toList, name] ↔ line ∈ pattern name := by
  rw [mem_pattern]
  constructor
  · intro two
    obtain ⟨before, rest, rfl, first, -, stop, one⟩ := exists_of_words_eq_cons two
    obtain ⟨gap, after, rfl, second, word, -, none⟩ := exists_of_words_eq_cons one
    refine ⟨before, gap, after, rfl, first, second, ?_, word, words_eq_nil_iff.1 none⟩
    -- Without a gap the name would go on with the word before it.
    rintro rfl
    obtain ⟨c, name, rfl⟩ := List.exists_cons_of_ne_nil word.nonempty
    have solid := word.solid c List.mem_cons_self
    rw [stop c rfl] at solid
    cases solid
  · rintro ⟨before, gap, after, rfl, first, second, nonempty, word, last⟩
    have apart : ∀ c ∈ (gap ++ (name ++ after)).head?, isSpace c := by
      obtain ⟨c, gap, rfl⟩ := List.exists_cons_of_ne_nil nonempty
      rintro d ⟨⟩
      exact second c List.mem_cons_self
    have behind : ∀ c ∈ after.head?, isSpace c := fun c head => last c (List.mem_of_mem_head? head)
    rw [words_gap_append first, isWord_file.words_append apart, words_gap_append second,
      word.words_append behind, words_of_gap last]

theorem scriptName?_eq_some_iff : scriptName? line = some name ↔ line ∈ pattern name := by
  rw [mem_pattern]
  constructor
  · intro found
    rw [scriptName?] at found
    split at found
    · next c rest head =>
      dsimp only at found
      split at found
      · next fits =>
        obtain ⟨space, some, blank⟩ := fits
        obtain rfl := Option.some.inj found
        refine ⟨line.takeWhile isSpace, c :: rest.takeWhile isSpace, _, ?_,
          fun d member => List.mem_takeWhile_imp member, ?_, List.cons_ne_nil c _, ⟨some, ?_⟩,
          List.all_eq_true.1 blank⟩
        · rw [List.takeWhile_append_dropWhile, List.cons_append, List.takeWhile_append_dropWhile]
          exact (List.takeWhile_append_dropWhile.symm.trans (congrArg _ head))
        · exact List.forall_mem_cons.2 ⟨space, fun d member => List.mem_takeWhile_imp member⟩
        · exact fun d member => by simpa using List.mem_takeWhile_imp member
      · cases found
    · cases found
  -- The reader takes gaps and names as long as they are. A match has no other choice, since
  -- white space ends a name and anything else ends a gap.
  · rintro ⟨before, gap, after, rfl, first, second, nonempty, word, last⟩
    obtain ⟨c, gap, rfl⟩ := List.exists_cons_of_ne_nil nonempty
    obtain ⟨space, others⟩ := List.forall_mem_cons.1 second
    have behind : ∀ c ∈ after.head?, isSpace c := fun c head => last c (List.mem_of_mem_head? head)
    have head : (before ++ ("file".toList ++ (c :: gap ++ (name ++ after)))).dropWhile isSpace =
        'f' :: 'i' :: 'l' :: 'e' :: c :: (gap ++ (name ++ after)) := by
      rw [first.dropWhile_append, isWord_file.dropWhile_append]
      rfl
    have start : (gap ++ (name ++ after)).dropWhile isSpace = name ++ after := by
      rw [IsGap.dropWhile_append others, word.dropWhile_append]
    obtain ⟨own, left⟩ := word.read behind
    simp only [scriptName?, head, start, own, left]
    exact if_pos ⟨space, word.nonempty, List.all_eq_true.2 last⟩

theorem ofLine_eq_load_iff {line name : String} :
    ofLine line = .load name ↔ line.toList ∈ pattern name.toList := by
  rw [ofLine, ← scriptName?_eq_some_iff]
  cases found : scriptName? line.toList with
  | none => simp
  | some text =>
    rw [load.injEq, Option.some.injEq]
    exact ⟨fun same => by rw [← same, String.toList_ofList],
      fun same => by rw [same, String.ofList_toList]⟩

theorem ofLine_eq_source {line : String}
    (other : ¬ ∃ name, words line.toList = ["file".toList, name]) : ofLine line = .source line := by
  cases found : scriptName? line.toList with
  | none => rw [ofLine, found]
  | some name => exact absurd ⟨name, words_eq_iff.2 (scriptName?_eq_some_iff.1 found)⟩ other

end Command

theorem Parser.loading_frame (path : String) :
    Frame fun p q => .loading path ∈ q.journal → .loading path ∈ p.journal where
  refl _ := id
  trans h k := h ∘ k
  advance p member := by simpa [Parser.advance, Parser.note] using member
  record p d member := by simpa [Parser.record, Parser.note] using member
  nested h := h

theorem reportNoted_loads_nothing (source : String) (file : Option String) (path : String) :
    .loading path ∉ (reportNoted source file).2 := by
  have frame := Parser.loading_frame path
  have kept := Inner.Keeps.levels frame (maxDepth - (Parser.ofSource source file).depth)
  have read := Rule.stmtsUntil_keeps frame kept .eof (Parser.ofSource source file).remaining
    (Parser.ofSource source file)
  intro member
  have inside := (Array.mem_push.1 member).resolve_right nofun
  simpa [Parser.ofSource, Parser.ofLexer] using read inside

theorem answerLine_of_source {m : Type → Type} [Monad m]
    (readText : String → m (Except ReadError String)) (config : Config) {line text : String}
    (asked : Command.ofLine line = .source text) :
    answerLine readText config line = pure (.ok (report text none), (reportNoted text none).2) := by
  rw [answerLine, asked]
  rfl

/-- A line that matches the pattern is one of two words, of which the first is `file`. It is
answered by the report on the script of that name. Any other line is answered by the report
on itself, whatever files there are, and no script is loaded. -/
theorem evalLine_of_words (config : Config) (files : FileTable) (line : String) :
    (∀ name : String, line.toList ∈ Command.pattern name.toList ↔
      Text.words line.toList = ["file".toList, name.toList]) ∧
    (∀ name : String, Text.words line.toList = ["file".toList, name.toList] →
      let path := Path.join config.scriptDir (name ++ "." ++ config.extension)
      evalLine config files line =
        ((evalFile files path).1, #[.loading path] ++ (evalFile files path).2)) ∧
    ((¬ ∃ name, Text.words line.toList = ["file".toList, name]) →
      ∃ journal, (∀ path, .loading path ∉ journal) ∧
        ∀ others, evalLine config others line = (.ok (report line none), journal)) := by
  refine ⟨fun name => Command.words_eq_iff.symm, fun name two => ?_, fun other => ?_⟩
  · have asked := Command.ofLine_eq_load_iff.2 (Command.words_eq_iff.1 two)
    rw [evalLine, answerLine, asked]
    rfl
  · refine ⟨(reportNoted line none).2, reportNoted_loads_nothing line none, fun others => ?_⟩
    rw [evalLine, answerLine_of_source _ _ (Command.ofLine_eq_source other)]
    rfl

theorem evalLine_of_words_blanks :
    Text.words "\u00a0file\n\u3000notes.v2\n".toList = ["file".toList, "notes.v2".toList] ∧
      (evalLine ⟨"scripts", "txt", true, none⟩
        (FileTable.ofList [("scripts/notes.v2.txt", .file "1+2".toUTF8)])
        "\u00a0file\n\u3000notes.v2\n").1 = .ok "(1+2)" ∧
      (¬ ∃ name, Text.words "file a b".toList = ["file".toList, name]) ∧
      (evalLine ⟨"scripts", "txt", true, none⟩ .empty "file a b").1 =
        .ok (report "file a b" none) := by
  have two : Text.words "\u00a0file\n\u3000notes.v2\n".toList =
      ["file".toList, "notes.v2".toList] := by decide +kernel
  have three : Text.words "file a b".toList = ["file".toList, "a".toList, "b".toList] := by
    decide +kernel
  have other : ¬ ∃ name, Text.words "file a b".toList = ["file".toList, name] := by
    rintro ⟨name, two⟩
    cases three.symm.trans two
  refine ⟨two, ?_, other, ?_⟩
  · rw [(evalLine_of_words _ _ _).2.1 "notes.v2" two]
    decide +kernel
  · obtain ⟨journal, -, answered⟩ :=
      (evalLine_of_words ⟨"scripts", "txt", true, none⟩ .empty "file a b").2.2 other
    rw [answered]

end ScriptFront
