import Mathlib
import ScriptFront.Text.Line

/-! Which line holds a position, said without cutting the text. The line stands between the
text before it, which is empty or ends in an end mark, and the text after it, which is empty
unless the line ends in one. A position past the end counts as one at the end, and stands on
an empty line when the text before it ends in an end mark. So the line found is the one that
the last end mark before the position and the first one from there on give. -/

namespace ScriptFront.Text

inductive Cut : List (List Char) → Prop where
  | nil : Cut []
  | cons {line : List Char} {lines : List (List Char)} (inner : '\n' ∉ line.dropLast)
      (closed : lines ≠ [] → line.getLast? = some '\n') (rest : Cut lines) : Cut (line :: lines)

theorem splitLines_cut (text : List Char) : Cut (splitLines (· = '\n') text) := by
  induction text with
  | nil => exact .nil
  | cons c rest ih =>
    rw [splitLines]
    by_cases mark : c = '\n'
    · rw [if_pos (decide_eq_true mark), mark]
      exact .cons List.not_mem_nil (fun _ => rfl) ih
    · rw [if_neg (by simpa using mark)]
      cases lines : splitLines (· = '\n') rest with
      | nil => exact .cons List.not_mem_nil (fun none => absurd rfl none) .nil
      | cons line more =>
        rw [lines] at ih
        cases ih with
        | cons inner closed rest =>
          refine .cons ?_ (fun follow => ?_) rest
          · cases line with
            | nil => exact List.not_mem_nil
            | cons d line =>
              rw [List.dropLast_cons_cons, List.mem_cons, not_or]
              exact ⟨Ne.symm mark, inner⟩
          · rw [List.getLast?_cons, closed follow, Option.getD_some]

namespace Line

/-- The line stands between `before` and `after`, the position sought in it or at its end. -/
structure Between (before after : List Char) (l : Line) : Prop where
  start : ∀ c ∈ before.getLast?, c = '\n'
  inner : '\n' ∉ l.text.dropLast
  closed : after ≠ [] → l.text.getLast? = some '\n'
  within : l.column ≤ l.text.length
  free : '\n' ∉ l.text.take l.column

namespace Between

variable {before after : List Char} {l : Line} (h : l.Between before after)
include h

theorem after_eq_nil (behind : l.column = l.text.length) : after = [] := by
  by_contra more
  have free := h.free
  rw [behind, List.take_length] at free
  exact free (List.mem_of_getLast? (h.closed more))

theorem getElem?_column :
    (before ++ (l.text ++ after))[before.length + l.column]? = l.text[l.column]? := by
  rw [List.getElem?_append_right (Nat.le_add_right _ _), Nat.add_sub_cancel_left]
  rcases Nat.lt_or_eq_of_le h.within with inside | behind
  · exact List.getElem?_append_left inside
  · rw [h.after_eq_nil behind, List.append_nil]

theorem append_left {line : List Char} (mark : line.getLast? = some '\n') :
    l.Between (line ++ before) after := by
  refine ⟨fun c last => ?_, h.inner, h.closed, h.within, h.free⟩
  rw [List.getLast?_append] at last
  cases found : before.getLast? with
  | none =>
    rw [found, mark] at last
    exact (Option.some.inj last).symm
  | some d =>
    rw [found] at last
    obtain rfl : d = c := Option.some.inj last
    exact h.start d found

theorem count_take :
    ((before ++ (l.text ++ after)).take (before.length + l.column)).count '\n' =
      before.count '\n' := by
  rw [List.take_length_add_append, List.take_append_of_le_length h.within, List.count_append,
    List.count_eq_zero_of_not_mem h.free, Nat.add_zero]

end Between

end Line

theorem not_mem_of_open {line : List Char} (inner : '\n' ∉ line.dropLast)
    (lacking : line.getLast? ≠ some '\n') : '\n' ∉ line := by
  rcases List.eq_nil_or_concat line with rfl | ⟨init, c, rfl⟩
  · exact List.not_mem_nil
  · simp only [List.concat_eq_append, List.dropLast_concat, List.getLast?_concat] at inner lacking ⊢
    rw [List.mem_append, List.mem_singleton, not_or]
    exact ⟨inner, fun mark => lacking (congrArg some mark.symm)⟩

theorem count_mark {line : List Char} (inner : '\n' ∉ line.dropLast)
    (mark : line.getLast? = some '\n') : line.count '\n' = 1 := by
  obtain ⟨init, rfl⟩ := List.getLast?_eq_some_iff.1 mark
  rw [List.dropLast_concat] at inner
  rw [List.count_append, List.count_eq_zero_of_not_mem inner, List.count_singleton_self]

theorem lineAmong_between {lines : List (List Char)} (cut : Cut lines) (number position : Nat) :
    ∃ before after,
      lines.flatten = before ++ ((lineAmong number lines position).text ++ after) ∧
      before.length + (lineAmong number lines position).column =
        min position lines.flatten.length ∧
      (lineAmong number lines position).number = before.count '\n' + number ∧
      (lineAmong number lines position).Between before after := by
  induction cut generalizing number position with
  | nil =>
    refine ⟨[], [], rfl, (Nat.min_zero _).symm, (Nat.zero_add _).symm, ?_⟩
    exact ⟨nofun, List.not_mem_nil, fun none => absurd rfl none, Nat.le_refl _, List.not_mem_nil⟩
  | @cons line lines inner closed _ ih =>
    rw [lineAmong, List.flatten_cons]
    split
    · next inside =>
      have start : position ≤ line.length - 1 := by omega
      have free : '\n' ∉ line.take position := by
        rw [List.dropLast_eq_take] at inner
        exact fun mark => inner (List.take_subset_take_left line start mark)
      refine ⟨[], lines.flatten, rfl, ?_, (Nat.zero_add _).symm, ?_⟩
      · change 0 + position = min position _
        rw [List.length_append]
        omega
      · refine ⟨nofun, inner, fun more => closed ?_, Nat.le_of_lt inside, free⟩
        rintro rfl
        exact more rfl
    · next behind =>
      split
      · next mark =>
        obtain ⟨before, after, split, place, count, between⟩ :=
          ih (number + 1) (position - line.length)
        refine ⟨line ++ before, after, ?_, ?_, ?_, ?_⟩
        · rw [split, List.append_assoc]
        · rw [List.length_append, List.length_append]
          omega
        · rw [count, List.count_append, count_mark inner mark]
          omega
        · exact between.append_left mark
      · next lacking =>
        obtain rfl : lines = [] := by
          by_contra more
          exact lacking (closed more)
        refine ⟨[], [], rfl, ?_, (Nat.zero_add _).symm, ?_⟩
        · simp only [List.length_append, List.flatten_nil, List.length_nil]
          omega
        · refine ⟨nofun, inner, fun more => absurd rfl more, Nat.le_refl _, ?_⟩
          rw [List.take_length]
          exact not_mem_of_open inner lacking

section LineAt

variable (source : String) (position : Nat)

theorem lineAt_between :
    ∃ before after,
      source.toList = before ++ ((lineAt source position).text ++ after) ∧
      before.length + (lineAt source position).column = min position source.length ∧
      (lineAt source position).number = before.count '\n' + 1 ∧
      (lineAt source position).Between before after := by
  have whole := lineAmong_between (splitLines_cut source.toList) 1 position
  rwa [flatten_splitLines, String.length_toList] at whole

theorem lineAt_inner : '\n' ∉ (lineAt source position).text.dropLast := by
  obtain ⟨_, _, _, _, _, between⟩ := lineAt_between source position
  exact between.inner

theorem lineAt_number :
    (lineAt source position).number = (source.toList.take position).count '\n' + 1 := by
  obtain ⟨before, after, split, place, count, between⟩ := lineAt_between source position
  rw [count, ← between.count_take, ← split, place, ← String.length_toList, ← List.take_eq_take_min]

theorem lineAt_column_of_le {position : Nat} (behind : source.length ≤ position) :
    (lineAt source position).column = (lineAt source position).text.length := by
  obtain ⟨before, after, split, place, -, between⟩ := lineAt_between source position
  have length := congrArg List.length split
  have within := between.within
  rw [String.length_toList, List.length_append, List.length_append] at length
  omega

theorem lineAt_getElem?_column :
    (lineAt source position).text[(lineAt source position).column]? = source.toList[position]? := by
  rcases Nat.lt_or_ge position source.length with inside | behind
  · obtain ⟨before, after, split, place, -, between⟩ := lineAt_between source position
    rw [← between.getElem?_column, ← split, place, Nat.min_eq_left (Nat.le_of_lt inside)]
  · rw [lineAt_column_of_le source behind, List.getElem?_eq_none (Nat.le_refl _),
      List.getElem?_eq_none (by rwa [String.length_toList])]

end LineAt

/-- `start` stands behind the last end mark before `stop`, or at the beginning of the text
if there is none. -/
structure IsLineStart (text : List Char) (stop start : Nat) : Prop where
  within : start ≤ stop
  mark : start = 0 ∨ text[start - 1]? = some '\n'
  last : ∀ i, start ≤ i → i < stop → text[i]? ≠ some '\n'

def lineStart (text : List Char) (stop : Nat) : Nat := stop - (text.take stop).reverse.idxOf '\n'

/-- The text from `start` up to the first end mark, which is included, or up to the end. -/
def lineFrom (text : List Char) (start : Nat) : List Char :=
  (text.drop start).take ((text.drop start).idxOf '\n' + 1)

def lineOf (text : List Char) (index : Nat) : Line :=
  ⟨1 + (text.take index).count '\n', lineFrom text (lineStart text index),
    index - lineStart text index⟩

theorem IsLineStart.eq_lineStart {text : List Char} {stop start : Nat}
    (h : IsLineStart text stop start) (fits : stop ≤ text.length) :
    start = lineStart text stop := by
  obtain ⟨within, mark, last⟩ := h
  have split : text.take start ++ (text.take stop).drop start = text.take stop := by
    rw [← Nat.min_eq_left within, ← List.take_take, Nat.min_eq_left within,
      List.take_append_drop]
  have free : '\n' ∉ ((text.take stop).drop start).reverse := by
    intro member
    obtain ⟨i, inside, char⟩ := List.getElem_of_mem (List.mem_reverse.1 member)
    rw [List.length_drop, List.length_take] at inside
    rw [List.getElem_drop, List.getElem_take] at char
    exact last (start + i) (Nat.le_add_right _ _) (by omega)
      (List.getElem?_eq_some_iff.2 ⟨by omega, char⟩)
  have head : (text.take start).reverse.idxOf '\n' = 0 := by
    cases start with
    | zero => rfl
    | succ start =>
      have mark : text[start]? = some '\n' := mark.resolve_left (Nat.succ_ne_zero start)
      rw [List.take_add_one, mark, List.reverse_append]
      rfl
  -- Backwards from `stop`, the first end mark is the one right before `start`.
  rw [lineStart, ← split, List.reverse_append, List.idxOf_append_of_notMem free, head,
    List.length_reverse, List.length_drop, List.length_take]
  omega

theorem take_idxOf_mark {line after : List Char} (inner : '\n' ∉ line.dropLast)
    (closed : after ≠ [] → line.getLast? = some '\n') :
    (line ++ after).take ((line ++ after).idxOf '\n' + 1) = line := by
  by_cases mark : line.getLast? = some '\n'
  · obtain ⟨init, rfl⟩ := List.getLast?_eq_some_iff.1 mark
    rw [List.dropLast_concat] at inner
    rw [List.append_assoc, List.idxOf_append_of_notMem inner, List.singleton_append,
      List.idxOf_cons_self, List.append_cons]
    exact List.take_left' List.length_append
  · obtain rfl : after = [] := by
      by_contra more
      exact mark (closed more)
    rw [List.append_nil, List.idxOf_eq_length (not_mem_of_open inner mark),
      List.take_of_length_le (Nat.le_succ _)]

namespace Line.Between

variable {before after : List Char} {l : Line} (h : l.Between before after)
include h

theorem isLineStart :
    IsLineStart (before ++ (l.text ++ after)) (before.length + l.column) before.length := by
  refine ⟨Nat.le_add_right _ _, ?_, fun i reached inside mark => ?_⟩
  · rcases List.eq_nil_or_concat before with rfl | ⟨init, c, rfl⟩
    · exact .inl rfl
    · have mark := h.start c (by simp)
      right
      simp [mark]
  · have near : i - before.length < l.column := by omega
    rw [List.getElem?_append_right reached,
      List.getElem?_append_left (Nat.lt_of_lt_of_le near h.within),
      ← List.getElem?_take_of_lt near] at mark
    exact h.free (List.mem_of_getElem? mark)

theorem lineFrom_eq : lineFrom (before ++ (l.text ++ after)) before.length = l.text := by
  rw [lineFrom, List.drop_left]
  exact take_idxOf_mark h.inner h.closed

end Line.Between

theorem lineAt_text_of_closed {source : String} {position : Nat}
    (behind : source.length ≤ position)
    (closed : source = "" ∨ source.toList.getLast? = some '\n') :
    (lineAt source position).text = [] := by
  obtain ⟨before, after, split, -, -, between⟩ := lineAt_between source position
  have column := lineAt_column_of_le source behind
  have free := between.free
  rw [column, List.take_length] at free
  rw [between.after_eq_nil column, List.append_nil] at split
  rcases closed with rfl | mark
  · exact (List.append_eq_nil_iff.1 split.symm).2
  · by_contra some
    rw [split, List.getLast?_append_of_ne_nil before some] at mark
    exact free (List.mem_of_getLast? mark)

/-- The line at a position is the one that the end marks around it give. A position behind
the text is that of its end, and stands on an empty line behind a last end mark. -/
theorem lineAt_eq_lineOf (source : String) (position : Nat) :
    IsLineStart source.toList (min position source.length)
        (lineStart source.toList (min position source.length)) ∧
      lineAt source position = lineOf source.toList (min position source.length) ∧
      (source.length ≤ position → source = "" ∨ source.toList.getLast? = some '\n' →
        (lineAt source position).text = [] ∧ (lineAt source position).column = 0) := by
  obtain ⟨before, after, split, place, count, between⟩ := lineAt_between source position
  have start := between.isLineStart
  rw [← split, place] at start
  have here : before.length = lineStart source.toList (min position source.length) :=
    start.eq_lineStart (by rw [String.length_toList]; exact Nat.min_le_right _ _)
  refine ⟨here ▸ start, ?_, fun behind closed => ?_⟩
  · have number : (lineAt source position).number =
        1 + (source.toList.take (min position source.length)).count '\n' := by
      rw [← place, split, between.count_take, count, Nat.add_comm]
    have text : lineFrom source.toList before.length = (lineAt source position).text := by
      rw [split, between.lineFrom_eq]
    have column : min position source.length - before.length = (lineAt source position).column := by
      omega
    rw [lineOf, ← here, text, column, ← number]
  · have empty := lineAt_text_of_closed behind closed
    exact ⟨empty, by rw [lineAt_column_of_le source behind, empty, List.length_nil]⟩

theorem lineAt_eq_lineOf_behind :
    "a\n\nb\n".length ≤ 9 ∧ "a\n\nb\n".toList.getLast? = some '\n' ∧
      lineAt "a\n\nb\n" 9 = lineOf "a\n\nb\n".toList 5 ∧
      (lineAt "a\n\nb\n" 9).text = [] ∧ (lineAt "a\n\nb\n" 9).column = 0 := by
  have behind : "a\n\nb\n".length ≤ 9 := by decide
  have closed : "a\n\nb\n".toList.getLast? = some '\n' := by decide
  obtain ⟨-, line, empty⟩ := lineAt_eq_lineOf "a\n\nb\n" 9
  exact ⟨behind, closed, line, empty behind (.inr closed)⟩

example : lineAt "a\n\nb" 2 = ⟨2, ['\n'], 0⟩ := by decide

end ScriptFront.Text
