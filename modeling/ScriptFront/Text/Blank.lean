/-! The White_Space characters, and texts cut at them. -/

namespace ScriptFront.Text

/-- The ranges of the Unicode property White_Space. -/
def spaceRanges : List (Nat × Nat) :=
  [(0x09, 0x0D), (0x20, 0x20), (0x85, 0x85), (0xA0, 0xA0), (0x1680, 0x1680), (0x2000, 0x200A),
    (0x2028, 0x2029), (0x202F, 0x202F), (0x205F, 0x205F), (0x3000, 0x3000)]

def isSpace (c : Char) : Bool :=
  spaceRanges.any fun (first, last) => first ≤ c.toNat && c.toNat ≤ last

def dropSpaceEnd (cs : List Char) : List Char :=
  (cs.reverse.dropWhile isSpace).reverse

def trim (s : String) : String :=
  String.ofList (dropSpaceEnd (s.toList.dropWhile isSpace))

theorem exists_gap_end (cs : List Char) :
    ∃ gap, cs = dropSpaceEnd cs ++ gap ∧ ∀ c ∈ gap, isSpace c := by
  refine ⟨(cs.reverse.takeWhile isSpace).reverse, ?_, ?_⟩
  · rw [dropSpaceEnd, ← List.reverse_append, List.takeWhile_append_dropWhile, List.reverse_reverse]
  · intro c member
    exact List.all_eq_true.1 List.all_takeWhile c (List.mem_reverse.1 member)

theorem not_isSpace_head (cs : List Char) : ∀ c ∈ (cs.dropWhile isSpace).head?, ¬ isSpace c := by
  intro c first
  have stop := List.head?_dropWhile_not isSpace cs
  rw [Option.mem_def.1 first] at stop
  exact Bool.eq_false_iff.1 stop

theorem not_isSpace_last (cs : List Char) : ∀ c ∈ (dropSpaceEnd cs).getLast?, ¬ isSpace c := by
  rw [dropSpaceEnd, List.getLast?_reverse]
  exact not_isSpace_head _

/-- A text is its trim between two gaps, and the trim begins and ends with other characters. -/
theorem trim_between_gaps (s : String) :
    ∃ front back : List Char, s.toList = front ++ (trim s).toList ++ back ∧
      (∀ c ∈ front ++ back, isSpace c) ∧ (∀ c ∈ (trim s).toList.head?, ¬ isSpace c) ∧
      ∀ c ∈ (trim s).toList.getLast?, ¬ isSpace c := by
  obtain ⟨back, split, space⟩ := exists_gap_end (s.toList.dropWhile isSpace)
  rw [trim, String.toList_ofList]
  refine ⟨s.toList.takeWhile isSpace, back, ?_, ?_, ?_, not_isSpace_last _⟩
  · rw [List.append_assoc, ← split, List.takeWhile_append_dropWhile]
  · intro c member
    rcases List.mem_append.1 member with member | member
    · exact List.all_eq_true.1 List.all_takeWhile c member
    · exact space c member
  · intro c first
    refine not_isSpace_head s.toList c ?_
    rw [split, List.head?_append, Option.mem_def.1 first]
    rfl

theorem trim_eq_empty_iff (s : String) : trim s = "" ↔ ∀ c ∈ s.toList, isSpace c := by
  obtain ⟨front, back, split, space, first, -⟩ := trim_between_gaps s
  constructor
  · intro none
    rw [none] at split
    rw [split]
    simpa using space
  · intro all
    rw [← String.toList_inj]
    cases shape : (trim s).toList with
    | nil => rfl
    | cons c rest =>
      rw [shape] at split first
      exact absurd (all c (by simp [split])) (first c rfl)

end ScriptFront.Text
