import ScriptFront.Proofs.Ledger

/-! A tree is accounted for by its diagnostics, and these by the tokens. Every statement
that lacks its value has a diagnostic of its own, since none is forgotten. A statement
records at most one diagnostic besides those of the lists inside it, and passes over a token
of its own, the first one: inside an expression this one token is still to be had, so what
is left is counted as one at least. At a list of statements it is spent, on the statement
and on its diagnostic alike. -/

namespace ScriptFront

namespace Node

def isStatement : Node → Bool
  | .stmt _ | .block _ => true
  | .name _ | .expr _ => false

def isIncomplete : Node → Bool
  | .stmt s => s.isIncomplete
  | _ => false

end Node

theorem countP_wholes {counted : Node → Bool} (whole : ∀ n, counted n → n.isPart = false)
    (ns : List Node) : (wholes ns).countP counted = ns.countP counted := by
  rw [wholes, List.countP_filter]
  refine List.countP_congr fun n _ => ?_
  rw [Bool.and_eq_true, Bool.not_eq_true']
  exact ⟨And.left, fun own => ⟨own, whole n own⟩⟩

namespace Program

def statementCount (program : Program) : Nat := program.nodes.countP Node.isStatement

/-- The number of absent values at all depths. -/
def absentCount (program : Program) : Nat := program.nodes.countP Node.isIncomplete

end Program

namespace Parser

/-- The tokens left, but the one that a statement began with still counts when all are gone. -/
def owed (p : Parser) : Nat := max 1 p.remaining

structure Tallies (left : Parser → Nat) (p q : Parser) (ns : List Node) : Prop where
  reach : p.Extends q
  statements : ns.countP Node.isStatement + left q ≤ left p
  incomplete : ns.countP Node.isIncomplete + p.errors.size ≤ q.errors.size
  errors : q.errors.size + left q ≤ p.errors.size + left p

namespace Tallies

variable {left : Parser → Nat} {p q r : Parser} {ns ms : List Node}

theorem refl (left : Parser → Nat) (p : Parser) : Tallies left p p [] :=
  ⟨extends_frame.refl p, by simp, by simp, Nat.le_refl _⟩

theorem trans (h : Tallies left p q ns) (k : Tallies left q r ms) :
    Tallies left p r (ns ++ ms) := by
  have statements := h.statements
  have others := k.statements
  have incomplete := h.incomplete
  have lacking := k.incomplete
  refine ⟨extends_frame.trans h.reach k.reach, ?_, ?_, k.errors.trans h.errors⟩
  · rw [List.countP_append]
    omega
  · rw [List.countP_append]
    omega

theorem of_le (reach : p.Extends q) (fewer : left q ≤ left p) (same : q.errors = p.errors) :
    Tallies left p q [] :=
  ⟨reach, by simpa using fewer, by simp [same], by rw [same]; omega⟩

theorem abandon (h : Tallies left p q ns) : Tallies left p q [] := by
  have statements := h.statements
  have incomplete := h.incomplete
  exact ⟨h.reach, by simp only [List.countP_nil]; omega, by simp only [List.countP_nil]; omega,
    h.errors⟩

theorem settle {d : Nat} (h : Tallies owed p q ns) (left : 1 ≤ p.remaining) {ms : List Node}
    (reach : p.Extends r) (next : r.remaining = q.remaining - 1)
    (recorded : r.errors.size = q.errors.size + d) (once : d ≤ 1)
    (statements : ms.countP Node.isStatement ≤ ns.countP Node.isStatement + 1)
    (incomplete : ms.countP Node.isIncomplete ≤ ns.countP Node.isIncomplete + d) :
    Tallies remaining p r ms := by
  have own := h.statements
  have lacking := h.incomplete
  have errors := h.errors
  simp only [owed] at own errors
  exact ⟨reach, by omega, by omega, by omega⟩

theorem enclose (h : Tallies remaining p.advance q ns) (left : 1 ≤ p.remaining) {ms : List Node}
    (statements : ms.countP Node.isStatement + owed q ≤
      ns.countP Node.isStatement + (q.remaining + 1))
    (incomplete : ms.countP Node.isIncomplete ≤ ns.countP Node.isIncomplete) :
    Tallies owed p q ms := by
  have fewer := p.advance_remaining
  have own := h.statements
  have lacking : _ + p.errors.size ≤ _ := h.incomplete
  have errors : _ ≤ p.errors.size + _ := h.errors
  refine ⟨extends_frame.trans (extends_frame.advance p) h.reach, ?_, by omega, ?_⟩
  · simp only [owed] at statements ⊢
    omega
  · simp only [owed]
    omega

end Tallies

theorem tally_ledger : Ledger (fun _ => Tallies owed) fun _ => Tallies remaining where
  additive _ :=
    { reach := Tallies.reach
      refl := Tallies.refl owed
      trans := Tallies.trans
      advance := fun {p} left =>
        .of_le (extends_frame.advance p) (by simp only [owed, advance_remaining]; omega) rfl
      abandon := Tallies.abandon
      nested := fun h => ⟨extends_frame.nested h.reach, h.statements, h.incomplete, h.errors⟩ }
  deeper := id
  reach := Tallies.reach
  refl _ := Tallies.refl remaining
  trans := Tallies.trans
  whole {n p q s ns} left h complete := by
    refine h.settle (d := 0) left (extends_frame.trans h.reach (extends_frame.advance q))
      q.advance_remaining rfl (by omega) ?_ ?_
    · exact Nat.le_of_eq (List.countP_cons_of_pos rfl)
    · exact Nat.le_of_eq (List.countP_cons_of_neg (by simp [Node.isIncomplete, complete]))
  -- Whether the statement lacks its value or not, it pays with the diagnostic recorded.
  broken {n p q d s ns} left h := by
    have reach := extends_frame.trans h.reach (extends_frame.record q d)
    refine h.settle (d := 1) left (extends_frame.trans reach (extends_frame.advance _))
      q.advance_remaining (Array.size_push d) (Nat.le_refl 1) ?_ ?_
    · exact Nat.le_of_eq (List.countP_cons_of_pos rfl)
    · rw [List.countP_cons]
      split <;> omega
  failed {n p q d} left h := by
    have reach := extends_frame.trans h.reach (extends_frame.record q d)
    refine h.settle (d := 1) left (extends_frame.trans reach (extends_frame.advance _))
      q.advance_remaining (Array.size_push d) (Nat.le_refl 1) ?_ ?_
    · exact Nat.zero_le _
    · exact Nat.zero_le _
  skip {n p q ns} _ h := by
    have passed : Tallies remaining q.advance q.advance.advance [] :=
      .of_le (extends_frame.advance q.advance) (by rw [advance_remaining]; omega) rfl
    have whole := h.trans passed
    rwa [List.append_nil] at whole
  block {n p q b ns} left h more := by
    refine h.enclose left ?_ ?_
    · rw [List.countP_cons_of_pos rfl, owed]
      omega
    · exact Nat.le_of_eq (List.countP_cons_of_neg (by simp [Node.isIncomplete]))
  unclosed {n p q ns} left h := by
    refine h.enclose left ?_ (Nat.zero_le _)
    rw [List.countP_nil, owed]
    omega

end Parser

/-- Absent values are no more than diagnostics, and diagnostics and statements each no more
than tokens. -/
theorem diagnostics_account (source : String) (file : Option String) :
    (readProgram source file).1.absentCount ≤ (readProgram source file).2.errors.size ∧
      (readProgram source file).2.errors.size ≤ tokenCount source file ∧
      (readProgram source file).1.statementCount ≤ tokenCount source file := by
  have tally := Parser.tally_ledger.program source file
  have errors := tally.errors.trans (Nat.le_of_eq (Nat.zero_add _))
  have statements := tally.statements
  have incomplete := tally.incomplete
  rw [countP_wholes (by rintro (_ | _ | _ | _) counted <;> first | rfl | cases counted)]
    at statements incomplete
  rw [tokenCount_eq]
  exact ⟨(Nat.le_add_right _ _).trans incomplete, (Nat.le_add_right _ _).trans errors,
    (Nat.le_add_right _ _).trans statements⟩

example :
    (readProgram "]]" none).1.absentCount = 2 ∧ (readProgram "]]" none).1.statementCount = 2 ∧
      (readProgram "]]" none).2.errors.size = 2 := by
  decide +kernel

end ScriptFront
