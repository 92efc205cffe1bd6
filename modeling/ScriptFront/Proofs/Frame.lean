import ScriptFront.Parser.Grammar

/-! What every rule leaves alone. A `Frame` is a relation between an earlier and a
later parser that the elementary steps respect: moving on, recording a diagnostic,
opening a level and closing it again. What rules are put together from then respects it
too, whether it succeeds or fails. The frame used throughout is `Parser.Extends`: tokens
are only consumed, diagnostics only appended, and the depth is the same in the end. -/

namespace ScriptFront

variable {α β : Type}

namespace Rule

def final (rule : Rule α) (p : Parser) : Parser :=
  match rule p with
  | .ok _ q => q
  | .error _ q => q

theorem final_of_ok {rule : Rule α} {p q : Parser} {a : α} (h : rule p = .ok a q) :
    rule.final p = q := by simp [final, h]

theorem final_of_error {rule : Rule α} {p q : Parser} {d : Diagnostic} (h : rule p = .error d q) :
    rule.final p = q := by simp [final, h]

theorem final_iff {P : Parser → Prop} {rule : Rule α} {p : Parser} :
    P (rule.final p) ↔ match rule p with
      | .ok _ q => P q
      | .error _ q => P q := by
  cases run : rule p with
  | ok a q => rw [final_of_ok run]
  | error d q => rw [final_of_error run]

theorem bind_of_ok {x : Rule α} {f : α → Rule β} {p q : Parser} {a : α} (h : x p = .ok a q) :
    (x >>= f) p = f a q := by simp [bind, EStateM.bind, h]

theorem bind_of_error {x : Rule α} {f : α → Rule β} {p q : Parser} {d : Diagnostic}
    (h : x p = .error d q) : (x >>= f) p = .error d q := by simp [bind, EStateM.bind, h]

theorem bind_eq_ok {x : Rule α} {f : α → Rule β} {p r : Parser} {b : β} :
    (x >>= f) p = .ok b r ↔ ∃ a q, x p = .ok a q ∧ f a q = .ok b r := by
  constructor
  · intro run
    cases h : x p with
    | ok a q => exact ⟨a, q, rfl, bind_of_ok (f := f) h ▸ run⟩
    | error d q => simp [bind_of_error h] at run
  · rintro ⟨a, q, h, run⟩
    rw [bind_of_ok h, run]

theorem bind_congr_at {x y : Rule α} (f : α → Rule β) {p : Parser} (same : x p = y p) :
    (x >>= f) p = (y >>= f) p := by simp only [bind, EStateM.bind, same]

theorem pure_apply (a : α) (p : Parser) : (pure a : Rule α) p = .ok a p := rfl

theorem bind_current (f : Token → Rule α) (p : Parser) : (current >>= f) p = f p.current p := rfl

theorem bind_peekIs (kind : Kind) (f : Bool → Rule α) (p : Parser) :
    (peekIs kind >>= f) p = f (decide (p.peek.kind = kind)) p := rfl

end Rule

/-- A relation from earlier parsers to later ones that the elementary steps respect. -/
structure Frame (R : Parser → Parser → Prop) : Prop where
  refl : ∀ p, R p p
  trans : ∀ {p q r}, R p q → R q r → R p r
  advance : ∀ p, R p p.advance
  record : ∀ p d, R p (p.record d)
  nested : ∀ {p q : Parser}, R { p with depth := p.depth + 1 } q →
    R p { q with depth := q.depth - 1 }

def Rule.Keeps (R : Parser → Parser → Prop) (rule : Rule α) : Prop := ∀ p, R p (rule.final p)

structure Inner.Keeps (R : Parser → Parser → Prop) (inner : Inner) : Prop where
  expr : ∀ limit, Rule.Keeps R (inner.expr limit)
  block : Rule.Keeps R inner.block

section Keeps

variable {R : Parser → Parser → Prop}

namespace Rule.Keeps

theorem ok {rule : Rule α} (h : Keeps R rule) {p q : Parser} {a : α} (run : rule p = .ok a q) :
    R p q := final_of_ok run ▸ h p

theorem error {rule : Rule α} (h : Keeps R rule) {p q : Parser} {d : Diagnostic}
    (run : rule p = .error d q) : R p q := final_of_error run ▸ h p

theorem pure (frame : Frame R) (a : α) : Keeps R (Pure.pure a : Rule α) := frame.refl

theorem bind (frame : Frame R) {x : Rule α} {f : α → Rule β} (hx : Keeps R x)
    (hf : ∀ a, Keeps R (f a)) : Keeps R (x >>= f) := by
  intro p
  cases run : x p with
  | ok a q =>
    have same : (x >>= f).final p = (f a).final q := by simp only [final, bind_of_ok run]
    exact same ▸ frame.trans (hx.ok run) (hf a q)
  | error d q => exact final_of_error (bind_of_error (f := f) run) ▸ hx.error run

theorem current (frame : Frame R) : Keeps R current := frame.refl

theorem remaining (frame : Frame R) : Keeps R remaining := frame.refl

theorem advance (frame : Frame R) : Keeps R advance := frame.advance

theorem fail (frame : Frame R) (cause : Cause) : Keeps R (fail cause : Rule α) := frame.refl

theorem expectPeek (frame : Frame R) (expected : Kind) : Keeps R (expectPeek expected) := by
  intro p
  by_cases h : p.peek.kind = expected
  · simpa only [final, Rule.expectPeek, h, if_true] using frame.advance p
  · simpa only [final, Rule.expectPeek, h, if_false] using frame.refl p

theorem skipSemicolon (frame : Frame R) : Keeps R skipSemicolon := by
  intro p
  by_cases h : p.peek.kind = .semicolon
  · simpa only [final, Rule.skipSemicolon, h, if_true] using frame.advance p
  · simpa only [final, Rule.skipSemicolon, h, if_false] using frame.refl p

theorem nested (frame : Frame R) {rule : Rule α} (h : Keeps R rule) : Keeps R (nested rule) := by
  intro p
  unfold final Rule.nested
  by_cases room : p.depth < maxDepth
  · simp only [room, if_true]
    cases run : rule { p with depth := p.depth + 1 } with
    | ok a q => exact frame.nested (h.ok run)
    | error d q => exact frame.nested (h.error run)
  · simp only [room, if_false]
    exact frame.refl p

theorem optional (frame : Frame R) {rule : Rule α} (h : Keeps R rule) :
    Keeps R (optional rule) := by
  intro p
  unfold final Rule.optional
  cases run : rule p with
  | ok a q => exact h.ok run
  | error d q => exact frame.trans (h.error run) (frame.record q d)

end Rule.Keeps

end Keeps

namespace Parser

/-- Reading on: tokens are consumed from the front, diagnostics appended at the end. -/
structure Extends (p q : Parser) : Prop where
  body : q.input.body <:+ p.input.body
  last : q.input.last = p.input.last
  depth : q.depth = p.depth
  errors : p.errors.toList <+: q.errors.toList

theorem extends_frame : Frame Extends where
  refl _ := ⟨List.suffix_rfl, rfl, rfl, List.prefix_rfl⟩
  trans h k := ⟨k.body.trans h.body, k.last.trans h.last, k.depth.trans h.depth,
    h.errors.trans k.errors⟩
  advance p := ⟨List.tail_suffix _, rfl, rfl, List.prefix_rfl⟩
  record p d := ⟨List.suffix_rfl, rfl, rfl, by simp⟩
  nested h := ⟨h.body, h.last, by simp [h.depth], h.errors⟩

theorem Extends.remaining_le {p q : Parser} (h : Extends p q) : q.remaining ≤ p.remaining :=
  h.body.length_le

end Parser

namespace Rule

/-- The diagnostics after a rule: those recorded, then the one that stopped it. -/
def diagnostics : EStateM.Result Diagnostic Parser α → List Diagnostic
  | .ok _ q => q.errors.toList
  | .error d q => q.errors.toList ++ [d]

theorem diagnostics_of_keeps {rule : Rule α} (kept : rule.Keeps Parser.Extends) (p : Parser) :
    p.errors.toList <+: diagnostics (rule p) := by
  cases run : rule p with
  | ok a q => exact (kept.ok run).errors
  | error d q => exact (kept.error run).errors.trans (List.prefix_append _ _)

theorem diagnostics_prefix_bind {x : Rule α} {f : α → Rule β}
    (kept : ∀ a, (f a).Keeps Parser.Extends)
    (p : Parser) : diagnostics (x p) <+: diagnostics ((x >>= f) p) := by
  cases run : x p with
  | ok a q =>
    rw [bind_of_ok run]
    exact diagnostics_of_keeps (kept a) q
  | error d q =>
    rw [bind_of_error run]
    exact List.prefix_rfl

/-- What holds of a parser after each statement holds of it after all. -/
theorem stmtsUntil_of_round {inner : Inner} {K : Parser → Prop}
    (ok : ∀ {p q s}, K p → stmt inner p = .ok s q → K q.advance)
    (error : ∀ {p q d}, K p → stmt inner p = .error d q → K (q.record d).advance)
    (close : Kind) (n : Nat) {p : Parser} (start : K p) : K (stmtsUntil inner close n p).2 := by
  induction n generalizing p with
  | zero => exact start
  | succ n ih =>
    unfold stmtsUntil
    split
    · exact start
    · cases run : stmt inner p with
      | ok s q => exact ih (ok start run)
      | error d q => exact ih (error start run)

end Rule

end ScriptFront
