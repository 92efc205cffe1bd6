import Mathlib.Logic.Function.Iterate
import ScriptFront.Proofs.Walk

/-! Where the nesting limit is decided. `Rule.nested` opens no level beyond `maxDepth`, so what
stands behind the last level that can be opened is never run. Whatever rules are put there in
place of `Inner.exhausted`, the same program is read. -/

namespace ScriptFront

variable {α β : Type} {d : Nat}

/-- Where at least `d` levels are open the second rule does what the first one does, up to a
change of the value, and as many levels stay open. -/
def Rule.SameFrom (d : Nat) (φ : α → α) (x y : Rule α) : Prop :=
  ∀ p : Parser, d ≤ p.depth → d ≤ (x.final p).depth ∧ y p = (φ <$> x) p

structure Inner.SameFrom (d : Nat) (inner inner' : Inner) : Prop where
  expr : ∀ limit, Rule.SameFrom d id (inner.expr limit) (inner'.expr limit)
  block : Rule.SameFrom d id inner.block inner'.block

namespace Rule.SameFrom

variable {φ : α → α} {ψ : β → β}

theorem self {x : Rule α} (kept : x.Keeps Parser.Extends) : SameFrom d id x x :=
  fun p enough => ⟨(kept p).depth ▸ enough, by rw [id_map]⟩

theorem bind {x y : Rule α} {g h : α → Rule β} (first : SameFrom d φ x y)
    (next : ∀ a, SameFrom d ψ (g a) (h (φ a))) : SameFrom d ψ (x >>= g) (y >>= h) := by
  intro p enough
  obtain ⟨still, same⟩ := first p enough
  rw [map_eq_pure_bind] at same
  rw [map_bind]
  cases run : x p with
  | ok a q =>
    rw [final_of_ok run] at still
    rw [bind_of_ok run] at same
    rw [final, bind_of_ok same, bind_of_ok run, bind_of_ok run]
    exact next a q still
  | error e q =>
    rw [final_of_error run] at still
    rw [bind_of_error run] at same
    rw [final, bind_of_error same, bind_of_error run, bind_of_error run]
    exact ⟨still, rfl⟩

theorem nested {x y : Rule α} (h : SameFrom (d + 1) id x y) :
    SameFrom d id (nested x) (nested y) := by
  intro p enough
  obtain ⟨still, same⟩ := h { p with depth := p.depth + 1 } (Nat.succ_le_succ enough)
  rw [id_map] at same ⊢
  rw [final, Rule.nested, Rule.nested, same]
  refine ⟨?_, rfl⟩
  by_cases room : p.depth < maxDepth
  · rw [if_pos room]
    cases run : x { p with depth := p.depth + 1 } with
    | ok a q => exact Nat.le_sub_one_of_lt (final_of_ok run ▸ still)
    | error e q => exact Nat.le_sub_one_of_lt (final_of_error run ▸ still)
  · rw [if_neg room]
    exact enough

theorem optional {x y : Rule α} (h : SameFrom d id x y) :
    SameFrom d id (optional x) (optional y) := by
  intro p enough
  obtain ⟨still, same⟩ := h p enough
  rw [id_map] at same ⊢
  rw [final, Rule.optional, Rule.optional, same]
  refine ⟨?_, rfl⟩
  cases run : x p with
  | ok a q => exact final_of_ok run ▸ still
  | error e q => exact final_of_error run ▸ still

theorem ahead {ι : Type} {select : Kind → Option ι} {x y : ι → Rule α} {x' y' : Rule α}
    (found : ∀ i, SameFrom d φ (x i) (y i)) (missing : SameFrom d φ x' y') :
    SameFrom d φ (ahead select x x') (ahead select y y') := by
  intro p enough
  simp only [final, Rule.ahead, map_eq_pure_bind, Bind.bind, EStateM.bind]
  cases select p.peek.kind with
  | some i => exact found i p.advance enough
  | none => exact missing p enough

variable {inner inner' : Inner}

theorem of_composed {m : Mark} {x y : Rule α} {Q : α → Mark}
    (composed : Composed id inner inner' φ m x y Q) (h : inner.SameFrom d inner') :
    SameFrom d φ x y := by
  induction composed with
  | pure same _ => exact fun p enough => ⟨enough, by rw [same, map_pure]⟩
  | bind _ _ first next => exact bind first next
  | weaken _ _ _ rest => exact rest
  | current => exact self (.current Parser.extends_frame)
  | advance _ => exact self (.advance Parser.extends_frame)
  | expectPeek _ _ => exact self (.expectPeek Parser.extends_frame _)
  | fail _ => exact fun p enough => ⟨enough, rfl⟩
  | ahead _ _ _ _ found missing => exact ahead found missing
  | bounded _ _ all => exact fun p enough => all p.remaining p enough
  | expr _ =>
    rw [funext Expr.mapTokens_id]
    exact h.expr _
  | block _ _ =>
    rw [funext Block.mapTokens_id]
    exact h.block

theorem plainEnd (s : Stmt) : SameFrom d id (plainEnd s) (plainEnd s) :=
  self (.bind Parser.extends_frame (.skipSemicolon Parser.extends_frame) fun _ =>
    .pure Parser.extends_frame _)

theorem of_concludes {m : Mark} {x y : Rule Stmt} (concludes : Concludes id inner inner' m x y)
    (h : inner.SameFrom d inner') : SameFrom d id x y := by
  induction concludes with
  | bind first _ next => exact bind (of_composed first h) next
  | @value _ form form' same =>
    obtain rfl : form' = form := by
      funext v
      have here := same v
      rwa [mapValue_id, Stmt.mapTokens_id] at here
    exact bind (optional (h.expr _)) fun v => plainEnd (form' v)
  | plain same =>
    rw [Stmt.mapTokens_id] at same
    rw [same]
    exact plainEnd _

theorem expression (h : inner.SameFrom d inner') (limit : Precedence) :
    SameFrom d id (expression inner limit) (expression inner' limit) := by
  have composed := of_composed (.expression (m := atStmt) .id limit) h
  rwa [funext Expr.mapTokens_id] at composed

end Rule.SameFrom

theorem Rule.stmtsUntil_sameFrom {inner inner' : Inner} (h : inner.SameFrom d inner')
    (close : Kind) (n : Nat) {p : Parser} (enough : d ≤ p.depth) :
    d ≤ (stmtsUntil inner close n p).2.depth ∧
      stmtsUntil inner' close n p = stmtsUntil inner close n p := by
  induction n generalizing p with
  | zero => exact ⟨enough, rfl⟩
  | succ n ih =>
    obtain ⟨still, same⟩ := SameFrom.of_concludes (stmt_concludes .id) h p enough
    rw [id_map] at same
    rw [stmtsUntil, stmtsUntil, same]
    split
    · exact ⟨enough, rfl⟩
    · cases run : stmt inner p with
      | ok s q =>
        rw [final_of_ok run] at still
        obtain ⟨rest, again⟩ := ih (p := q.advance) still
        exact ⟨rest, by simp only [again]⟩
      | error e q =>
        rw [final_of_error run] at still
        exact ih (p := (q.record e).advance) still

theorem Rule.SameFrom.bracedStmts {inner inner' : Inner} (h : inner.SameFrom d inner') :
    SameFrom d id (bracedStmts inner) (bracedStmts inner') := by
  have body : SameFrom d id (modifyGet fun p => stmtsUntil inner .rbrace p.remaining p)
      (modifyGet fun p => stmtsUntil inner' .rbrace p.remaining p) := by
    intro p enough
    obtain ⟨still, same⟩ := stmtsUntil_sameFrom h .rbrace p.remaining enough
    rw [id_map]
    refine ⟨still, ?_⟩
    change EStateM.Result.ok _ _ = EStateM.Result.ok _ _
    rw [same]
  refine bind (self (.current Parser.extends_frame)) fun token =>
    bind (self (.advance Parser.extends_frame)) fun _ => bind body fun ss =>
      bind (self (.current Parser.extends_frame)) fun closing => self ?_
  split
  · exact .pure Parser.extends_frame _
  · exact .fail Parser.extends_frame _

namespace Inner

/-- No level is opened where `maxDepth` levels are open already. -/
theorem SameFrom.last (inner : Inner) : exhausted.SameFrom maxDepth inner.above := by
  refine ⟨fun limit p full => ⟨full, ?_⟩, fun p full => ⟨full, ?_⟩⟩
  all_goals exact if_neg (Nat.not_lt.2 full)

theorem SameFrom.above {inner inner' : Inner} (h : inner.SameFrom (d + 1) inner') :
    inner.above.SameFrom d inner'.above :=
  ⟨fun limit => .nested (.expression h limit), .nested (.bracedStmts h)⟩

theorem levels_sameFrom (base : Inner) {n : Nat} (room : d + n = maxDepth) :
    (levels n).SameFrom d (above^[n + 1] base) := by
  induction n generalizing d with
  | zero =>
    obtain rfl : d = maxDepth := room
    exact .last base
  | succ n ih =>
    rw [Function.iterate_succ_apply']
    exact (ih (by omega)).above

end Inner

theorem Parser.stmtsUntil_of_base (base : Inner) (close : Kind) {p : Parser}
    (room : p.depth ≤ maxDepth) :
    p.stmtsUntil close =
      Rule.stmtsUntil (Inner.above^[maxDepth - p.depth + 1] base) close p.remaining p :=
  (Rule.stmtsUntil_sameFrom (Inner.levels_sameFrom base (by omega)) close _ (Nat.le_refl _)).2.symm

/-- Any rules in place of `Inner.exhausted`, one level further out, give the same program. -/
theorem readProgram_of_base (base : Inner) (source : String) (file : Option String) :
    readProgram source file =
      let p := Parser.ofSource source file
      let read := Rule.stmtsUntil (Inner.above^[maxDepth + 1] base) .eof p.remaining p
      (⟨read.1⟩, read.2.note (.parsed read.1.length read.2.errors.size)) := by
  have same := (Parser.ofSource source file).stmtsUntil_of_base base .eof (Nat.zero_le _)
  change _ = Rule.stmtsUntil (Inner.above^[maxDepth + 1] base) .eof _ _ at same
  rw [readProgram, Parser.program, same]

end ScriptFront
