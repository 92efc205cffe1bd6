import ScriptFront.Proofs.RoundTrip
import ScriptFront.Proofs.Tokenization
import ScriptFront.Report

/-! What the text of an accepted program is written with. Each token of its derivation is of
a kind that the grammar knows, and the literals of these kinds hold only letters, digits and
operator signs. The printer adds spaces, brackets and separators. So the text is one line
without a colon, and cannot be taken for a report of what is wrong. -/

namespace ScriptFront

def textSigns : List Char := "_ ()\x7b\x7d,;=+-*/<>!".toList

def IsLegible (c : Char) : Prop := c.isAlphanum ∨ c ∈ textSigns

instance (c : Char) : Decidable (IsLegible c) := inferInstanceAs (Decidable (_ ∨ _))

def Legible (text : String) : Prop := ∀ c ∈ text.toList, IsLegible c

instance (text : String) : Decidable (Legible text) := List.decidableBAll _ _

theorem legible_append {a b : String} : Legible (a ++ b) ↔ Legible a ∧ Legible b := by
  simp only [Legible, String.toList_append, List.forall_mem_append]

theorem isLegible_of_isWordChar {c : Char} (h : isWordChar c) : IsLegible c := by
  simp only [isWordChar, isLetter, Bool.or_eq_true, decide_eq_true_eq] at h
  rcases h with (letter | rfl) | digit
  · exact .inl (by rw [Char.isAlphanum, letter]; rfl)
  · decide
  · exact .inl (by rw [Char.isAlphanum, digit, Bool.or_true])

theorem isLegible_of_ofChar {c : Char} (h : Kind.ofChar c ≠ .illegal) : IsLegible c := by
  unfold Kind.ofChar at h
  split at h <;> first | decide | exact absurd rfl h

theorem Lexeme.legible {kind : Kind} {literal : List Char} {next : Option Char}
    (h : Lexeme kind literal next) (known : kind ≠ .illegal) : ∀ c ∈ literal, IsLegible c := by
  have equality : IsLegible '=' := by decide
  have bang : IsLegible '!' := by decide
  cases h with
  | word head tail _ =>
    have first := isLegible_of_isWordChar (by rw [isWordChar, head]; rfl)
    exact List.forall_mem_cons.2 ⟨first, fun d member => isLegible_of_isWordChar (tail d member)⟩
  | number digits _ =>
    intro d member
    exact isLegible_of_isWordChar (by rw [isWordChar, digits d member, Bool.or_true])
  | equal => exact List.forall_mem_cons.2 ⟨equality, List.forall_mem_singleton.2 equality⟩
  | notEqual => exact List.forall_mem_cons.2 ⟨bang, List.forall_mem_singleton.2 equality⟩
  | sign _ _ _ _ =>
    rw [← Kind.ofChar_eq_lookup] at known
    exact List.forall_mem_singleton.2 (isLegible_of_ofChar known)

theorem Token.Lexical.legible {t : Token} {k : Kind} (lexical : t.Lexical) (kind : t.kind = k)
    (known : k ≠ .illegal) : Legible t.literal := by
  have found := Lexeme.of_text lexical.nonempty lexical.start
  rw [lexical.scanned, kind] at found
  exact found.legible known

namespace Legible

theorem arguments {es : List Expr} (all : ∀ e ∈ es, Legible e.render) :
    Legible (renderArguments es) := by
  induction es with
  | nil =>
    rw [renderArguments]
    decide
  | cons e es ih =>
    obtain ⟨head, tail⟩ := List.forall_mem_cons.1 all
    cases es with
    | nil =>
      rw [renderArguments]
      exact head
    | cons f es =>
      simp only [renderArguments, legible_append]
      exact ⟨⟨head, by decide⟩, ih tail⟩

theorem statements {ss : List Stmt} (all : ∀ s ∈ ss, Legible s.render) :
    Legible (renderStatements ss) := by
  induction ss with
  | nil =>
    rw [renderStatements]
    decide
  | cons s ss ih =>
    obtain ⟨head, tail⟩ := List.forall_mem_cons.1 all
    cases ss with
    | nil =>
      rw [renderStatements]
      exact head
    | cons t ss =>
      have separator : Legible (if s.isExpression then "; " else " ") := by split <;> decide
      simp only [renderStatements, legible_append]
      exact ⟨⟨head, separator⟩, ih tail⟩

end Legible

namespace Derivation

theorem Parameters.legible {ts : List Token} {names : List Identifier}
    (derived : Parameters ts names) (lexical : ∀ t ∈ ts, t.Lexical) :
    Legible (",".intercalate (names.map Identifier.value)) := by
  induction derived with
  | @one t ident =>
    rw [List.map_singleton, String.intercalate_singleton]
    exact (List.forall_mem_singleton.1 lexical).legible ident (by decide)
  | @more t comma ts names ident separator others ih =>
    simp only [List.forall_mem_cons] at lexical
    have name : Legible t.literal := lexical.1.legible ident (by decide)
    have text : ",".intercalate ((⟨t, t.literal⟩ :: names).map Identifier.value) =
        t.literal ++ "," ++ ",".intercalate (names.map Identifier.value) := by
      cases others <;> rw [List.map_cons, List.map_cons, String.intercalate_cons_cons]
    rw [text, legible_append, legible_append]
    exact ⟨⟨name, by decide⟩, ih lexical.2.2⟩

mutual

theorem Expression.legible {layer : Layer} {ts : List Token} {e : Expr} {n : Nat} :
    Expression layer ts e n → (∀ t ∈ ts, t.Lexical) → Legible e.render
  | .identifier kind, lexical | .integer kind _, lexical => by
    rw [Expr.render]
    exact (List.forall_mem_singleton.1 lexical).legible kind (by decide)
  | .boolean kind, lexical => by
    rw [Expr.render]
    exact (List.forall_mem_singleton.1 lexical).legible kind (by split <;> decide)
  | .group body, lexical => body.legible lexical
  | .conditional kind condition body otherwise, lexical => by
    simp only [List.forall_mem_cons, List.forall_mem_append] at lexical
    obtain ⟨first, second, third, fourth⟩ := lexical
    have word := first.legible kind (by decide)
    have test := condition.legible second
    simp only [Expr.render, legible_append]
    exact ⟨⟨⟨⟨⟨word, by decide⟩, test⟩, by decide⟩, body.legible third⟩, otherwise.legible fourth⟩
  | .function kind _ _ body, lexical => by
    simp only [List.forall_mem_cons] at lexical
    have word := lexical.1.legible kind (by decide)
    simp only [Expr.render, legible_append]
    exact ⟨⟨⟨⟨word, by decide⟩, by decide⟩, by decide⟩, body.legible lexical.2.2.2⟩
  | .functionOf kind _ parameters _ body, lexical => by
    simp only [List.forall_mem_cons, List.forall_mem_append] at lexical
    obtain ⟨first, -, second, -, third⟩ := lexical
    have word := first.legible kind (by decide)
    simp only [Expr.render, legible_append]
    exact ⟨⟨⟨⟨word, by decide⟩, parameters.legible second⟩, by decide⟩, body.legible third⟩
  | .call function _ _, lexical => by
    rw [List.forall_mem_append] at lexical
    have arguments : Legible (renderArguments []) := .arguments (List.forall_mem_nil _)
    simp only [Expr.render, legible_append]
    exact ⟨⟨⟨function.legible lexical.1, by decide⟩, arguments⟩, by decide⟩
  | .callWith function _ list _, lexical => by
    simp only [List.forall_mem_cons, List.forall_mem_append] at lexical
    obtain ⟨first, -, second, -⟩ := lexical
    have arguments := Legible.arguments (list.legible second)
    simp only [Expr.render, legible_append]
    exact ⟨⟨⟨function.legible first, by decide⟩, arguments⟩, by decide⟩
  | .unary kind operand, lexical => by
    simp only [List.forall_mem_cons] at lexical
    have operator : Legible _ := kind.elim (lexical.1.legible · (by decide))
      (lexical.1.legible · (by decide))
    simp only [Expr.render, legible_append]
    exact ⟨⟨⟨by decide, operator⟩, operand.legible lexical.2⟩, by decide⟩
  | .binary first kind second, lexical => by
    simp only [List.forall_mem_cons, List.forall_mem_append] at lexical
    obtain ⟨left, middle, right⟩ := lexical
    have operator := middle.legible rfl fun unknown => by
      have form := (Layer.mem_operators kind).1
      rw [unknown] at form
      cases form
    simp only [Expr.render, legible_append]
    exact ⟨⟨⟨⟨by decide, first.legible left⟩, operator⟩, second.legible right⟩, by decide⟩
  | .loosen tight, lexical => tight.legible lexical

theorem Parenthesised.legible {ts : List Token} {e : Expr} {n : Nat} :
    Parenthesised ts e n → (∀ t ∈ ts, t.Lexical) → Legible e.render
  | .mk _ body _, lexical => by
    simp only [List.forall_mem_cons, List.forall_mem_append] at lexical
    exact body.legible lexical.2.1

theorem Arguments.legible {ts : List Token} {es : List Expr} {n : Nat} :
    Arguments ts es n → (∀ t ∈ ts, t.Lexical) → ∀ e ∈ es, Legible e.render
  | .one argument, lexical => List.forall_mem_singleton.2 (argument.legible lexical)
  | .more argument _ others, lexical => by
    simp only [List.forall_mem_cons, List.forall_mem_append] at lexical
    exact List.forall_mem_cons.2 ⟨argument.legible lexical.1, others.legible lexical.2.2⟩

theorem Alternative.legible {ts : List Token} {b : Option Block} {n : Nat} :
    Alternative ts b n → (∀ t ∈ ts, t.Lexical) → Legible (renderElse b)
  | .missing, _ => by
    rw [renderElse]
    decide
  | .block _ body, lexical => by
    rw [List.forall_mem_cons] at lexical
    rw [renderElse, legible_append]
    exact ⟨by decide, body.legible lexical.2⟩

theorem Braced.legible {ts : List Token} {b : Block} {n : Nat} :
    Braced ts b n → (∀ t ∈ ts, t.Lexical) → Legible b.render
  | @Braced.mk _ _ _ ss _ _ body _, lexical => by
    simp only [List.forall_mem_cons, List.forall_mem_append] at lexical
    have inside := Legible.statements (body.legible lexical.2.1)
    cases ss with
    | nil =>
      rw [Block.render]
      decide
    | cons s ss =>
      simp only [Block.render, legible_append]
      exact ⟨⟨by decide, inside⟩, by decide⟩

theorem Statement.legible {ts : List Token} {s : Stmt} {n : Nat} {exposed : Bool} :
    Statement ts s n exposed → (∀ t ∈ ts, t.Lexical) → Legible s.render
  | .var kind ident _ value _, lexical => by
    simp only [List.forall_mem_cons, List.forall_mem_append] at lexical
    obtain ⟨first, second, -, third, -⟩ := lexical
    have word := first.legible kind (by decide)
    have name := second.legible ident (by decide)
    simp only [Stmt.render, renderValue, legible_append]
    exact ⟨⟨⟨⟨⟨word, by decide⟩, name⟩, by decide⟩, value.legible third⟩, by decide⟩
  | .ret kind value _, lexical => by
    simp only [List.forall_mem_cons, List.forall_mem_append] at lexical
    have word := lexical.1.legible kind (by decide)
    simp only [Stmt.render, renderValue, legible_append]
    exact ⟨⟨⟨word, by decide⟩, value.legible lexical.2.1⟩, by decide⟩
  | .loop kind condition body _, lexical => by
    simp only [List.forall_mem_cons, List.forall_mem_append] at lexical
    obtain ⟨first, second, third, -⟩ := lexical
    have word := first.legible kind (by decide)
    simp only [Stmt.render, legible_append]
    exact ⟨⟨⟨⟨word, by decide⟩, condition.legible second⟩, by decide⟩, body.legible third⟩
  | .expression value _, lexical => by
    rw [← List.cons_append, List.forall_mem_append] at lexical
    rw [Stmt.render, renderValue]
    exact value.legible lexical.1

theorem Statements.legible {ts : List Token} {ss : List Stmt} {n : Nat} :
    Statements ts ss n → (∀ t ∈ ts, t.Lexical) → ∀ s ∈ ss, Legible s.render
  | .nil, _ => nofun
  | .cons head tail _, lexical => by
    rw [List.forall_mem_append] at lexical
    exact List.forall_mem_cons.2 ⟨head.legible lexical.1, tail.legible lexical.2⟩

end

end Derivation

end ScriptFront
