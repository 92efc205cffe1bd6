import ScriptFront.Proofs.Completeness
import ScriptFront.Proofs.Relocation
import ScriptFront.Proofs.Soundness

/-! Which sources are accepted. A derivation from other tokens serves as well, as long as
their kinds and literals are those of the source: the tree that is read then differs from
the derived one by the places of tokens only. The number of levels that the derivation
opens decides between the tree and the diagnostic for the nesting limit. -/

namespace ScriptFront

def Token.bare (t : Token) : Token := { t with span := default }

theorem bare_of_symbols {ts us : List Token} (h : ts.map Token.symbol = us.map Token.symbol) :
    ts.map Token.bare = us.map Token.bare := by
  have factor : Token.bare = (fun s => ⟨s.1, s.2, default⟩) ∘ Token.symbol := rfl
  rw [factor, ← List.map_map, h, List.map_map]

def Program.bare (program : Program) : Program := program.mapTokens Token.bare Token.bare

def Relocation.bare : Relocation where
  token := Token.bare
  position _ := default
  errors := #[]
  journal := #[]
  kind_token _ := rfl
  literal_token _ := rfl
  position_token _ := rfl

def Parser.causes (p : Parser) : List Cause := p.program.2.errors.toList.map Diagnostic.cause

section Places

variable {p q : Parser} (same : Relocation.bare.parser p = Relocation.bare.parser q)
include same

theorem program_bare_congr : p.program.1.bare = q.program.1.bare := by
  have moves := Relocation.bare.program_fst p
  rw [same, Relocation.program_fst] at moves
  exact moves.symm

theorem causes_congr : p.causes = q.causes := by
  have moves := congrArg (·.toList.map Diagnostic.cause) (Relocation.bare.program_errors p)
  rw [same, Relocation.program_errors] at moves
  have start : Relocation.bare.errors = #[] := rfl
  have cause : Diagnostic.cause ∘ Relocation.bare.diagnostic = Diagnostic.cause := rfl
  simpa [start, cause, Parser.causes] using moves.symm

end Places

namespace Parser.Fresh

variable {p : Parser} {ts : List Token} {program : Program} {n : Nat}

theorem program_of_derives (fresh : p.Fresh) (derived : Derives p.input.body program n) :
    (n ≤ maxDepth → p.program.1 = program ∧ p.program.2.errors = #[]) ∧
      (maxDepth < n → ∃ d : Diagnostic, d.cause = .nestingTooDeep maxDepth ∧
        [d] <+: p.program.2.errors.toList) := by
  have complete : p.inner.Complete maxDepth := fresh.inner ▸ Inner.complete_levels maxDepth
  have closes : Rule.Closes .eof [] := ⟨.inr rfl, nofun⟩
  have ready : p.Ready maxDepth := ⟨fresh.ended, by rw [fresh.depth, Nat.zero_add]⟩
  obtain ⟨fits, exceeds⟩ :=
    Rule.stmtsLeft_complete complete closes derived ready (List.append_nil _).symm
  refine ⟨fun few => ?_, fun deep => ?_⟩
  · obtain ⟨q, run, arrive⟩ := fits few
    have program_eq : p.program.1 = program :=
      congrArg (fun result : List Stmt × Parser => Program.mk result.1) run
    have errors_eq : p.program.2.errors = q.errors :=
      congrArg (fun result : List Stmt × Parser => result.2.errors) run
    exact ⟨program_eq, errors_eq.trans (arrive.errors.trans fresh.errors)⟩
  · obtain ⟨d, cause, found⟩ := exceeds deep
    rw [fresh.errors] at found
    exact ⟨d, cause, found⟩

theorem verdict_of_derives (fresh : p.Fresh) (derived : Derives ts program n)
    (symbols : p.input.body.map Token.symbol = ts.map Token.symbol) :
    (n ≤ maxDepth → ∃ result, p.program.2.verdict p.program.1 = .ok result ∧
        result.bare = program.bare) ∧
      (maxDepth < n → ∃ d ds, p.program.2.verdict p.program.1 = .error (d :: ds) ∧
        d.cause = .nestingTooDeep maxDepth) := by
  generalize moved : ({ p with input := ⟨ts, p.input.last⟩ } : Parser) = q
  have same : Relocation.bare.parser p = Relocation.bare.parser q := by
    rw [← moved]
    simp only [Relocation.parser, Relocation.stream, Relocation.bare, bare_of_symbols symbols]
  have start : q.Fresh := by
    subst moved
    refine ⟨fresh.ended, fun t member => ?_, fresh.depth, fresh.errors⟩
    obtain ⟨u, source, symbol⟩ := List.mem_map.1 (symbols ▸ List.mem_map_of_mem member)
    have kind : u.kind = t.kind := congrArg Prod.fst symbol
    exact kind ▸ fresh.running u source
  have derived : Derives q.input.body program n := by rwa [← moved]
  have causes := causes_congr same
  obtain ⟨fits, exceeds⟩ := start.program_of_derives derived
  refine ⟨fun few => ?_, fun deep => ?_⟩
  · obtain ⟨read, quiet⟩ := fits few
    have none : p.program.2.errors = #[] := by
      simpa [Parser.causes, quiet] using causes
    exact ⟨p.program.1, by rw [Parser.verdict, none]; rfl, by rw [program_bare_congr same, read]⟩
  · obtain ⟨d, cause, rest, found⟩ := exceeds deep
    rw [Parser.causes, Parser.causes, ← found] at causes
    obtain ⟨d', ds, listed, first, -⟩ := List.map_eq_cons_iff.1 causes
    have some : ¬ p.program.2.errors.isEmpty := by
      rw [← Array.isEmpty_toList, listed]
      exact Bool.false_ne_true
    exact ⟨d', ds, by rw [Parser.verdict, if_neg some, listed], first.trans cause⟩

end Parser.Fresh

/-- A source whose tokens have a derivation is read as the derived program if at most 256
levels are open at once; if more are, that is the first thing found wrong. -/
theorem parse_of_derives {ts : List Token} {program : Program} {n : Nat} {source : String}
    {file : Option String} (derived : Derives ts program n)
    (symbols : (tokenize source file).dropLast.map Token.symbol = ts.map Token.symbol) :
    (n ≤ 256 → ∃ result, parse source file = .ok result ∧ result.bare = program.bare) ∧
      (256 < n → ∃ d ds, parse source file = .error (d :: ds) ∧ d.cause = .nestingTooDeep 256) :=
  (Parser.ofSource_fresh source file).verdict_of_derives derived
    (Parser.ofSource_body source file ▸ symbols)

theorem parse_of_derives_product :
    ∃ result, parse "-a*(b)" none = .ok result ∧
      result.bare = Program.bare ⟨[.expression ⟨.minus, "-", default⟩
        (some (.binary ⟨.asterisk, "*", default⟩
          (.unary ⟨.minus, "-", default⟩ "-" (.identifier ⟨⟨.ident, "a", default⟩, "a"⟩)) "*"
          (.identifier ⟨⟨.ident, "b", default⟩, "b"⟩)))]⟩ := by
  have left : Derivation.Expression .product [⟨.minus, "-", default⟩, ⟨.ident, "a", default⟩]
      (.unary ⟨.minus, "-", default⟩ "-" (.identifier ⟨⟨.ident, "a", default⟩, "a"⟩)) 2 :=
    .loosen (.unary (.inr rfl) (.loosen (.identifier rfl)))
  have right : Derivation.Expression .unary
      [⟨.lparen, "(", default⟩, ⟨.ident, "b", default⟩, ⟨.rparen, ")", default⟩]
      (.identifier ⟨⟨.ident, "b", default⟩, "b"⟩) 2 :=
    .loosen (.group (.mk rfl (.loosenTo (by decide) (.identifier rfl)) rfl))
  have product := Derivation.Expression.binary (t := ⟨.asterisk, "*", default⟩) left
    (by decide) right
  have derived : Derives _ ⟨_⟩ _ :=
    .cons (.expression (.loosenTo (a := .equality) (by decide) product) .missing) .nil nofun
  exact (parse_of_derives derived (by decide +kernel)).1 (by decide)

end ScriptFront
