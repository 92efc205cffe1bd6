import ScriptFront.Proofs.Acceptance

/-! How the tokens are laid out does not matter. Every input is a relocation of one whose
tokens have their own numbers for places, and that one is the same for all inputs with the
same kinds and literals. So such inputs are read in the same way, and a diagnostic that
stands at token number `i` of one stands at token number `i` of the other. -/

namespace ScriptFront

namespace Position

/-- A number as a place: the name of the input has as many characters. -/
def numbered (i : Nat) : Position := ⟨0, String.ofList (List.replicate i '.')⟩

def number (p : Position) : Nat := p.file.length

@[simp] theorem number_numbered (i : Nat) : (numbered i).number = i := by
  simp [number, numbered]

end Position

def Token.numbered (i : Nat) (t : Token) : Token :=
  { t with span := ⟨.numbered i, .numbered i⟩ }

def TokenStream.numbered (s : TokenStream) : TokenStream :=
  ⟨s.body.mapIdx Token.numbered, s.last.numbered s.body.length⟩

theorem TokenStream.numbered_of_symbols {s r : TokenStream}
    (h : s.toList.map Token.symbol = r.toList.map Token.symbol) : s.numbered = r.numbered := by
  have factor (i : Nat) : Token.numbered i =
      (fun symbol => ⟨symbol.1, symbol.2, .numbered i, .numbered i⟩) ∘ Token.symbol := rfl
  rw [toList, toList, List.map_append, List.map_append] at h
  obtain ⟨body, last⟩ := List.append_inj' h rfl
  have length : s.body.length = r.body.length := by simpa using congrArg List.length body
  have tokens : s.body.mapIdx Token.numbered = r.body.mapIdx Token.numbered := by
    apply List.ext_getElem?
    intro i
    have symbol : s.body[i]?.map Token.symbol = r.body[i]?.map Token.symbol := by
      rw [← List.getElem?_map, body, List.getElem?_map]
    rw [List.getElem?_mapIdx, List.getElem?_mapIdx, factor, ← Option.map_map, ← Option.map_map,
      symbol]
  have stop : s.last.symbol = r.last.symbol := by simpa using last
  rw [numbered, numbered, tokens, length, factor, Function.comp_apply, stop]
  rfl

namespace Relocation

def onto (s : TokenStream) (journal : Journal) : Relocation where
  token t := { t with span := (s.get t.position.number).span }
  position p := (s.get p.number).position
  errors := #[]
  journal := journal
  kind_token _ := rfl
  literal_token _ := rfl
  position_token _ := rfl

theorem onto_stream (s : TokenStream) (journal : Journal) :
    (onto s journal).stream s.numbered = s := by
  have place (i : Nat) : (onto s journal).token ((s.get i).numbered i) = s.get i := by
    simp [onto, Token.numbered, Token.position]
  have body : (s.body.mapIdx Token.numbered).map (onto s journal).token = s.body := by
    apply List.ext_getElem?
    intro i
    rw [List.getElem?_map, List.getElem?_mapIdx]
    cases token : s.body[i]? with
    | none => rfl
    | some t =>
      have found : s.get i = t := by simp [TokenStream.get, token]
      exact congrArg some (found ▸ place i)
  have last : (onto s journal).token (s.last.numbered s.body.length) = s.last := by
    have found : s.get s.body.length = s.last := by simp [TokenStream.get]
    exact found ▸ place s.body.length
  rw [stream, TokenStream.numbered, body, last]

end Relocation

def Parser.numbered (p : Parser) : Parser := ⟨p.input.numbered, #[], p.depth, #[]⟩

namespace Parser.Fresh

variable {p : Parser} (fresh : p.Fresh)
include fresh

theorem relocates : (Relocation.onto p.input p.journal).parser p.numbered = p := by
  obtain ⟨input, errors, depth, journal⟩ := p
  obtain rfl : errors = #[] := fresh.errors
  have same := Relocation.onto_stream input journal
  simp only [Relocation.parser, numbered, same]
  simp [Relocation.onto]

theorem program_bare_numbered : p.program.1.bare = p.numbered.program.1.bare := by
  have moved := (Relocation.onto p.input p.journal).program_fst p.numbered
  rw [fresh.relocates] at moved
  rw [moved, Program.bare, Program.mapTokens_mapTokens]
  rfl

theorem errors_numbered : p.program.2.errors.toList =
    p.numbered.program.2.errors.toList.map (Relocation.onto p.input p.journal).diagnostic := by
  have moved := (Relocation.onto p.input p.journal).program_errors p.numbered
  rw [fresh.relocates] at moved
  rw [moved]
  simp [Relocation.onto]

end Parser.Fresh

/-- A diagnostic and one with the same cause at the token of the same number. -/
def Diagnostic.Matches (tokens others : List Token) (d e : Diagnostic) : Prop :=
  d.cause = e.cause ∧ ∃ (i : Nat) (t u : Token), tokens[i]? = some t ∧ others[i]? = some u ∧
    d.position = t.span.start ∧ e.position = u.span.start

section Pair

variable {p q : Parser} (hp : p.Fresh) (hq : q.Fresh)
  (same : p.input.toList.map Token.symbol = q.input.toList.map Token.symbol)
include hp hq same

theorem Parser.Fresh.numbered_congr : p.numbered = q.numbered := by
  rw [Parser.numbered, Parser.numbered, TokenStream.numbered_of_symbols same, hp.depth, hq.depth]

theorem Parser.Fresh.program_bare_congr : p.program.1.bare = q.program.1.bare := by
  rw [hp.program_bare_numbered, hp.numbered_congr hq same, hq.program_bare_numbered]

theorem Parser.Fresh.errors_match :
    List.Forall₂ (Diagnostic.Matches p.input.toList q.input.toList) p.program.2.errors.toList
      q.program.2.errors.toList := by
  have length : p.input.toList.length = q.input.toList.length := by
    simpa using congrArg List.length same
  rw [hp.errors_numbered, hq.errors_numbered, hp.numbered_congr hq same,
    List.forall₂_map_left_iff, List.forall₂_map_right_iff, List.forall₂_same]
  intro d _
  have first := p.input.toList_getElem? d.position.number
  have second := q.input.toList_getElem? d.position.number
  rw [← length] at second
  exact ⟨rfl, _, _, _, first, second, rfl, rfl⟩

end Pair

theorem parse_toOption (source : String) (file : Option String) :
    (parse source file).toOption = if (readProgram source file).2.errors.size = 0 then
      some (readProgram source file).1 else none := by
  change ((readProgram source file).2.verdict (readProgram source file).1).toOption = _
  simp only [Parser.verdict, Array.isEmpty_iff_size_eq_zero]
  split <;> rfl

/-- Two sources with the same kinds and literals of tokens are read as the same program, with
the same things wrong at the same tokens. -/
theorem readProgram_congr {first second : String} {file file' : Option String}
    (same : (tokenize first file).map Token.symbol = (tokenize second file').map Token.symbol) :
    (readProgram first file).1.bare = (readProgram second file').1.bare ∧
      List.Forall₂ (Diagnostic.Matches (tokenize first file) (tokenize second file'))
        (readProgram first file).2.errors.toList (readProgram second file').2.errors.toList ∧
      (parse first file).toOption.map Program.bare =
        (parse second file').toOption.map Program.bare := by
  have hp := Parser.ofSource_fresh first file
  have hq := Parser.ofSource_fresh second file'
  have tree := hp.program_bare_congr hq same
  have errors := hp.errors_match hq same
  have count : (readProgram first file).2.errors.size = (readProgram second file').2.errors.size :=
    errors.length_eq
  refine ⟨tree, errors, ?_⟩
  rw [parse_toOption, parse_toOption, count]
  split
  · exact congrArg some tree
  · rfl

theorem readProgram_congr_spaced :
    (readProgram "f( 1+;x)" none).2.errors.size = 2 ∧
      List.Forall₂ (Diagnostic.Matches (tokenize "f( 1+;x)" none)
          (tokenize "f\n(1 +; x\t)" (some "s.txt")))
        (readProgram "f( 1+;x)" none).2.errors.toList
        (readProgram "f\n(1 +; x\t)" (some "s.txt")).2.errors.toList :=
  ⟨by decide +kernel, (readProgram_congr (by decide +kernel)).2.1⟩

end ScriptFront
