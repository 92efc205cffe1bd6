import Mathlib
import ScriptFront.Config

/-! How arguments are read. From the left they fall into segments: a quiet flag, a directory
flag with its value, or an input. If all of them do, with one input at most, the settings are
read off the segments. Otherwise the first point where this fails decides the error, whatever
comes behind it. -/

namespace ScriptFront

namespace Arguments

def quietFlags : List String := ["-q", "--quiet"]

def dirFlags : List String := ["-d", "--dir"]

def IsPlain (arg : String) : Prop := arg.toList.head? ≠ some '-' ∨ arg = "-"

/-- Arguments that are read together. -/
inductive Segment where
  | quiet (flag : String) (named : flag ∈ quietFlags)
  | dir (flag : String) (named : flag ∈ dirFlags) (value : String)
  | input (arg : String) (plain : IsPlain arg)

namespace Segment

def arguments : Segment → List String
  | quiet flag _ => [flag]
  | dir flag _ value => [flag, value]
  | input arg _ => [arg]

theorem length_pos (s : Segment) : 0 < s.arguments.length := by
  cases s <;> exact Nat.succ_pos _

def isQuiet : Segment → Bool
  | quiet _ _ => true
  | dir _ _ _ | input _ _ => false

def dir? : Segment → Option String
  | dir _ _ value => some value
  | quiet _ _ | input _ _ => none

def input? : Segment → Option String
  | input arg _ => some arg
  | quiet _ _ | dir _ _ _ => none

end Segment

def spelled (segments : List Segment) : List String := segments.flatMap Segment.arguments

def dirs (segments : List Segment) : List String := segments.filterMap Segment.dir?

def inputs (segments : List Segment) : List String := segments.filterMap Segment.input?

/-- What segments ask for: the last directory counts. -/
def request (segments : List Segment) : Request :=
  ⟨segments.any Segment.isQuiet, (dirs segments).getLast?, (inputs segments).head?⟩

/-- `Fault before arg later e`: the argument `arg` behind the segments `before` is refused for
the reason `e`. Only a missing value depends on the arguments `later` behind it. -/
inductive Fault (before : List Segment) : String → List String → UsageError → Prop where
  | unknownFlag {arg : String} {later : List String} (flag : ¬ IsPlain arg)
      (other : arg ∉ quietFlags ∧ arg ∉ dirFlags) : Fault before arg later (.unknownFlag arg)
  | missingValue {flag : String} (named : flag ∈ dirFlags) :
      Fault before flag [] (.missingValue flag)
  | tooManyInputs {first second : String} {later : List String} (given : inputs before = [first])
      (plain : IsPlain second) : Fault before second later (.tooManyInputs first second)

theorem Fault.later_of {before : List Segment} {arg : String} {later more : List String}
    {e : UsageError} (fault : Fault before arg later e)
    (free : (∀ flag, e ≠ .missingValue flag) ∨ more = later) : Fault before arg more e := by
  rcases free with other | rfl
  · cases fault with
    | unknownFlag flag unnamed => exact .unknownFlag flag unnamed
    | missingValue named => exact absurd rfl (other arg)
    | tooManyInputs given plain => exact .tooManyInputs given plain
  · exact fault

theorem looksLikeFlag_iff (arg : String) : Request.looksLikeFlag arg ↔ ¬ IsPlain arg := by
  have dash : arg = "-" ↔ arg.toList = ['-'] :=
    ⟨fun same => by rw [same]; rfl, fun same => String.toList_inj.1 same⟩
  rw [IsPlain, dash, Request.looksLikeFlag]
  split
  · next c rest text => simp [text]
  · next other =>
    refine ⟨nofun, fun flag => ?_⟩
    rw [not_or, not_not] at flag
    obtain ⟨rest, text⟩ := List.head?_eq_some_iff.1 flag.1
    cases rest with
    | nil => exact absurd text flag.2
    | cons c rest => exact absurd text (other c rest)

theorem mem_quietFlags {arg : String} : arg ∈ quietFlags ↔ arg = "-q" ∨ arg = "--quiet" := by
  simp [quietFlags]

theorem mem_dirFlags {arg : String} : arg ∈ dirFlags ↔ arg = "-d" ∨ arg = "--dir" := by
  simp [dirFlags]

theorem not_quiet_of_dir {flag : String} (named : flag ∈ dirFlags) : flag ∉ quietFlags := by
  rcases mem_dirFlags.1 named with rfl | rfl <;> decide

instance (arg : String) : Decidable (IsPlain arg) :=
  inferInstanceAs (Decidable (_ ∨ _))

theorem IsPlain.not_flag {arg : String} (plain : IsPlain arg) :
    arg ∉ quietFlags ∧ arg ∉ dirFlags := by
  constructor
  · intro named
    rcases mem_quietFlags.1 named with rfl | rfl <;> exact absurd plain (by decide)
  · intro named
    rcases mem_dirFlags.1 named with rfl | rfl <;> exact absurd plain (by decide)

theorem dirs_concat (before : List Segment) (s : Segment) :
    dirs (before ++ [s]) = dirs before ++ s.dir?.toList := by
  rw [dirs, List.filterMap_append]
  cases s <;> rfl

theorem inputs_concat (before : List Segment) (s : Segment) :
    inputs (before ++ [s]) = inputs before ++ s.input?.toList := by
  rw [inputs, List.filterMap_append]
  cases s <;> rfl

theorem request_concat (before : List Segment) (s : Segment) :
    request (before ++ [s]) = ⟨(request before).quiet || s.isQuiet, s.dir?.or (request before).dir,
      (request before).input.or s.input?⟩ := by
  simp only [request, dirs_concat, inputs_concat, List.any_append, List.any_cons, List.any_nil,
    Bool.or_false, List.getLast?_append, List.head?_append]
  cases s <;> rfl

theorem input_request (segments : List Segment) :
    (request segments).input = (inputs segments).head? := rfl

theorem ofArgs_plain {arg : String} (plain : IsPlain arg) (r : Request) (rest : List String) :
    r.ofArgs (arg :: rest) = match r.input with
      | some first => .error (.tooManyInputs first arg)
      | none => Request.ofArgs { r with input := some arg } rest := by
  obtain ⟨quiet, dir⟩ := plain.not_flag
  have flag : ¬ Request.looksLikeFlag arg := mt (looksLikeFlag_iff arg).1 (not_not.2 plain)
  rw [Request.ofArgs.eq_def]
  exact (if_neg (mt mem_quietFlags.2 quiet)).trans
    ((if_neg (mt mem_dirFlags.2 dir)).trans (if_neg flag))

theorem ofArgs_segment {before : List Segment} {s : Segment}
    (fits : (inputs (before ++ [s])).length ≤ 1) (rest : List String) :
    (request before).ofArgs (s.arguments ++ rest) = (request (before ++ [s])).ofArgs rest := by
  cases s with
  | quiet flag named =>
    have next : request (before ++ [.quiet flag named]) =
        { request before with quiet := true } := by
      simp [request_concat, Segment.isQuiet, Segment.dir?, Segment.input?]
    rw [next, Request.ofArgs.eq_def]
    exact if_pos (mem_quietFlags.1 named)
  | dir flag named value =>
    have next : request (before ++ [.dir flag named value]) =
        { request before with dir := some value } := by
      simp [request_concat, Segment.isQuiet, Segment.dir?, Segment.input?]
    rw [next, Request.ofArgs.eq_def]
    exact (if_neg (mt mem_quietFlags.2 (not_quiet_of_dir named))).trans
      (if_pos (mem_dirFlags.1 named))
  | input arg plain =>
    rw [inputs_concat, List.length_append] at fits
    have none : inputs before = [] :=
      List.length_eq_zero_iff.1 (Nat.le_zero.1 (Nat.le_of_succ_le_succ fits))
    have first : (request before).input = .none := by rw [input_request, none, List.head?_nil]
    have next : request (before ++ [.input arg plain]) =
        { request before with input := some arg } := by
      simp [request_concat, first, Segment.isQuiet, Segment.dir?, Segment.input?]
    rw [next]
    exact (ofArgs_plain plain _ rest).trans (by rw [first])

theorem ofArgs_spelled {before more : List Segment}
    (fits : (inputs (before ++ more)).length ≤ 1) (rest : List String) :
    (request before).ofArgs (spelled more ++ rest) = (request (before ++ more)).ofArgs rest := by
  induction more generalizing before with
  | nil => rw [List.append_nil]; rfl
  | cons s more ih =>
    rw [List.append_cons] at fits ⊢
    have one : (inputs (before ++ [s])).length ≤ 1 :=
      Nat.le_trans ((List.prefix_append _ more).filterMap _).length_le fits
    rw [spelled, List.flatMap_cons, List.append_assoc, ofArgs_segment one]
    exact ih fits

theorem ofArgs_fault {before : List Segment} {arg : String} {later : List String} {e : UsageError}
    (fault : Fault before arg later e) : (request before).ofArgs (arg :: later) = .error e := by
  cases fault with
  | unknownFlag flag other =>
    rw [Request.ofArgs.eq_def]
    refine (if_neg (mt mem_quietFlags.2 other.1)).trans ?_
    refine (if_neg (mt mem_dirFlags.2 other.2)).trans ?_
    exact if_pos ((looksLikeFlag_iff arg).2 flag)
  | missingValue named =>
    rw [Request.ofArgs.eq_def]
    exact (if_neg (mt mem_quietFlags.2 (not_quiet_of_dir named))).trans
      (if_pos (mem_dirFlags.1 named))
  | @tooManyInputs first _ _ given plain =>
    have some : (request before).input = some first := by
      rw [input_request, given, List.head?_cons]
    rw [ofArgs_plain plain, some]

theorem exists_segment_or_fault {before : List Segment} (fits : (inputs before).length ≤ 1)
    (arg : String) (rest : List String) :
    (∃ s more, s.arguments ++ more = arg :: rest ∧ (inputs (before ++ [s])).length ≤ 1) ∨
      ∃ e, Fault before arg rest e := by
  by_cases quiet : arg ∈ quietFlags
  · exact .inl ⟨.quiet arg quiet, rest, rfl, by simpa [inputs_concat, Segment.input?] using fits⟩
  · by_cases dir : arg ∈ dirFlags
    · cases rest with
      | nil => exact .inr ⟨_, .missingValue dir⟩
      | cons value rest =>
        exact .inl
          ⟨.dir arg dir value, rest, rfl, by simpa [inputs_concat, Segment.input?] using fits⟩
    · by_cases plain : IsPlain arg
      · rcases given : inputs before with _ | ⟨first, others⟩
        · exact .inl ⟨.input arg plain, rest, rfl, by simp [inputs_concat, given, Segment.input?]⟩
        · rw [given, List.length_cons] at fits
          obtain rfl : others = [] := List.length_eq_zero_iff.1 (by omega)
          exact .inr ⟨_, .tooManyInputs given plain⟩
      · exact .inr ⟨_, .unknownFlag plain ⟨quiet, dir⟩⟩

/-- All arguments are segments, or there is a first that is refused. -/
theorem exists_segments_or_fault (args : List String) {before : List Segment}
    (fits : (inputs before).length ≤ 1) :
    ∃ more, (inputs (before ++ more)).length ≤ 1 ∧
      (spelled more = args ∨
        ∃ arg later e, spelled more ++ arg :: later = args ∧
          Fault (before ++ more) arg later e) := by
  -- A segment takes one argument or two, so the recursion is on how many are left.
  rcases args with _ | ⟨arg, rest⟩
  · exact ⟨[], by rwa [List.append_nil], .inl rfl⟩
  · rcases exists_segment_or_fault fits arg rest with ⟨s, others, split, one⟩ | ⟨e, fault⟩
    · have shorter : others.length ≤ rest.length := by
        have length := congrArg List.length split
        rw [List.length_append, List.length_cons] at length
        have some := s.length_pos
        omega
      obtain ⟨more, most, ends⟩ := exists_segments_or_fault others one
      rw [← List.append_cons] at most ends
      refine ⟨s :: more, most, ?_⟩
      rw [spelled, List.flatMap_cons, ← split]
      rcases ends with all | ⟨found, later, e, rest, fault⟩
      · exact .inl (congrArg _ all)
      · refine .inr ⟨found, later, e, ?_, fault⟩
        rw [List.append_assoc]
        exact congrArg _ rest
    · rw [← List.append_nil before] at fits fault
      exact ⟨[], fits, .inr ⟨arg, rest, e, rfl, fault⟩⟩
termination_by args.length

structure Describes (segments : List Segment) (env : Option String) (config : Config) : Prop where
  quiet : config.quiet = true ↔ ∃ s ∈ segments, s.isQuiet
  input : config.input = (inputs segments).head?
  /-- The last directory counts, then that of the environment unless it is empty. -/
  scriptDir : config.scriptDir =
    ((dirs segments).getLast?.or (env.filter (· ≠ ""))).getD "scripts"
  extension : config.extension = "txt"

theorem Describes.eq {segments : List Segment} {env : Option String} {a b : Config}
    (ha : Describes segments env a) (hb : Describes segments env b) : a = b := by
  obtain ⟨dir, extension, quiet, input⟩ := a
  obtain ⟨dir', extension', quiet', input'⟩ := b
  have sameQuiet : quiet = quiet' := Bool.eq_iff_iff.2 (ha.quiet.trans hb.quiet.symm)
  rw [show dir = dir' from ha.scriptDir.trans hb.scriptDir.symm,
    show extension = extension' from ha.extension.trans hb.extension.symm, sameQuiet,
    show input = input' from ha.input.trans hb.input.symm]

theorem envScriptDir_eq (env : Option String) :
    Config.envScriptDir env = (env.filter (· ≠ "")).getD "scripts" := by
  cases env with
  | none => rfl
  | some dir =>
    by_cases empty : dir = ""
    · rw [empty]
      rfl
    · simp [Config.envScriptDir, empty, Option.filter]

theorem resolve_spelled {segments : List Segment} (fits : (inputs segments).length ≤ 1)
    (env : Option String) :
    ∃ config, Config.resolve (spelled segments) env = .ok config ∧
      Describes segments env config := by
  have read : Request.none.ofArgs (spelled segments) = .ok (request segments) := by
    have all := @ofArgs_spelled [] segments fits []
    rw [List.append_nil, List.nil_append] at all
    exact all
  refine ⟨_, by rw [Config.resolve, read]; rfl, ⟨?_, rfl, ?_, rfl⟩⟩
  · exact List.any_eq_true
  · change (dirs segments).getLast?.getD (Config.envScriptDir env) = _
    rw [envScriptDir_eq]
    cases (dirs segments).getLast? <;> rfl

theorem resolve_fault {before : List Segment} (fits : (inputs before).length ≤ 1)
    {arg : String} {later : List String} {e : UsageError} (fault : Fault before arg later e)
    (env : Option String) :
    Config.resolve (spelled before ++ arg :: later) env = .error e := by
  have read : Request.none.ofArgs (spelled before ++ arg :: later) = .error e :=
    (@ofArgs_spelled [] before fits (arg :: later)).trans (ofArgs_fault fault)
  rw [Config.resolve, read]
  rfl

theorem resolve_cases (args : List String) (env : Option String) :
    (∃ segments config, spelled segments = args ∧ (inputs segments).length ≤ 1 ∧
      Describes segments env config ∧ Config.resolve args env = .ok config) ∨
    ∃ before arg later e, spelled before ++ arg :: later = args ∧ (inputs before).length ≤ 1 ∧
      Fault before arg later e ∧ Config.resolve args env = .error e := by
  obtain ⟨segments, fits, ends⟩ := @exists_segments_or_fault args [] (Nat.zero_le 1)
  rw [List.nil_append] at fits ends
  rcases ends with rfl | ⟨arg, later, e, rfl, fault⟩
  · obtain ⟨config, accepted, describes⟩ := resolve_spelled fits env
    exact .inl ⟨segments, config, rfl, fits, describes, accepted⟩
  · exact .inr ⟨segments, arg, later, e, rfl, fits, fault, resolve_fault fits fault env⟩

section Resolve

variable {args : List String} {env : Option String}

theorem resolve_eq_ok_iff {config : Config} : Config.resolve args env = .ok config ↔
    ∃ segments, spelled segments = args ∧ (inputs segments).length ≤ 1 ∧
      Describes segments env config := by
  constructor
  · intro accepted
    rcases resolve_cases args env with
      ⟨segments, other, split, fits, describes, ok⟩ | ⟨_, _, _, _, _, _, _, refused⟩
    · obtain rfl : other = config := Except.ok.inj (ok.symm.trans accepted)
      exact ⟨segments, split, fits, describes⟩
    · cases refused.symm.trans accepted
  · rintro ⟨segments, rfl, fits, describes⟩
    obtain ⟨other, accepted, same⟩ := resolve_spelled fits env
    rw [accepted, same.eq describes]

theorem resolve_eq_error_iff {e : UsageError} : Config.resolve args env = .error e ↔
    ∃ before arg later, spelled before ++ arg :: later = args ∧ (inputs before).length ≤ 1 ∧
      Fault before arg later e := by
  constructor
  · intro refused
    rcases resolve_cases args env with
      ⟨_, _, _, _, _, accepted⟩ | ⟨before, arg, later, other, split, fits, fault, error⟩
    · cases accepted.symm.trans refused
    · obtain rfl : other = e := Except.error.inj (error.symm.trans refused)
      exact ⟨before, arg, later, split, fits, fault⟩
  · rintro ⟨before, arg, later, rfl, fits, fault⟩
    exact resolve_fault fits fault env

end Resolve

/-- Arguments are settled from left to right: they are accepted if they fall into segments
with one input at most, which then describe the settings. Otherwise they are refused for the
first argument that does not fit, whatever comes behind it and whatever the environment. -/
theorem resolve_segments (args : List String) (env : Option String) :
    ((∃ config, Config.resolve args env = .ok config) ↔
      ∃ segments, spelled segments = args ∧ (inputs segments).length ≤ 1) ∧
    (∀ config, Config.resolve args env = .ok config ↔
      ∃ segments, spelled segments = args ∧ (inputs segments).length ≤ 1 ∧
        Describes segments env config) ∧
    (∀ e, Config.resolve args env = .error e ↔
      ∃ before arg later, spelled before ++ arg :: later = args ∧ (inputs before).length ≤ 1 ∧
        Fault before arg later e) ∧
    ∀ before arg later e, (inputs before).length ≤ 1 → Fault before arg later e →
      ∀ more others, (∀ flag, e ≠ .missingValue flag) ∨ more = later →
        Config.resolve (spelled before ++ arg :: more) others = .error e := by
  refine ⟨⟨fun ⟨config, accepted⟩ => ?_, ?_⟩, fun config => resolve_eq_ok_iff,
    fun e => resolve_eq_error_iff, fun before arg later e fits fault more others free => ?_⟩
  · obtain ⟨segments, split, fits, -⟩ := resolve_eq_ok_iff.1 accepted
    exact ⟨segments, split, fits⟩
  · rintro ⟨segments, rfl, fits⟩
    obtain ⟨config, accepted, -⟩ := resolve_spelled fits env
    exact ⟨config, accepted⟩
  · exact resolve_fault fits (fault.later_of free) others

theorem resolve_segments_dashes :
    Config.resolve ["-d", "-q", "-", "--dir", ""] (some "e") = .ok ⟨"", "txt", false, some "-"⟩ ∧
      ∀ more others, Config.resolve ("a" :: "--dir" :: "-d" :: "" :: more) others =
        .error (.tooManyInputs "a" "") := by
  have plain : IsPlain "-" := by decide
  have first : IsPlain "a" := by decide
  have second : IsPlain "" := by decide
  have dir : "-d" ∈ dirFlags ∧ "--dir" ∈ dirFlags := by decide
  obtain ⟨-, accepted, -⟩ := resolve_segments ["-d", "-q", "-", "--dir", ""] (some "e")
  obtain ⟨-, -, -, refused⟩ := resolve_segments [] none
  refine ⟨(accepted _).2 ⟨[.dir "-d" dir.1 "-q", .input "-" plain, .dir "--dir" dir.2 ""], rfl,
    Nat.le_refl 1, ⟨?_, rfl, rfl, rfl⟩⟩, fun more others => ?_⟩
  · simp [Segment.isQuiet]
  · exact refused [.input "a" first, .dir "--dir" dir.2 "-d"] "" [] _ (Nat.le_refl 1)
      (.tooManyInputs rfl second) more others (.inl nofun)

end Arguments

end ScriptFront
