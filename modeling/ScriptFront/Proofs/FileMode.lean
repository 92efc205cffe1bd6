import ScriptFront.CommandLine
import ScriptFront.Proofs.Soundness

/-! A file given on the command line is reported on as the read-loop reports on a script.
The two ways name a source without a file name differently, but no such source is read: a
walk can end at a file only by the step of a name, because nothing lies behind a file, and
then this name is the last part of the path. -/

namespace ScriptFront

namespace FileTable

variable {table : FileTable}

theorem step_file {place : Place} {segment : Path.Segment} {content : ByteArray}
    (step : table.step place segment = .ok (.file content)) : ∃ text, segment = .name text := by
  cases segment with
  | name text => exact ⟨text, rfl⟩
  | stay => cases place <;> cases step
  | up => cases place <;> cases step

theorem walk_file {place : Place} {segments : List Path.Segment} {content : ByteArray}
    (walk : table.walk place segments = .ok (.file content)) :
    (segments = [] ∧ place = .file content) ∨ ∃ text, segments.getLast? = some (.name text) := by
  induction segments generalizing place with
  | nil => exact .inl ⟨rfl, Except.ok.inj walk⟩
  | cons segment rest ih =>
    rw [FileTable.walk] at walk
    cases step : table.step place segment with
    | error fault =>
      rw [step] at walk
      cases walk
    | ok next =>
      rw [step] at walk
      -- From a file there is no step, so a walk that has come to one has no segments left.
      rcases ih walk with ⟨rfl, rfl⟩ | ⟨text, last⟩
      · obtain ⟨text, rfl⟩ := step_file step
        exact .inr ⟨text, rfl⟩
      · exact .inr ⟨text, by rw [List.getLast?_cons, last, Option.getD_some]⟩

theorem resolve_file {path : String} {content : ByteArray}
    (found : table.resolve path = .ok (.file content)) :
    ∃ text, (Path.segments path).getLast? = some (.name text) := by
  rw [resolve] at found
  cases fault : pathFault? path with
  | some fault' =>
    rw [fault] at found
    cases found
  | none =>
    rw [fault] at found
    rcases walk_file found with ⟨-, start⟩ | last
    · cases start
    · exact last

end FileTable

theorem Path.fileName?_of_getLast? {path text : String}
    (last : (segments path).getLast? = some (.name text)) : fileName? path = some text := by
  obtain ⟨init, split⟩ := List.getLast?_eq_some_iff.1 last
  rw [fileName?, parts, split, List.filterMap_append, ← List.append_assoc]
  simp [Part.ofSegment?]

theorem FileTable.fileName?_of_read {table : FileTable} {path source : String}
    (read : table.read path = .ok source) : ∃ name, Path.fileName? path = some name := by
  rw [FileTable.read] at read
  cases found : table.resolve path with
  | error fault =>
    rw [found] at read
    cases read
  | ok place =>
    rw [found] at read
    cases place with
    | file content =>
      obtain ⟨text, last⟩ := resolve_file found
      exact ⟨text, Path.fileName?_of_getLast? last⟩
    | unreadable reason => cases read
    | directory way => cases read

namespace FileTable

def namesOn (segments : List Path.Segment) : List String :=
  segments.filterMap fun
    | .name text => some text
    | _ => none

theorem follow_of_level {segments : List Path.Segment} (level : .up ∉ segments) (trail : Trail) :
    trail.follow segments = ⟨trail.way ++ namesOn segments, trail.left⟩ := by
  induction segments generalizing trail with
  | nil => simp [Trail.follow, namesOn]
  | cons segment rest ih =>
    rw [List.mem_cons, not_or] at level
    cases segment with
    | stay => rw [Trail.follow, ih level.2]; rfl
    | up => exact absurd rfl level.1
    | name text => simp [Trail.follow, ih level.2, namesOn]

theorem find?_self (cwd way : List String) (entry : FileEntry) :
    find? ⟨cwd, [(way, entry)]⟩ way = some entry := by
  rw [find?, List.lookup_cons_self]

theorem find?_above (cwd way : List String) {below : List String} (further : below ≠ [])
    (entry : FileEntry) : find? ⟨cwd, [(way ++ below, entry)]⟩ way = some .directory := by
  have apart : (way == way ++ below) = false := by simpa using further.symm
  have above : way.isPrefixOf (way ++ below) :=
    List.isPrefixOf_iff_prefix.2 (List.prefix_append way below)
  simp [find?, List.lookup_cons, apart, above]

theorem walk_to_file {cwd way : List String} {content : ByteArray}
    {segments : List Path.Segment} {text : String} (level : .up ∉ segments)
    (fits : ∀ name, .name name ∈ segments → name.utf8ByteSize ≤ maxName)
    (last : segments.getLast? = some (.name text)) :
    walk ⟨cwd, [(way ++ namesOn segments, .file content)]⟩ (.directory way) segments =
      .ok (.file content) := by
  induction segments generalizing way with
  | nil => cases last
  | cons segment rest ih =>
    rw [List.mem_cons, not_or] at level
    have others : ∀ name, .name name ∈ rest → name.utf8ByteSize ≤ maxName := fun name inside =>
      fits name (List.mem_cons_of_mem _ inside)
    rw [walk]
    cases segment with
    | up => exact absurd rfl level.1
    | stay =>
      cases rest with
      | nil => cases last
      | cons next rest => exact ih level.2 others last
    | name here =>
      have short : ¬ maxName < here.utf8ByteSize := Nat.not_lt.2 (fits here List.mem_cons_self)
      have ahead : way ++ namesOn (.name here :: rest) = way ++ [here] ++ namesOn rest :=
        List.append_cons way here (namesOn rest)
      rw [step, enter, if_neg short, ahead]
      cases rest with
      | nil =>
        rw [show namesOn [] = [] from rfl, List.append_nil, find?_self]
        rfl
      | cons next rest =>
        have below : namesOn (next :: rest) ≠ [] := List.ne_nil_of_mem
          (List.mem_filterMap.2 ⟨.name text, List.mem_of_getLast? last, rfl⟩)
        rw [find?_above cwd _ below]
        exact ih level.2 others last

/-- A file put at a path that never leads up and ends with a name can be read there. -/
theorem read_put {path text : String} (sound : pathFault? path = none)
    (level : .up ∉ Path.segments path)
    (fits : ∀ name, .name name ∈ Path.segments path → name.utf8ByteSize ≤ maxName)
    (last : (Path.segments path).getLast? = some (.name text)) (cwd : List String)
    (content : ByteArray) :
    (put ⟨cwd, []⟩ path (.file content)).read path = decodeUtf8 content := by
  have only : put ⟨cwd, []⟩ path (.file content) =
      ⟨cwd, [(origin ⟨cwd, []⟩ path ++ namesOn (Path.segments path), .file content)]⟩ := by
    rw [put, trail, follow_of_level level]
    rfl
  have resolved : (put ⟨cwd, []⟩ path (.file content)).resolve path = .ok (.file content) := by
    rw [only, resolve, sound]
    exact walk_to_file level fits last
  rw [read, resolved]
  rfl

example : (ofList [("/tmp/x.txt", .file "1".toUTF8)]).read "../tmp/./x.txt" = .ok "1" := by
  decide +kernel

end FileTable

namespace CommandLine

theorem run_of_input {args : List String} {env : Option String} {config : Config} {path : String}
    (resolved : Config.resolve args env = .ok config) (input : config.input = some path)
    (files : FileTable) (stdin : ByteArray) :
    run args env files stdin = ofFile path (files.read path) := by
  rw [run, program, resolved]
  simp only [input]
  rw [Record.run_bind (Record.readText_recorder _ _ _),
    Record.run_bind (Record.print_recorder _ _ _),
    Record.run_bind (Record.printError_recorder _ _ _)]
  change Outcome.mk _ ("" ++ _) ("" ++ _) = _
  rw [String.empty_append, String.empty_append]

/-- A file named on the command line fails as the read-loop's script does, prints the same
program, or prints the excerpts that the script's report lists. -/
theorem run_agrees_evalFile {args : List String} {env : Option String} {config : Config}
    {path : String} (resolved : Config.resolve args env = .ok config)
    (input : config.input = some path) (files : FileTable) (stdin : ByteArray) :
    (∀ failure, (evalFile files path).1 = .error failure →
      run args env files stdin = ⟨1, "", failure.message ++ "\n"⟩) ∧
    ∀ text, (evalFile files path).1 = .ok text →
      ∃ source name faults, files.read path = .ok source ∧ Path.fileName? path = some name ∧
        (readProgram source (some name)).2.errors.toList = faults ∧
        (faults = [] → run args env files stdin = ⟨0, text ++ "\n", ""⟩) ∧
        (faults ≠ [] →
          text = "Parser errors:" ++ String.join (faults.map fun d => "\n" ++ d.excerpt source) ∧
          run args env files stdin =
            ⟨1, "", String.join (faults.map fun d => d.excerpt source ++ "\n\n")⟩) := by
  rw [run_of_input resolved input, evalFile]
  cases read : files.read path with
  | error reason =>
    refine ⟨fun failure same => ?_, nofun⟩
    obtain rfl : ⟨path, reason⟩ = failure := Except.error.inj same
    rfl
  | ok source =>
    obtain ⟨name, named⟩ := FileTable.fileName?_of_read read
    have ran : ofFile path (.ok source) = ofSource source (some name) := by rw [ofFile, named]
    refine ⟨nofun, fun text same => ⟨source, name, _, rfl, named, rfl, ?_⟩⟩
    obtain rfl : reportVerdict source (parse source (some name)) = text := by
      rw [← Except.ok.inj same, named]
      rfl
    rw [ran, ofSource]
    refine ⟨fun sound => ?_, fun faulty => ?_⟩
    · rw [parse_of_isEmpty (Array.isEmpty_iff.2 (Array.toList_eq_nil_iff.1 sound))]
      rfl
    · rw [parse_of_errors faulty]
      exact ⟨rfl, rfl⟩

theorem run_agrees_evalFile_faulty :
    run ["a/c.txt"] none (FileTable.ofList [("a/b.txt", .file "var 1".toUTF8)]) ByteArray.empty =
        ⟨1, "", "Could not read a/c.txt: No such file or directory (os error 2)\n"⟩ ∧
      (run ["a//b.txt"] none (FileTable.ofList [("a/b.txt", .file "var 1".toUTF8)])
        ByteArray.empty).stderr =
        "Error: Expected token IDENT, got INT instead\n-> b.txt\n  |\n1 | var 1\n  | ----^\n\n"
    := by
  have missing : (evalFile (FileTable.ofList [("a/b.txt", .file "var 1".toUTF8)]) "a/c.txt").1 =
      .error ⟨"a/c.txt", .notFound⟩ := by decide +kernel
  have answered : (evalFile (FileTable.ofList [("a/b.txt", .file "var 1".toUTF8)]) "a//b.txt").1 =
      .ok ("Parser errors:\nError: Expected token IDENT, got INT instead\n-> b.txt\n  |\n" ++
        "1 | var 1\n  | ----^") := by decide +kernel
  have content : (FileTable.ofList [("a/b.txt", .file "var 1".toUTF8)]).read "a//b.txt" =
      .ok "var 1" := by decide +kernel
  have resolved : Config.resolve ["a//b.txt"] none =
      .ok ⟨"scripts", "txt", false, some "a//b.txt"⟩ := by decide +kernel
  refine ⟨(run_agrees_evalFile rfl rfl _ _).1 _ missing, ?_⟩
  obtain ⟨source, name, _, read, named, rfl, -, faulty⟩ :=
    (run_agrees_evalFile resolved rfl _ ByteArray.empty).2 _ answered
  obtain rfl : "var 1" = source := Except.ok.inj (content.symm.trans read)
  obtain rfl : "b.txt" = name :=
    Option.some.inj ((by decide +kernel : some "b.txt" = Path.fileName? "a//b.txt").trans named)
  rw [(faulty (by decide +kernel)).2]
  decide +kernel

end CommandLine

end ScriptFront
