import SchemaModel.CommandLine.Run
import SchemaModel.Proofs.FileWriting
import SchemaModel.Proofs.Scopes

/-! # Batches

    What a run over several sources leaves behind.

    * **Gives**: a source can be read and compiles.
    * **Blocked**: the options are malformed, or there is a source that does not give anything.
    * **Yields**: the options are in order, and every source gives a compilation.
    * **All or nothing**: a blocked batch leaves nothing but its exit code and its notices, and any other
      one leaves the whole text in one place.
    * **Independence**: a batch is put together from the runs over its sources alone. -/

namespace SchemaModel.CommandLine

/-! ## Outcomes -/

section

variable (read : String → Except FileFault String) (source : SourceOptions)

/-- **Gives**: the source at a path can be read, and compiles. -/
def Gives (options : Options) (path : String) (compilation : Compilation) : Prop :=
  ∃ text, read path = .ok text ∧
    compile options (source.input.encoding path) text = .ok compilation

/-- **Blocked**: the options or one of the sources stand in the way of a batch. -/
inductive Blocked (files : List String) : Prop
  /-- The scalar overrides cannot be read. -/
  | options {text : String} {failure : Failure} :
      source.scalars = some text → Overrides.read text = .error failure → Blocked files
  /-- A source cannot be read. -/
  | reading {path : String} {fault : FileFault} :
      path ∈ files → read path = .error fault → Blocked files
  /-- A source does not compile. -/
  | compiling {options : Options} {path text : String} {failure : Failure} :
      source.compilerOptions = .ok options → path ∈ files → read path = .ok text →
      compile options (source.input.encoding path) text = .error failure → Blocked files

/-- **Yields**: the options are in order, and the sources give the compilations that are listed with
    their paths. -/
structure Yields (files : List String) (results : List (String × Compilation)) : Prop where
  options : ∃ options, source.compilerOptions = .ok options ∧
    ∀ result ∈ results, Gives read source options result.1 result.2
  paths : results.map Prod.fst = files

/-- A source that gives a compilation, as it stands in its batch. -/
def Compiled.ofResult (result : String × Compilation) : Compiled := ⟨result.1, .ok result.2⟩

/-- The model of a source under the path of that. -/
def resultModel (result : String × Compilation) : String × Model := (result.1, result.2.model)

end

section

variable {read : String → Except FileFault String} {source : SourceOptions} {options : Options}
  {files : List String} {results : List (String × Compilation)}

/-- The options are out of order only if the overrides are. -/
theorem compilerOptions_cases (source : SourceOptions) :
    (∃ options, source.compilerOptions = .ok options) ∨
      ∃ text failure, source.scalars = some text ∧ Overrides.read text = .error failure ∧
        source.compilerOptions = .error failure := by
  obtain ⟨input, scalars, fallback, strict⟩ := source
  cases scalars with
  | none => exact .inl ⟨_, rfl⟩
  | some text =>
    cases hread : Overrides.read text with
    | ok overrides =>
      simp [SourceOptions.compilerOptions, hread, bind, Except.bind, pure, Except.pure]
    | error failure =>
      refine .inr ⟨text, failure, rfl, hread, ?_⟩
      simp [SourceOptions.compilerOptions, hread, bind, Except.bind]

theorem compileFiles_cons (path : String) (paths : List String) :
    compileFiles read options source.input (path :: paths) = (do
      let text ← read path
      let batch ← compileFiles read options source.input paths
      return ⟨path, compile options (source.input.encoding path) text⟩ :: batch) := by
  simp [compileFiles, List.mapM_cons]

/-- What is compiled is read, and stands under its path. -/
theorem exists_of_mem_compileFiles {batch : List Compiled}
    (h : compileFiles read options source.input files = .ok batch) {compiled : Compiled}
    (hcompiled : compiled ∈ batch) :
    compiled.path ∈ files ∧ ∃ text, read compiled.path = .ok text ∧
      compile options (source.input.encoding compiled.path) text = compiled.result := by
  induction files generalizing batch with
  | nil =>
    obtain rfl : [] = batch := pure_eq_ok.mp h
    cases hcompiled
  | cons path paths ih =>
    simp only [compileFiles_cons, bind_eq_ok, pure_eq_ok] at h
    obtain ⟨text, hread, others, hothers, rfl⟩ := h
    rcases List.mem_cons.mp hcompiled with rfl | hmem
    · exact ⟨List.mem_cons_self, text, hread, rfl⟩
    · obtain ⟨hpath, hresult⟩ := ih hothers hmem
      exact ⟨List.mem_cons_of_mem _ hpath, hresult⟩

/-- The sources of a batch are compiled in their order. -/
theorem paths_of_compileFiles {batch : List Compiled}
    (h : compileFiles read options source.input files = .ok batch) :
    batch.map Compiled.path = files := by
  induction files generalizing batch with
  | nil =>
    obtain rfl : [] = batch := pure_eq_ok.mp h
    rfl
  | cons path paths ih =>
    simp only [compileFiles_cons, bind_eq_ok, pure_eq_ok] at h
    obtain ⟨text, -, others, hothers, rfl⟩ := h
    rw [List.map_cons, ih hothers]

/-- Only a source that cannot be read ends the compilation of a batch. -/
theorem exists_of_compileFiles_error {fault : FileFault}
    (h : compileFiles read options source.input files = .error fault) :
    ∃ path ∈ files, read path = .error fault := by
  induction files with
  | nil => cases h
  | cons path paths ih =>
    rw [compileFiles_cons] at h
    cases hread : read path with
    | error other =>
      obtain rfl : other = fault := by simpa [hread, bind, Except.bind] using h
      exact ⟨path, List.mem_cons_self, hread⟩
    | ok text =>
      cases hothers : compileFiles read options source.input paths with
      | error other =>
        obtain rfl : other = fault := by simpa [hread, hothers, bind, Except.bind] using h
        obtain ⟨later, hlater, hfault⟩ := ih hothers
        exact ⟨later, List.mem_cons_of_mem _ hlater, hfault⟩
      | ok others =>
        rw [hread, hothers] at h
        cases h

/-- Sources that all give a compilation are compiled. -/
theorem compileFiles_of_gives
    (h : ∀ result ∈ results, Gives read source options result.1 result.2) :
    compileFiles read options source.input (results.map Prod.fst) =
      .ok (results.map Compiled.ofResult) := by
  induction results with
  | nil => rfl
  | cons result results ih =>
    obtain ⟨text, hread, hcompile⟩ := h result List.mem_cons_self
    have hothers := ih fun other hother => h other (List.mem_cons_of_mem _ hother)
    simp only [List.map_cons, compileFiles_cons, hread, hothers]
    show Except.ok (_ :: _) = _
    rw [hcompile]
    rfl

/-- A batch in which every source compiles. -/
theorem exists_results {batch : List Compiled}
    (h : ¬(batch.filterMap Compiled.model?).length < batch.length) :
    ∃ results : List (String × Compilation), batch = results.map Compiled.ofResult := by
  induction batch with
  | nil => exact ⟨[], rfl⟩
  | cons compiled batch ih =>
    simp only [List.length_filterMap_lt_length_iff_exists, not_exists, List.mem_cons] at h ih
    obtain ⟨results, rfl⟩ := ih fun other hother => h other (.inr hother)
    obtain ⟨path, result⟩ := compiled
    cases hresult : result with
    | error failure => exact absurd (by rw [hresult]; rfl) (h ⟨path, result⟩ (.inl rfl))
    | ok compilation => exact ⟨(path, compilation) :: results, rfl⟩

/-! ## Blocked or Not -/

/-- A batch in which every source compiles yields what it holds. -/
theorem yields_of_compileFiles {batch : List Compiled}
    (hoptions : source.compilerOptions = .ok options)
    (hbatch : compileFiles read options source.input files = .ok batch)
    (h : ¬(batch.filterMap Compiled.model?).length < batch.length) :
    ∃ results, Yields read source files results := by
  obtain ⟨results, rfl⟩ := exists_results h
  refine ⟨results, ⟨options, hoptions, ?_⟩, ?_⟩
  · intro result hresult
    have hmem := List.mem_map_of_mem (f := Compiled.ofResult) hresult
    obtain ⟨-, text, hread, hcompile⟩ := exists_of_mem_compileFiles hbatch hmem
    exact ⟨text, hread, hcompile⟩
  · rw [← paths_of_compileFiles hbatch, List.map_map]
    rfl

/-- A batch is blocked or yields something. -/
theorem blocked_or_yields (read : String → Except FileFault String) (source : SourceOptions)
    (files : List String) : Blocked read source files ∨ ∃ results, Yields read source files results := by
  -- the options come first, then all sources are read, and only then is anything counted
  rcases compilerOptions_cases source with ⟨options, hoptions⟩ | ⟨text, failure, htext, hfailure, -⟩
  · cases hbatch : compileFiles read options source.input files with
    | error fault =>
      obtain ⟨path, hpath, hfault⟩ := exists_of_compileFiles_error hbatch
      exact .inl (.reading hpath hfault)
    | ok batch =>
      by_cases hshort : (batch.filterMap Compiled.model?).length < batch.length
      · obtain ⟨compiled, hcompiled, hnone⟩ := List.length_filterMap_lt_length_iff_exists.mp hshort
        obtain ⟨hpath, text, hread, hcompile⟩ := exists_of_mem_compileFiles hbatch hcompiled
        cases hresult : compiled.result with
        | error failure => exact .inl (.compiling hoptions hpath hread (hcompile.trans hresult))
        | ok compilation => simp [Compiled.model?, hresult, Except.toOption] at hnone
      · exact .inr (yields_of_compileFiles hoptions hbatch hshort)
  · exact .inl (.options htext hfailure)

/-- What yields something is not blocked. -/
theorem Yields.not_blocked (h : Yields read source files results) : ¬Blocked read source files := by
  obtain ⟨⟨options, hoptions, hgives⟩, rfl⟩ := h
  have hgiven : ∀ path ∈ results.map Prod.fst, ∃ compilation,
      Gives read source options path compilation := by
    intro path hpath
    obtain ⟨result, hresult, rfl⟩ := List.mem_map.mp hpath
    exact ⟨result.2, hgives result hresult⟩
  intro hblocked
  -- options, texts and results are unique, so that none of them is both a failure and none
  cases hblocked with
  | options htext hfailure =>
    simp [SourceOptions.compilerOptions, htext, hfailure, bind, Except.bind] at hoptions
  | reading hpath hfault =>
    obtain ⟨compilation, text, hread, -⟩ := hgiven _ hpath
    rw [hfault] at hread
    cases hread
  | compiling hother hpath hread hfailure =>
    obtain ⟨compilation, text, hread', hcompile⟩ := hgiven _ hpath
    obtain rfl := Except.ok.inj (hother.symm.trans hoptions)
    obtain rfl := Except.ok.inj (hread.symm.trans hread')
    rw [hfailure] at hcompile
    cases hcompile

theorem not_blocked_iff :
    ¬Blocked read source files ↔ ∃ results, Yields read source files results := by
  constructor
  · intro h
    exact (blocked_or_yields read source files).resolve_left h
  · intro h
    obtain ⟨results, hyields⟩ := h
    exact hyields.not_blocked

/-- The report of a batch that yields something is made of its results. -/
theorem Yields.report_eq (h : Yields read source files results) (report : List Compiled → Report) :
    runBatch read source files report = report (results.map Compiled.ofResult) := by
  obtain ⟨⟨options, hoptions, hgives⟩, rfl⟩ := h
  simp only [runBatch, hoptions, compileFiles_of_gives hgives]

/-- The report of a blocked batch is about the options, about a file, or made of results of which one
    is a failure. -/
theorem Blocked.report_cases (h : Blocked read source files) (report : List Compiled → Report) :
    (∃ failure, runBatch read source files report =
        ⟨[.invalidOptions failure], "", none, .refusal⟩) ∨
      (∃ fault, runBatch read source files report = .broken [] fault) ∨
      ∃ batch, runBatch read source files report = report batch ∧
        (batch.filterMap Compiled.model?).length < batch.length := by
  rcases compilerOptions_cases source with ⟨options, hoptions⟩ | ⟨text, failure, -, -, hoptions⟩
  · simp only [runBatch, hoptions]
    cases hbatch : compileFiles read options source.input files with
    | error fault => exact .inr (.inl ⟨fault, rfl⟩)
    | ok batch =>
      -- if all of the batch had a model, it would yield something
      refine .inr (.inr ⟨batch, rfl, ?_⟩)
      by_contra hshort
      obtain ⟨results, hyields⟩ := yields_of_compileFiles hoptions hbatch hshort
      exact hyields.not_blocked h
  · exact .inl ⟨failure, by simp only [runBatch, hoptions]⟩

/-! ## Reports -/

theorem filterMap_model?_ofResult (results : List (String × Compilation)) :
    (results.map Compiled.ofResult).filterMap Compiled.model? = results.map resultModel := by
  rw [List.filterMap_map]
  exact congrFun List.filterMap_eq_map' results

theorem not_short_ofResult (results : List (String × Compilation)) :
    ¬((results.map Compiled.ofResult).filterMap Compiled.model?).length <
      (results.map Compiled.ofResult).length := by
  rw [filterMap_model?_ofResult, List.length_map, List.length_map]
  exact Nat.lt_irrefl _

/-- The report of a compilation of sources that all compile. -/
theorem compileReport_ofResult (verbosity : Verbosity) (format : OutputFormat)
    (output : Option String) (results : List (String × Compilation)) :
    compileReport verbosity format output (results.map Compiled.ofResult) =
      { notices := (results.map Compiled.ofResult).flatMap (Compiled.notices verbosity)
        output := match output with
          | none => format.render (results.map resultModel)
          | some path => if verbosity.quiet then "" else "Wrote " ++ path ++ "\n"
        file := output.map fun path => (path, format.render (results.map resultModel))
        ending := .success } := by
  rw [compileReport, if_neg (not_short_ofResult results), filterMap_model?_ofResult]
  cases output <;> rfl

theorem exitCode_checkReport_ofResult (verbosity : Verbosity)
    (results : List (String × Compilation)) :
    (checkReport verbosity (results.map Compiled.ofResult)).exitCode = 0 := by
  rw [checkReport, if_neg (not_short_ofResult results)]
  rfl

/-- A blocked batch is not compiled. -/
theorem Blocked.withholds (h : Blocked read source files) (verbosity : Verbosity)
    (format : OutputFormat) (output : Option String) :
    (runBatch read source files (compileReport verbosity format output)).exitCode = 1 ∧
      (runBatch read source files (compileReport verbosity format output)).output = "" ∧
      (runBatch read source files (compileReport verbosity format output)).file = none := by
  rcases h.report_cases (compileReport verbosity format output) with
    ⟨failure, hrun⟩ | ⟨fault, hrun⟩ | ⟨batch, hrun, hshort⟩
  · rw [hrun]
    exact ⟨rfl, rfl, rfl⟩
  · rw [hrun]
    exact ⟨rfl, rfl, rfl⟩
  · rw [hrun, compileReport, if_pos hshort]
    exact ⟨rfl, rfl, rfl⟩

/-- A blocked batch does not pass a check. -/
theorem Blocked.fails_check (h : Blocked read source files) (verbosity : Verbosity) :
    (runBatch read source files (checkReport verbosity)).exitCode = 1 := by
  rcases h.report_cases (checkReport verbosity) with
    ⟨failure, hrun⟩ | ⟨fault, hrun⟩ | ⟨batch, hrun, hshort⟩
  · rw [hrun]
    rfl
  · rw [hrun]
    rfl
  · rw [hrun, checkReport, if_pos hshort]
    rfl

/-- A compilation succeeds exactly if its batch yields something. -/
theorem exitCode_compileReport_iff (verbosity : Verbosity) (format : OutputFormat)
    (output : Option String) :
    (runBatch read source files (compileReport verbosity format output)).exitCode = 0 ↔
      ∃ results, Yields read source files results := by
  rcases blocked_or_yields read source files with hblocked | ⟨results, hyields⟩
  · rw [(hblocked.withholds verbosity format output).1, ← not_blocked_iff]
    simp [hblocked]
  · rw [hyields.report_eq, compileReport_ofResult]
    exact iff_of_true rfl ⟨results, hyields⟩

/-- So does a check. -/
theorem exitCode_checkReport_iff (verbosity : Verbosity) :
    (runBatch read source files (checkReport verbosity)).exitCode = 0 ↔
      ∃ results, Yields read source files results := by
  rcases blocked_or_yields read source files with hblocked | ⟨results, hyields⟩
  · rw [hblocked.fails_check verbosity, ← not_blocked_iff]
    simp [hblocked]
  · rw [hyields.report_eq, exitCode_checkReport_ofResult]
    exact iff_of_true rfl ⟨results, hyields⟩

/-! ## Verbosity -/

/-- How much is said about a run changes neither its file nor its ending. -/
theorem Invocation.run_verbosity (read : String → Except FileFault String) (command : Command)
    (verbose quiet verbose' quiet' : Bool) :
    (Invocation.run read ⟨verbose, quiet, command⟩).file =
        (Invocation.run read ⟨verbose', quiet', command⟩).file ∧
      (Invocation.run read ⟨verbose, quiet, command⟩).ending =
        (Invocation.run read ⟨verbose', quiet', command⟩).ending := by
  cases command with
  | version => exact ⟨rfl, rfl⟩
  | compile files source format output =>
    simp only [Invocation.run, runBatch]
    split
    · exact ⟨rfl, rfl⟩
    · split
      · exact ⟨rfl, rfl⟩
      · simp only [compileReport]
        split
        · exact ⟨rfl, rfl⟩
        · cases output <;> exact ⟨rfl, rfl⟩
  | check files source =>
    simp only [Invocation.run, runBatch]
    split
    · exact ⟨rfl, rfl⟩
    · split
      · exact ⟨rfl, rfl⟩
      · simp only [checkReport]
        split <;> exact ⟨rfl, rfl⟩

/-- Nor does it change what a run does to the files, or its exit code. -/
theorem Invocation.runIn_verbosity (system : FileSystem) (command : Command)
    (verbose quiet verbose' quiet' : Bool) :
    (Invocation.runIn system ⟨verbose, quiet, command⟩).1.exitCode =
        (Invocation.runIn system ⟨verbose', quiet', command⟩).1.exitCode ∧
      (Invocation.runIn system ⟨verbose, quiet, command⟩).2 =
        (Invocation.runIn system ⟨verbose', quiet', command⟩).2 := by
  obtain ⟨hfile, hending⟩ :=
    Invocation.run_verbosity system.readText command verbose quiet verbose' quiet'
  simp only [Invocation.runIn, hfile]
  split
  · exact ⟨by simp only [Report.exitCode, hending], rfl⟩
  · split
    · exact ⟨by simp only [Report.exitCode, hending], rfl⟩
    · exact ⟨rfl, rfl⟩

/-! ## Texts -/

theorem bracketed_begins (depth : Nat) (opening closing : String) (lines : List String) :
    ∃ rest, (Json.bracketed depth opening closing lines).toList = opening.toList ++ rest := by
  rw [Json.bracketed]
  split
  · exact ⟨_, String.toList_append⟩
  · simp only [String.toList_append, List.append_assoc]
    exact ⟨_, rfl⟩

theorem summary_begins (model : Model) : ∃ rest, model.summary.toList = 'q' :: rest := by
  simp only [Model.summary, Model.summaryLines, ObjectType.lines, memberLines, List.cons_append,
    List.map_cons, String.toList_join, List.flatMap_cons, String.toList_append]
  exact ⟨_, rfl⟩

/-- The rendered text of models does not begin like the line about a file. -/
theorem render_begins (format : OutputFormat) {models : List (String × Model)}
    (h : format.render models ≠ "") :
    ∃ c rest, (format.render models).toList = c :: rest ∧ c ≠ 'W' := by
  cases format with
  | json =>
    -- one model is an object by itself, several are one by their paths
    have hobject : ∃ members, renderJson models = (Json.object members).pretty ++ "\n" := by
      match models with
      | [(_, model)] => exact ⟨_, rfl⟩
      | [] | _ :: _ :: _ => exact ⟨_, rfl⟩
    obtain ⟨members, hmembers⟩ := hobject
    show ∃ c rest, (renderJson models).toList = c :: rest ∧ c ≠ 'W'
    obtain ⟨rest, hrest⟩ := bracketed_begins 0 "\x7b" "\x7d" (Json.prettyMembers 1 members)
    rw [hmembers, Json.pretty, Json.prettyAt, String.toList_append, hrest]
    exact ⟨'\x7b', rest ++ ['\n'], rfl, by decide⟩
  | summary =>
    match models, h with
    | [], h => exact absurd rfl h
    | [(path, model)], _ =>
      obtain ⟨rest, hrest⟩ := summary_begins model
      exact ⟨'q', rest, hrest, by decide⟩
    | (path, model) :: other :: models, _ =>
      have hhead : ∃ rest, (renderSummaries ((path, model) :: other :: models)).toList =
          '#' :: rest := by
        simp only [renderSummaries, List.map_cons, String.toList_intercalate, String.toList_append,
          List.intercalate_cons_cons]
        exact ⟨_, rfl⟩
      obtain ⟨rest, hrest⟩ := hhead
      exact ⟨'#', rest, hrest, by decide⟩

/-- The line about a written file is not the text in it. -/
theorem announcement_ne_render {format : OutputFormat} {models : List (String × Model)}
    (h : format.render models ≠ "") (quiet : Bool) (path : String) :
    (if quiet then "" else "Wrote " ++ path ++ "\n") ≠ format.render models := by
  obtain ⟨c, rest, hrender, hc⟩ := render_begins format h
  intro heq
  rw [← heq] at hrender
  cases quiet with
  | true => cases hrender
  | false =>
    obtain ⟨rfl, -⟩ : 'W' = c ∧ _ := by simpa using hrender
    exact hc rfl

/-! ## All or Nothing -/

/-- **Delivered**: a run succeeds, and leaves a text in exactly one place. Without a path that is the
    standard output, and no file is touched. With a path it is the file there, which holds the text
    afterwards, and the standard output has at most a line about it. No other file is touched. -/
def Delivered (system : FileSystem) (text : String) (quiet : Bool) (output : Option String)
    (run : Report × FileSystem) : Prop :=
  run.1.exitCode = 0 ∧
    match output with
    | none => run.1.output = text ∧ run.2 = system
    | some path =>
      run.1.output = (if quiet then "" else "Wrote " ++ path ++ "\n") ∧
        (text ≠ "" → run.1.output ≠ text) ∧ system.Written run.2 path text

/-- **All or nothing** for the sources at the given paths of a system. -/
structure AllOrNothing (system : FileSystem) (source : SourceOptions) (files : List String) :
    Prop where
  /-- If anything stands in the way of one source, then no text and no file comes of any. -/
  withheld : Blocked system.readText source files → ∀ verbose quiet format output,
    let run := Invocation.runIn system ⟨verbose, quiet, .compile files source format output⟩
    run.1.exitCode = 1 ∧ run.1.output = "" ∧ run.2 = system
  /-- Or else every source has a model, and the text of all of them is delivered if its file can be
      written. -/
  delivered : ¬Blocked system.readText source files →
    ∃ results, Yields system.readText source files results ∧
      ∀ verbose quiet format output,
        let text := OutputFormat.render format (results.map resultModel)
        (∀ path, output = some path → ∃ written, system.write path text.toUTF8 = .ok written) →
          Delivered system text quiet output
            (Invocation.runIn system ⟨verbose, quiet, .compile files source format output⟩)
  /-- A check says whether there would be output. -/
  checked : ∀ verbose quiet verbose' quiet' format,
    (Invocation.runIn system ⟨verbose, quiet, .check files source⟩).1.exitCode = 0 ↔
      (Invocation.runIn system
        ⟨verbose', quiet', .compile files source format none⟩).1.exitCode = 0
  /-- How much is said changes neither the exit code nor the file that is written. -/
  steady : ∀ command verbose quiet verbose' quiet',
    let run := Invocation.runIn system ⟨verbose, quiet, command⟩
    let run' := Invocation.runIn system ⟨verbose', quiet', command⟩
    run.1.exitCode = run'.1.exitCode ∧ run.2 = run'.2

/-- A run without a file leaves the system alone. -/
theorem runIn_of_file_eq_none {system : FileSystem} {invocation : Invocation}
    (h : (invocation.run system.readText).file = none) :
    invocation.runIn system = (invocation.run system.readText, system) := by
  simp only [Invocation.runIn, h]

/-- A batch has a file only if its report asks for one. -/
theorem file_runBatch {report : List Compiled → Report} (h : ∀ batch, (report batch).file = none) :
    (runBatch read source files report).file = none := by
  rw [runBatch]
  split
  · rfl
  · split
    · rfl
    · exact h _

theorem file_compileReport (verbosity : Verbosity) (format : OutputFormat)
    (batch : List Compiled) : (compileReport verbosity format none batch).file = none := by
  rw [compileReport]
  split <;> rfl

theorem file_checkReport (verbosity : Verbosity) (batch : List Compiled) :
    (checkReport verbosity batch).file = none := by
  rw [checkReport]
  split <;> rfl

end

/-- **All or nothing**: whatever files there are, and whichever of them are named in which order, the
    text of a batch is there as a whole or not at all. -/
theorem batch_all_or_nothing (system : FileSystem) (source : SourceOptions)
    (files : List String) : AllOrNothing system source files where
  withheld := by
    intro hblocked verbose quiet format output run
    obtain ⟨hexit, houtput, hfile⟩ := hblocked.withholds ⟨verbose, quiet⟩ format output
    have hrun : run = _ := runIn_of_file_eq_none hfile
    rw [hrun]
    exact ⟨hexit, houtput, rfl⟩
  delivered := by
    intro hfree
    obtain ⟨results, hyields⟩ := not_blocked_iff.mp hfree
    refine ⟨results, hyields, ?_⟩
    intro verbose quiet format output text hwritable
    simp only [Invocation.runIn, Invocation.run, hyields.report_eq, compileReport_ofResult]
    cases output with
    | none => exact ⟨rfl, rfl, rfl⟩
    | some path =>
      obtain ⟨written, hwrite⟩ := hwritable path rfl
      simp only [text] at hwrite
      simp only [Option.map_some, hwrite]
      refine ⟨rfl, rfl, ?_, FileSystem.written_of_write hwrite⟩
      intro htext
      exact announcement_ne_render htext quiet path
  checked := by
    intro verbose quiet verbose' quiet' format
    have hcheck : (Invocation.run system.readText
        ⟨verbose, quiet, .check files source⟩).file = none :=
      file_runBatch (file_checkReport ⟨verbose, quiet⟩)
    have hcompile : (Invocation.run system.readText
        ⟨verbose', quiet', .compile files source format none⟩).file = none :=
      file_runBatch (file_compileReport ⟨verbose', quiet'⟩ format)
    rw [runIn_of_file_eq_none hcheck, runIn_of_file_eq_none hcompile]
    exact (exitCode_checkReport_iff _).trans (exitCode_compileReport_iff _ _ _).symm
  steady := by
    intro command verbose quiet verbose' quiet'
    exact Invocation.runIn_verbosity system command verbose quiet verbose' quiet'

/-- Two sources in a directory, of which the second one ends too early. -/
def shelf : FileSystem :=
  .ofFiles ["shelf"]
    [("a.graphql", "type Query \x7b a: Int \x7d".toUTF8), ("b.graphql", "type Query \x7b".toUTF8)]

/-- The options that are in force if nothing is said. -/
def plainOptions : SourceOptions := ⟨.auto, none, "String", false⟩

theorem shelf_blocked : Blocked shelf.readText plainOptions ["a.graphql", "b.graphql"] := by
  by_contra hfree
  have hexit := (exitCode_compileReport_iff ⟨false, false⟩ .json none).mpr (not_blocked_iff.mp hfree)
  have hfailure : (runBatch shelf.readText plainOptions ["a.graphql", "b.graphql"]
      (compileReport ⟨false, false⟩ .json none)).exitCode = 1 := by decide +kernel
  rw [hfailure] at hexit
  exact absurd hexit (by decide)

theorem shelf_not_blocked : ¬Blocked shelf.readText plainOptions ["a.graphql"] := by
  refine not_blocked_iff.mpr ((exitCode_compileReport_iff ⟨false, false⟩ .json none).mp ?_)
  decide +kernel

/-- A run over the first source alone, with its summary in a file. -/
def shelfRun (path : String) : Report × FileSystem :=
  Invocation.runIn shelf ⟨false, false, .compile ["a.graphql"] plainOptions .summary (some path)⟩

/-- The summary of the first source. -/
def shelfSummary : String := "query Query\n  a: Int\nmutation Mutation\n"

/-- The second source keeps the first one from being written. Alone, that one is written, be it next to
    its source or above it, and is then found there. -/
theorem batch_all_or_nothing_shelf :
    Blocked shelf.readText plainOptions ["a.graphql", "b.graphql"] ∧
      (Invocation.runIn shelf ⟨false, false, .compile ["a.graphql", "b.graphql"] plainOptions .summary
        (some "out.txt")⟩).2 = shelf ∧
      ¬Blocked shelf.readText plainOptions ["a.graphql"] ∧
      ∀ path ∈ ["out.txt", "../out.txt"],
        Delivered shelf shelfSummary false (some path) (shelfRun path) ∧
          (shelfRun path).2.readText path = .ok shelfSummary ∧
          (shelfRun path).2.readText "a.graphql" = shelf.readText "a.graphql" := by
  obtain ⟨results, -, hdelivered⟩ :=
    (batch_all_or_nothing shelf plainOptions ["a.graphql"]).delivered shelf_not_blocked
  have hwithheld :=
    (batch_all_or_nothing shelf plainOptions ["a.graphql", "b.graphql"]).withheld shelf_blocked
  have hwritable : ∀ path ∈ ["out.txt", "../out.txt"], ∀ text : String,
      ∃ written, shelf.write path text.toUTF8 = .ok written := by
    simp only [List.forall_mem_cons, List.not_mem_nil, false_implies, implies_true, and_true]
    exact ⟨fun text => ⟨_, rfl⟩, fun text => ⟨_, rfl⟩⟩
  have hread : ∀ path ∈ ["out.txt", "../out.txt"],
      (shelfRun path).2.readText path = .ok shelfSummary ∧
        (shelfRun path).2.readText "a.graphql" = shelf.readText "a.graphql" := by
    decide +kernel
  refine ⟨shelf_blocked, (hwithheld false false .summary (some "out.txt")).2.2, shelf_not_blocked, ?_⟩
  intro path hpath
  have hrun := hdelivered false false .summary (some path) fun other hother =>
    Option.some.inj hother ▸ hwritable path hpath _
  -- the text that is delivered is the one that is read back
  have htext := Except.ok.inj (hrun.2.2.2.held.symm.trans (hread path hpath).1)
  exact ⟨htext ▸ hrun, hread path hpath⟩

/-! ## Independence -/

section

variable {read : String → Except FileFault String} {source : SourceOptions} {files : List String}
  {results : List (String × Compilation)}

/-- What blocks a batch blocks one of its sources alone. -/
theorem blocked_iff_exists (hfiles : files ≠ []) :
    Blocked read source files ↔ ∃ path ∈ files, Blocked read source [path] := by
  constructor
  · intro h
    cases h with
    | options htext hfailure =>
      obtain ⟨path, hpath⟩ := List.exists_mem_of_ne_nil files hfiles
      exact ⟨path, hpath, .options htext hfailure⟩
    | reading hpath hfault => exact ⟨_, hpath, .reading List.mem_cons_self hfault⟩
    | compiling hoptions hpath hread hfailure =>
      exact ⟨_, hpath, .compiling hoptions List.mem_cons_self hread hfailure⟩
  · intro h
    obtain ⟨path, hpath, hblocked⟩ := h
    cases hblocked with
    | options htext hfailure => exact .options htext hfailure
    | reading hmem hfault =>
      obtain rfl := List.mem_singleton.mp hmem
      exact .reading hpath hfault
    | compiling hoptions hmem hread hfailure =>
      obtain rfl := List.mem_singleton.mp hmem
      exact .compiling hoptions hpath hread hfailure

/-- So a batch yields something if all of its sources do. -/
theorem yields_iff_forall (hfiles : files ≠ []) :
    (∃ results, Yields read source files results) ↔
      ∀ path ∈ files, ∃ results, Yields read source [path] results := by
  simp only [← not_blocked_iff]
  rw [blocked_iff_exists hfiles]
  simp only [not_exists, not_and]

/-- Every source yields what it yields in a batch. -/
theorem Yields.alone (h : Yields read source files results) {result : String × Compilation}
    (hresult : result ∈ results) : Yields read source [result.1] [result] := by
  obtain ⟨options, hoptions, hgives⟩ := h.options
  refine ⟨⟨options, hoptions, ?_⟩, rfl⟩
  intro other hother
  obtain rfl := List.mem_singleton.mp hother
  exact hgives other hresult

/-- The summaries of several models, each under its path. -/
theorem renderSummaries_of_two_le {models : List (String × Model)} (h : 2 ≤ models.length) :
    renderSummaries models =
      "\n".intercalate (models.map fun model => "# " ++ model.1 ++ "\n" ++ model.2.summary) := by
  match models, h with
  | _ :: _ :: _, _ => rfl

/-- **Independence**: a batch of several sources succeeds if the runs over its sources alone do. Its
    summaries and its notices are then those of the runs, in the order of the sources, with every
    summary under the path of its source. -/
theorem batch_independent (read : String → Except FileFault String) (source : SourceOptions)
    (verbose quiet : Bool) {files : List String} (hfiles : 2 ≤ files.length) :
    let run := fun files : List String =>
      Invocation.run read ⟨verbose, quiet, .compile files source .summary none⟩
    ((run files).exitCode = 0 ↔ ∀ path ∈ files, (run [path]).exitCode = 0) ∧
      ((run files).exitCode = 0 →
        (run files).output = "\n".intercalate
            (files.map fun path => "# " ++ path ++ "\n" ++ (run [path]).output) ∧
          (run files).notices = files.flatMap fun path => (run [path]).notices) := by
  intro run
  have hexit : ∀ files, (run files).exitCode = 0 ↔ ∃ results, Yields read source files results :=
    fun files => exitCode_compileReport_iff _ _ _
  have hne : files ≠ [] := by
    rintro rfl
    cases hfiles
  constructor
  · simp only [hexit]
    exact yields_iff_forall hne
  · intro hsuccess
    obtain ⟨results, hyields⟩ := (hexit files).mp hsuccess
    have hreport : ∀ {files results}, Yields read source files results →
        run files = compileReport ⟨verbose, quiet⟩ .summary none (results.map Compiled.ofResult) :=
      fun h => h.report_eq _
    -- alone, a source gives what it gives in the batch
    have halone : ∀ result ∈ results,
        (run [result.1]).output = result.2.model.summary ∧
          (run [result.1]).notices = (Compiled.ofResult result).notices ⟨verbose, quiet⟩ := by
      intro result hresult
      rw [hreport (hyields.alone hresult), compileReport_ofResult]
      exact ⟨rfl, List.flatMap_singleton _ _⟩
    have hpaths := hyields.paths
    subst hpaths
    rw [hreport hyields, compileReport_ofResult]
    constructor
    · show renderSummaries (results.map resultModel) = _
      rw [renderSummaries_of_two_le (by simpa using hfiles), List.map_map, List.map_map]
      congr 1
      apply List.map_congr_left
      intro result hresult
      show _ = "# " ++ result.1 ++ "\n" ++ (run [result.1]).output
      rw [(halone result hresult).1]
      rfl
    · show (results.map Compiled.ofResult).flatMap (Compiled.notices ⟨verbose, quiet⟩) = _
      rw [List.flatMap_map, List.flatMap_map]
      apply List.flatMap_congr
      intro result hresult
      exact (halone result hresult).2.symm

end

/-- Two sources by their paths. -/
def pairText : String → Except FileFault String
  | "a.graphql" => .ok "type Query \x7b a: Int \x7d"
  | "b.graphql" => .ok "type Query \x7b b: [Int!] \x7d\nunion U = Query"
  | _ => .error .notFound

theorem batch_independent_pairText :
    let run := fun files : List String =>
      Invocation.run pairText ⟨true, false, .compile files plainOptions .summary none⟩
    (run ["a.graphql", "b.graphql"]).exitCode = 0 ∧
      (run ["a.graphql", "b.graphql"]).output = "\n".intercalate
        (["a.graphql", "b.graphql"].map fun path => "# " ++ path ++ "\n" ++ (run [path]).output) ∧
      (run ["a.graphql", "b.graphql"]).notices.length = 1 ∧
      (run ["a.graphql", "b.graphql"]).notices =
        ["a.graphql", "b.graphql"].flatMap fun path => (run [path]).notices := by
  intro run
  have hexit : (run ["a.graphql", "b.graphql"]).exitCode = 0 := by decide +kernel
  obtain ⟨houtput, hnotices⟩ :=
    (batch_independent pairText plainOptions true false (by decide)).2 hexit
  exact ⟨hexit, houtput, by decide +kernel, hnotices⟩

end SchemaModel.CommandLine
