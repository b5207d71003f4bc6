import SchemaModel.CommandLine.Arguments
import SchemaModel.CommandLine.FileSystem
import SchemaModel.Json.Printer
import SchemaModel.Model.Json
import SchemaModel.Model.Text

/-! # Runs of the Program

    What an invocation does to the files that it names.

    * **Notice**: a message about one source, or about the options.
    * **Report**: everything that a run leaves behind: notices, output, and a file to be written.
      Output and file are complete or not there at all.
    * **run**: the report of an invocation, given what its sources hold. All sources are read
      before any is compiled, so that a source that cannot be read leaves no trace but its fault.
-/

namespace SchemaModel.CommandLine

/-- The name and version of the program. -/
def versionText : String := "schemac 0.1.0"

/-! ## Notices -/

/-- A message on the error stream. -/
inductive Notice where
  | finding (path : String) (diagnostic : Diagnostic)
  | refusal (path : String) (cause : Failure)
  /-- The scalar overrides among the options are malformed. -/
  | invalidOptions (cause : Failure)

/-- The line that a notice begins with. -/
def Notice.heading : Notice → String
  | .finding path diagnostic =>
    let origin := (diagnostic.primaryOrigin?.map fun origin => " (" ++ origin.text ++ ")").getD ""
    diagnostic.severity.text ++ " [" ++ diagnostic.code ++ "] " ++ path ++ ": " ++
      diagnostic.title ++ origin
  | .refusal path _ => "Error " ++ path
  | .invalidOptions cause => cause.code

/-- What a notice says below its heading. -/
def Notice.details : Notice → List String
  | .finding .. => []
  | .refusal _ cause => ["  " ++ cause.code, "  " ++ cause.message]
  | .invalidOptions cause => ["  " ++ cause.message]

/-- How much is said about a run. -/
structure Verbosity where
  verbose : Bool
  quiet : Bool
  deriving Repr, DecidableEq

/-- Is a finding worth a notice? -/
def Verbosity.shows (verbosity : Verbosity) (diagnostic : Diagnostic) : Bool :=
  !verbosity.quiet && (diagnostic.severity = .warning || verbosity.verbose)

/-! ## Reports -/

/-- How a run ends. -/
inductive Ending where
  | success
  /-- The options or a source are refused. -/
  | refusal
  /-- A file cannot be read or written. -/
  | fault (fault : FileFault)
  deriving Repr, DecidableEq

/-- What a run leaves behind. -/
structure Report where
  notices : List Notice
  output : String
  /-- The path and the text of a file that is to be written. -/
  file : Option (String × String)
  ending : Ending

/-- The exit code of a run. -/
def Report.exitCode (report : Report) : UInt32 :=
  match report.ending with
  | .success => 0
  | .refusal | .fault _ => 1

/-- The report of a run that a file fault ends. -/
def Report.broken (notices : List Notice) (fault : FileFault) : Report :=
  ⟨notices, "", none, .fault fault⟩

/-- The same report in case that its file cannot be written. -/
def Report.unwritten (report : Report) (fault : FileFault) : Report :=
  .broken report.notices fault

/-! ## Batches -/

/-- The compiler options that source options stand for. -/
def SourceOptions.compilerOptions (source : SourceOptions) : Except Failure Options := do
  let overrides ← match source.scalars with
    | some text => Overrides.read text
    | none => pure []
  return { Options.standard with
    overrides
    fallback := .ofText source.defaultScalar
    policy := if source.strict then .reject else .skip }

/-- A source with what came of it. -/
structure Compiled where
  path : String
  result : Except Failure Compilation

/-- Reads and compiles the sources at the given paths. -/
def compileFiles (read : String → Except FileFault String) (options : Options)
    (input : InputChoice) (paths : List String) : Except FileFault (List Compiled) :=
  paths.mapM fun path => do
    return ⟨path, compile options (input.encoding path) (← read path)⟩

namespace Compiled

/-- The notices about a source. -/
def notices (verbosity : Verbosity) (compiled : Compiled) : List Notice :=
  match compiled.result with
  | .ok compilation =>
    (compilation.findings.filter verbosity.shows).map (.finding compiled.path)
  | .error failure => [.refusal compiled.path failure]

/-- The model of a source under its path, if it has one. -/
def model? (compiled : Compiled) : Option (String × Model) :=
  compiled.result.toOption.map fun compilation => (compiled.path, compilation.model)

/-- The line about a source that compiles. -/
def line (compiled : Compiled) : String :=
  match compiled.result with
  | .ok compilation => s!"OK {compiled.path} ({compilation.skipped} skipped)\n"
  | .error _ => ""

end Compiled

/-! ## Output -/

/-- The summaries of models. If there are several, each stands under its path. -/
def renderSummaries (models : List (String × Model)) : String :=
  match models with
  | [(_, model)] => model.summary
  | models =>
    "\n".intercalate (models.map fun (path, model) => "# " ++ path ++ "\n" ++ model.summary)

/-- Models as JSON. If there are several, they are the members of one object, keyed by their paths,
    and the members of every object are sorted. -/
def renderJson (models : List (String × Model)) : String :=
  let json := match models with
    | [(_, model)] => model.toJson
    | models => Json.sortKeys (.object (models.map fun (path, model) => (path, Model.toJson model)))
  json.pretty ++ "\n"

/-- Models in the given form. -/
def OutputFormat.render : OutputFormat → List (String × Model) → String
  | .summary => renderSummaries
  | .json => renderJson

/-! ## Runs -/

/-- The report of a batch whose sources all could be read. There is no output and no file if one
    of them does not compile. -/
def compileReport (verbosity : Verbosity) (format : OutputFormat) (output : Option String)
    (batch : List Compiled) : Report :=
  let notices := batch.flatMap (Compiled.notices verbosity)
  let models := batch.filterMap Compiled.model?
  if models.length < batch.length then ⟨notices, "", none, .refusal⟩
  else
    let rendered := format.render models
    match output with
    | none => ⟨notices, rendered, none, .success⟩
    | some path =>
      let line := if verbosity.quiet then "" else s!"Wrote {path}\n"
      ⟨notices, line, some (path, rendered), .success⟩

/-- The report of a check of sources that all could be read. -/
def checkReport (verbosity : Verbosity) (batch : List Compiled) : Report :=
  let notices := batch.flatMap (Compiled.notices verbosity)
  let lines := if verbosity.verbose then String.join (batch.map Compiled.line) else ""
  if (batch.filterMap Compiled.model?).length < batch.length then ⟨notices, lines, none, .refusal⟩
  else
    let success :=
      if verbosity.quiet then "" else s!"Success: {batch.length} file(s) checked\n"
    ⟨notices, lines ++ success, none, .success⟩

/-- The report of a batch, which `report` makes if the options are in order and all sources can
    be read. -/
def runBatch (read : String → Except FileFault String) (source : SourceOptions)
    (paths : List String) (report : List Compiled → Report) : Report :=
  match source.compilerOptions with
  | .error failure => ⟨[.invalidOptions failure], "", none, .refusal⟩
  | .ok options =>
    match compileFiles read options source.input paths with
    | .error fault => .broken [] fault
    | .ok batch => report batch

/-- The paths of the sources that an invocation reads. -/
def Invocation.sources (invocation : Invocation) : List String :=
  match invocation.command with
  | .compile files .. | .check files _ => files
  | .version => []

/-- The report of an invocation. -/
def Invocation.run (read : String → Except FileFault String) (invocation : Invocation) : Report :=
  let verbosity : Verbosity := ⟨invocation.verbose, invocation.quiet⟩
  match invocation.command with
  | .compile files source format output =>
    runBatch read source files (compileReport verbosity format output)
  | .check files source => runBatch read source files (checkReport verbosity)
  | .version => ⟨[], versionText ++ "\n", none, .success⟩

/-- The report of an invocation on a system of files, and the system that it leaves. -/
def Invocation.runIn (system : FileSystem) (invocation : Invocation) : Report × FileSystem :=
  let report := invocation.run system.readText
  match report.file with
  | none => (report, system)
  | some (path, text) =>
    match system.write path text.toUTF8 with
    | .ok written => (report, written)
    | .error fault => (report.unwritten fault, system)

end SchemaModel.CommandLine
