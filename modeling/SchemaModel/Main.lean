import SchemaModel.CommandLine.Run

/-! # The Program

    Runs the command line on the files of the system.
-/

namespace SchemaModel.CommandLine

/-- How to use the program. -/
def usage : String :=
  "Usage: schemac [OPTIONS] <COMMAND>\n\n" ++
  "Commands:\n" ++
  "  compile <FILES>...  Compile schemas into type models\n" ++
  "  check <FILES>...    Check that schemas compile\n" ++
  "  version             Show version information\n\n" ++
  "Options:\n" ++
  "  -v, --verbose\n" ++
  "  -q, --quiet\n" ++
  "  -h, --help\n" ++
  "  -V, --version\n\n" ++
  "Options of compile and check:\n" ++
  "  -i, --input <auto|sdl|introspection>\n" ++
  "      --scalars <NAME=TARGET,...>\n" ++
  "      --default-scalar <TARGET>\n" ++
  "      --strict\n\n" ++
  "Options of compile:\n" ++
  "  -f, --format <summary|json>\n" ++
  "  -o, --output <FILE>"

/-- The fault that stands behind an error code of the system. Some accesses give the code negated. -/
def faultOfCode? (code : UInt32) : Option FileFault :=
  match min code (0 - code) with
  | 20 => some .notDirectory
  | 21 => some .isDirectory
  | 22 => some .nullInPath
  | 36 => some .nameTooLong
  | _ => none

/-- The fault that a failed access to a file shows. -/
def faultOf (error : IO.Error) : FileFault :=
  let unnamed := .other (toString error)
  match error with
  | .noFileOrDirectory .. => .notFound
  | .inappropriateType _ code _ | .invalidArgument _ code _ => (faultOfCode? code).getD unnamed
  | _ => unnamed

/-- The text of a file, or what stands in the way of it. -/
def readText (path : String) : IO (Except FileFault String) := do
  try
    match String.fromUTF8? (← IO.FS.readBinFile path) with
    | some text => return .ok text
    | none => return .error .invalidText
  catch error => return .error (faultOf error)

/-- Writes the file of a report, if it has one. -/
def settle (report : Report) : IO Report := do
  match report.file with
  | none => return report
  | some (path, text) =>
    try
      IO.FS.writeFile path text
      return report
    catch error => return report.unwritten (faultOf error)

/-- Runs an invocation and gives its exit code. -/
def execute (invocation : Invocation) : IO UInt32 := do
  let texts ← invocation.sources.mapM fun path => return (path, ← readText path)
  let report ← settle (invocation.run fun path => (texts.lookup path).getD (.error .notFound))
  for notice in report.notices do
    for line in notice.heading :: notice.details do
      IO.eprintln line
  IO.print report.output
  if let .fault fault := report.ending then
    IO.eprintln s!"Error: {fault.message}"
  return report.exitCode

end SchemaModel.CommandLine

open SchemaModel.CommandLine in
/-- The entry of the program. -/
def main (args : List String) : IO UInt32 := do
  match parse args with
  | .ok invocation => execute invocation
  | .error stop =>
    match stop with
    | .help => IO.println usage
    | .version => IO.println versionText
    | .refused => IO.eprintln usage
    return stop.exitCode
