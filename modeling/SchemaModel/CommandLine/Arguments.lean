import SchemaModel.CommandLine.Path

/-! # Arguments of the Command Line

    * **Flag** and **Setting**: options without and with a value. Both have long names, and some
      have a letter as well. Letters may be joined behind one dash, and a value may follow its
      option directly, behind an equals sign, or as the next word.
    * **Argument**: what the words of a command line say, one by one, to a command with a given
      **Repertoire** of options.
    * **parse**: the invocation that a command line stands for. The first argument that asks for
      help or is refused decides, and later ones do not matter.
-/

namespace SchemaModel.CommandLine

/-! ## Options -/

/-- An option without a value. -/
inductive Flag where
  | verbose
  | quiet
  | strict
  | help
  | version
  deriving Repr, DecidableEq

/-- The long name of a flag. -/
def Flag.text : Flag → String
  | .verbose => "verbose"
  | .quiet => "quiet"
  | .strict => "strict"
  | .help => "help"
  | .version => "version"

/-- The letter of a flag. -/
def Flag.letter? : Flag → Option Char
  | .verbose => some 'v'
  | .quiet => some 'q'
  | .strict => none
  | .help => some 'h'
  | .version => some 'V'

/-- An option with a value. -/
inductive Setting where
  | input
  | scalars
  | defaultScalar
  | format
  | output
  deriving Repr, DecidableEq

/-- The long name of a setting. -/
def Setting.text : Setting → String
  | .input => "input"
  | .scalars => "scalars"
  | .defaultScalar => "default-scalar"
  | .format => "format"
  | .output => "output"

/-- The letter of a setting. -/
def Setting.letter? : Setting → Option Char
  | .input => some 'i'
  | .scalars | .defaultScalar => none
  | .format => some 'f'
  | .output => some 'o'

/-- The forms in which models are written. -/
inductive OutputFormat where
  | summary
  | json
  deriving Repr, DecidableEq

/-- The word for a form. -/
def OutputFormat.text : OutputFormat → String
  | .summary => "summary"
  | .json => "json"

/-- The form with a given word. -/
def OutputFormat.ofText? (text : String) : Option OutputFormat :=
  [.summary, .json].find? (·.text == text)

/-- Can a setting have the given value? -/
def Setting.accepts (value : String) : Setting → Bool
  | .input => (InputChoice.ofText? value).isSome
  | .format => (OutputFormat.ofText? value).isSome
  | .output => value ≠ ""
  | .scalars | .defaultScalar => true

/-! ## Words -/

/-- What a word says, perhaps together with the next one. -/
inductive Argument where
  | flag (flag : Flag)
  | setting (setting : Setting) (value : String)
  | operand (text : String)
  /-- No option is known by this name, a flag has a value, or a setting has none. -/
  | invalid
  deriving Repr, DecidableEq

/-- The options that a command knows. -/
structure Repertoire where
  flags : List Flag
  settings : List Setting
  /-- Does the command work on files? -/
  takesFiles : Bool
  deriving Repr, DecidableEq

/-- Does a word begin like an option? A single dash does not. -/
def isOption (word : String) : Bool :=
  match word.toList with
  | '-' :: _ :: _ => true
  | _ => false

/-- The word that makes operands of all words behind it. -/
def separator : String := "--"

namespace Repertoire

variable (known : Repertoire)

/-- The arguments in a run of letters, and the setting at its end that lacks a value. -/
def readLetters : List Char → List Argument × Option Setting
  | [] => ([], none)
  | c :: cs =>
    match known.flags.find? (·.letter? == some c) with
    | some flag =>
      let (others, awaiting?) := readLetters cs
      (.flag flag :: others, awaiting?)
    | none =>
      match known.settings.find? (·.letter? == some c) with
      | none => ([.invalid], none)
      | some setting =>
        match cs with
        | [] => ([], some setting)
        | '=' :: value => ([.setting setting (String.ofList value)], none)
        | value => ([.setting setting (String.ofList value)], none)

/-- The argument with the given long name, and the setting that lacks a value. -/
def readName (name : String) (value? : Option String) : List Argument × Option Setting :=
  match known.flags.find? (·.text == name), known.settings.find? (·.text == name) with
  | some flag, _ => ([if value?.isNone then .flag flag else .invalid], none)
  | none, some setting =>
    match value? with
    | some value => ([.setting setting value], none)
    | none => ([], some setting)
  | none, none => ([.invalid], none)

/-- The arguments in a word that is not the separator, and the setting that lacks a value. -/
def readWord (word : String) : List Argument × Option Setting :=
  match word.toList with
  | '-' :: '-' :: cs =>
    let name := String.ofList (cs.takeWhile (· ≠ '='))
    match cs.dropWhile (· ≠ '=') with
    | [] => known.readName name none
    | _ :: value => known.readName name (some (String.ofList value))
  | '-' :: c :: cs => known.readLetters (c :: cs)
  | _ => ([.operand word], none)

/-- The arguments in a list of words. -/
def readWords : List String → List Argument
  | [] => []
  | word :: words =>
    if word = separator then words.map .operand
    else
      match known.readWord word, words with
      | (arguments, none), words => arguments ++ readWords words
      | (arguments, some _), [] => arguments ++ [.invalid]
      | (arguments, some setting), value :: rest =>
        if isOption value then arguments ++ [.invalid]
        else arguments ++ .setting setting value :: readWords rest

end Repertoire

/-! ## Invocations -/

/-- Why no command is run. -/
inductive Stop where
  /-- The user asks how to use the program. -/
  | help
  /-- The user asks for the version of the program. -/
  | version
  /-- The arguments make no sense. -/
  | refused
  deriving Repr, DecidableEq

/-- The exit code of a program that runs no command. -/
def Stop.exitCode : Stop → UInt32
  | .help | .version => 0
  | .refused => 2

/-- What the arguments of a command have said so far. -/
structure Given where
  flags : List Flag
  settings : List (Setting × String)
  files : List String
  deriving Repr, DecidableEq

/-- Nothing is said yet. -/
def Given.nothing : Given := ⟨[], [], []⟩

/-- Takes an argument in. No option may be given twice, and no file name may be empty. -/
def Given.add (known : Repertoire) (given : Given) : Argument → Except Stop Given
  | .flag .help => .error .help
  | .flag .version => .error .version
  | .flag flag =>
    if given.flags.contains flag then .error .refused
    else .ok { given with flags := flag :: given.flags }
  | .setting setting value =>
    if (given.settings.lookup setting).isSome || !setting.accepts value then .error .refused
    else .ok { given with settings := (setting, value) :: given.settings }
  | .operand path =>
    if known.takesFiles && path ≠ "" then .ok { given with files := given.files ++ [path] }
    else .error .refused
  | .invalid => .error .refused

/-- What a list of words says to a command. -/
def Repertoire.read (known : Repertoire) (words : List String) : Except Stop Given :=
  (known.readWords words).foldlM (Given.add known) .nothing

/-- What `compile` and `check` are told alike. -/
structure SourceOptions where
  input : InputChoice
  scalars : Option String
  defaultScalar : String
  strict : Bool
  deriving Repr, DecidableEq

/-- A command with everything that it is told. -/
inductive Command where
  | compile (files : List String) (source : SourceOptions) (format : OutputFormat)
      (output : Option String)
  | check (files : List String) (source : SourceOptions)
  | version
  deriving Repr, DecidableEq

/-- A command, and how much is said about its run. -/
structure Invocation where
  verbose : Bool
  quiet : Bool
  command : Command
  deriving Repr, DecidableEq

/-- The source options among what was given. -/
def Given.sourceOptions (given : Given) : SourceOptions where
  input := ((given.settings.lookup .input).bind InputChoice.ofText?).getD .auto
  scalars := given.settings.lookup .scalars
  defaultScalar := (given.settings.lookup .defaultScalar).getD "String"
  strict := given.flags.contains .strict

/-- The form of the output among what was given. -/
def Given.outputFormat (given : Given) : OutputFormat :=
  ((given.settings.lookup .format).bind OutputFormat.ofText?).getD .summary

/-! ## Commands -/

/-- The words for the commands. -/
inductive CommandName where
  | compile
  | check
  | version
  | help
  deriving Repr, DecidableEq

/-- The spelling of a command. -/
def CommandName.text : CommandName → String
  | .compile => "compile"
  | .check => "check"
  | .version => "version"
  | .help => "help"

/-- The command with a given spelling. -/
def CommandName.ofText? (text : String) : Option CommandName :=
  [.compile, .check, .version, .help].find? (·.text == text)

/-- The flags that every command knows. -/
def commonFlags : List Flag := [.verbose, .quiet, .help]

/-- The options in front of the command. -/
def Repertoire.program : Repertoire := ⟨.version :: commonFlags, [], false⟩

/-- The options of `compile`. -/
def Repertoire.compile : Repertoire :=
  ⟨.strict :: commonFlags, [.input, .scalars, .defaultScalar, .format, .output], true⟩

/-- The options of `check`. -/
def Repertoire.check : Repertoire :=
  ⟨.strict :: commonFlags, [.input, .scalars, .defaultScalar], true⟩

/-- The options of `version`. -/
def Repertoire.version : Repertoire := ⟨commonFlags, [], false⟩

/-- Reads the words for a command that needs at least one file. -/
def Repertoire.readFiles (known : Repertoire) (words : List String) : Except Stop Given := do
  let given ← known.read words
  if given.files.isEmpty then throw .refused else return given

/-- The invocation of a command with what was said in front of it and behind it. -/
def Given.invoke (front behind : Given) (command : Command) : Invocation where
  verbose := (front.flags ++ behind.flags).contains .verbose
  quiet := (front.flags ++ behind.flags).contains .quiet
  command

/-- Reads the words behind a command. Help is given about the program or about one command. -/
def CommandName.read (front : Given) (words : List String) :
    CommandName → Except Stop Invocation
  | .compile => do
    let given ← Repertoire.compile.readFiles words
    return front.invoke given
      (.compile given.files given.sourceOptions given.outputFormat
        (given.settings.lookup .output))
  | .check => do
    let given ← Repertoire.check.readFiles words
    return front.invoke given (.check given.files given.sourceOptions)
  | .version => do
    let given ← Repertoire.version.read words
    return front.invoke given .version
  | .help =>
    match words with
    | [] => throw .help
    | [word] => throw (if (CommandName.ofText? word).isSome then .help else .refused)
    | _ => throw .refused

/-- The invocation that a command line stands for. -/
def parse (words : List String) : Except Stop Invocation := do
  let isFront (word : String) := isOption word && word ≠ separator
  let front ← Repertoire.program.read (words.takeWhile isFront)
  match words.dropWhile isFront with
  | [] => throw .refused
  | word :: words =>
    match CommandName.ofText? word with
    | some name => name.read front words
    | none => throw .refused

end SchemaModel.CommandLine
