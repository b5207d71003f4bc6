import SchemaModel.Compilation

/-! # Paths of Sources

    * **parts**: what stands between the slashes of a path.
    * **extension?**: the end of a file's name, behind its last point.
    * **InputChoice**: how a source is encoded, either as the user says or as the extension of its
      path suggests.
-/

namespace SchemaModel.CommandLine

namespace Path

/-- What stands between the slashes of a path. -/
def parts (path : String) : List String :=
  (Separated.split '/' path.toList).map String.ofList

/-- Does a part of a path stay where it is? -/
def isIdle (part : String) : Bool := part = "" || part = "."

/-- The name of the file or directory that a path leads to, if it ends in a name. -/
def fileName? (path : String) : Option String :=
  ((parts path).filter fun part => !isIdle part).getLast?.filter (· ≠ "..")

/-- What stands behind the last point of a name. A point in front of the whole name does not
    count. -/
def nameExtension? (name : String) : Option String :=
  let reversed := name.toList.reverse
  match reversed.dropWhile (· ≠ '.') with
  | _ :: _ :: _ => some (String.ofList (reversed.takeWhile (· ≠ '.')).reverse)
  | _ => none

/-- The extension of the file that a path leads to. -/
def extension? (path : String) : Option String :=
  (fileName? path).bind nameExtension?

end Path

/-! ## Encodings of Sources -/

/-- What the user says about the encoding of the sources. -/
inductive InputChoice where
  | auto
  | sdl
  | introspection
  deriving Repr, DecidableEq

/-- The word for a choice. -/
def InputChoice.text : InputChoice → String
  | .auto => "auto"
  | .sdl => "sdl"
  | .introspection => "introspection"

/-- The choice with a given word. -/
def InputChoice.ofText? (text : String) : Option InputChoice :=
  [.auto, .sdl, .introspection].find? (·.text == text)

/-- The encoding of the source at a path. Without a choice, files with the extension `json` of
    either case are introspection documents, and all others are schema definition text. -/
def InputChoice.encoding (path : String) : InputChoice → Encoding
  | .sdl => .sdl
  | .introspection => .introspection
  | .auto =>
    if (Path.extension? path).any (·.map Char.toLower == "json") then .introspection else .sdl

end SchemaModel.CommandLine
