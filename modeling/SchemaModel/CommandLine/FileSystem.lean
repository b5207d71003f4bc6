import SchemaModel.CommandLine.Path

/-! # File Systems

    All files as a value, for runs that must leave the disk alone.

    * **FileFault**: why a file cannot be read or written, in the words of the system.
    * **FileSystem**: files with the names that lead to them from the root, and the directory that a
      run is in. That directory and those above it are there, and any other as soon as it holds a file.
    * **walk**: where a path leads.
-/

namespace SchemaModel.CommandLine

/-! ## Faults -/

/-- Why a file cannot be read or written. -/
inductive FileFault where
  | notFound
  | notDirectory
  | isDirectory
  | nameTooLong
  /-- The path has a null character in it. -/
  | nullInPath
  /-- The contents are no text. -/
  | invalidText
  | other (description : String)
  deriving Repr, DecidableEq

/-- The wording of a fault. -/
def FileFault.message : FileFault → String
  | .notFound => "No such file or directory (os error 2)"
  | .notDirectory => "Not a directory (os error 20)"
  | .isDirectory => "Is a directory (os error 21)"
  | .nameTooLong => "File name too long (os error 36)"
  | .nullInPath => "file name contained an unexpected NUL byte"
  | .invalidText => "stream did not contain valid UTF-8"
  | .other description => description

/-! ## Files and Directories -/

/-- The names that lead from the root to a file or directory. -/
abbrev Location := List String

/-- The files of a system. -/
structure FileSystem where
  files : List (Location × ByteArray)
  /-- The directory that a run is in. -/
  home : Location

namespace FileSystem

/-- The system with the given files in the directory that a run is in, and no others. -/
def ofFiles (home : Location) (files : List (String × ByteArray)) : FileSystem where
  files := files.map fun (path, contents) =>
    (home ++ (Path.parts path).filter fun part => !Path.isIdle part, contents)
  home

/-- The contents of a file. -/
def contents? (system : FileSystem) (location : Location) : Option ByteArray :=
  system.files.lookup location

/-- Is there a directory at the given location? -/
def hasDirectory (system : FileSystem) (location : Location) : Bool :=
  location.isPrefixOf system.home ||
    system.files.any fun (file, _) => location.isPrefixOf file && location ≠ file

/-! ## Paths -/

/-- How many bytes a name may have. -/
def nameLimit : Nat := 255

/-- How many bytes a path may have. -/
def pathLimit : Nat := 4095

/-- The file or directory with the given name in a directory. -/
def entry (system : FileSystem) (directory : Location) (name : String) : Except FileFault Location :=
  let target := directory ++ [name]
  if system.hasDirectory target || (system.contents? target).isSome then .ok target
  else .error .notFound

/-- Goes on from a place by one part of a path. A place to go on from has to be a directory, and above
    the root there is nothing but the root. -/
def step (system : FileSystem) (place : Location) (part : String) : Except FileFault Location :=
  if !system.hasDirectory place then .error .notDirectory
  else if Path.isIdle part then .ok place
  else if part = ".." then .ok place.dropLast
  else if nameLimit < part.utf8ByteSize then .error .nameTooLong
  else system.entry place part

/-- Where a path starts. One with a slash in front starts at the root. -/
def start (system : FileSystem) (path : String) : Location :=
  if path.toList.head? = some '/' then [] else system.home

/-- The parts of a path that can lead anywhere. A path that is too long leads nowhere, whatever its
    parts are. -/
def usableParts (path : String) : Except FileFault (List String) :=
  if path.toList.contains '\x00' then .error .nullInPath
  else if path = "" then .error .notFound
  else if pathLimit < path.utf8ByteSize then .error .nameTooLong
  else .ok (Path.parts path)

/-- Where the parts of a path lead from a place. -/
def walk (system : FileSystem) (place : Location) (parts : List String) :
    Except FileFault Location :=
  parts.foldlM system.step place

/-- The file or directory that a path leads to. -/
def locate (system : FileSystem) (path : String) : Except FileFault Location := do
  system.walk (system.start path) (← usableParts path)

/-! ## Access -/

/-- The contents of the file at a path. -/
def read (system : FileSystem) (path : String) : Except FileFault ByteArray := do
  match system.contents? (← system.locate path) with
  | some contents => return contents
  | none => throw .isDirectory

/-- The text of the file at a path. -/
def readText (system : FileSystem) (path : String) : Except FileFault String := do
  match String.fromUTF8? (← system.read path) with
  | some text => return text
  | none => throw .invalidText

/-- The system with the given contents at a location. -/
def put (system : FileSystem) (location : Location) (contents : ByteArray) : FileSystem where
  files := system.files.filter (·.1 ≠ location) ++ [(location, contents)]
  home := system.home

/-- Puts a file with the given name into a directory, in place of the file that is there. -/
def writeAt (system : FileSystem) (directory : Location) (name : String) (contents : ByteArray) :
    Except FileFault FileSystem :=
  let target := directory ++ [name]
  if nameLimit < name.utf8ByteSize then .error .nameTooLong
  else if system.hasDirectory target then .error .isDirectory
  else .ok (system.put target contents)

/-- Writes the file at a path. Its directory has to be there. A path with a slash behind it is that
    of a directory, whatever stands before the slash. -/
def write (system : FileSystem) (path : String) (contents : ByteArray) :
    Except FileFault FileSystem := do
  let parts ← usableParts path
  match (parts.reverse.dropWhile (· = "")) with
  | [] => throw .isDirectory
  | name :: front =>
    let place ← system.walk (system.start path) front.reverse
    if Path.isIdle name || name = ".." then
      let _ ← system.step place name
      throw .isDirectory
    else if !system.hasDirectory place then throw .notDirectory
    else if parts.getLast? = some "" then throw .isDirectory
    else system.writeAt place name contents

end FileSystem

end SchemaModel.CommandLine
