import SchemaModel.Introspection.Fault

/-! # Failures

    Why a compilation gives no model. A failure ends the compilation; there is no partial model.

    * **Failure**: the causes, each with what is needed to find it in the source.
    * **message**, **code**, **source** and **name**: how a failure is reported.
-/

namespace SchemaModel

/-- Where a type is referred to. -/
inductive ReferenceSite where
  /-- The schema, which names no query root. -/
  | absentQueryRoot
  | queryRoot
  | mutationRoot
  | field (owner member : String)
  | argument (owner member arg : String)
  | inputField (owner member : String)
  deriving Repr, DecidableEq

/-- The wording of a site in messages. -/
def ReferenceSite.text : ReferenceSite → String
  | .absentQueryRoot => "the schema, which names no query root"
  | .queryRoot => "the query root"
  | .mutationRoot => "the mutation root"
  | .field owner member => s!"field `{owner}.{member}`"
  | .argument owner member arg => s!"argument `{owner}.{member}({arg})`"
  | .inputField owner member => s!"input field `{owner}.{member}`"

/-- Why a scalar override cannot be used. -/
inductive OverrideFault where
  | missingEquals
  | emptyName
  | emptyTarget
  deriving Repr, DecidableEq

/-- The wording of an override fault. -/
def OverrideFault.message : OverrideFault → String
  | .missingEquals => "missing `=`"
  | .emptyName => "empty GraphQL type name"
  | .emptyTarget => "empty target type"

/-- Why there is no model. -/
inductive Failure where
  /-- Schema definition text is malformed. -/
  | malformedText (fault : Sdl.PlacedFault)
  /-- An introspection document is malformed or incomplete. -/
  | malformedDocument (fault : Introspection.PlacedFault)
  /-- A name refers to no type. -/
  | unresolved (name : String) (site : ReferenceSite) (origin : Origin)
  /-- Two names of one scope have the same identifier. -/
  | collision (scope identifier first second : String) (origin : Origin)
  /-- A name is declared twice in one scope. -/
  | duplicate (name : String) (origin : Origin)
  /-- A construct that no model has room for is refused. -/
  | unsupported (skipped : Skipped)
  /-- A scalar override is malformed. -/
  | invalidOverride (pair : String) (fault : OverrideFault)
  deriving Repr

namespace Failure

/-- The wording of a failure. -/
def message : Failure → String
  | .malformedText fault => fault.message
  | .malformedDocument fault =>
    "malformed introspection at `" ++ fault.path ++ "`: " ++ fault.fault.message
  | .unresolved name site origin =>
    "unknown type `" ++ name ++ "` referenced by " ++ site.text ++ " (" ++ origin.text ++ ")"
  | .collision scope identifier first second origin =>
    "`" ++ first ++ "` and `" ++ second ++ "` both map to identifier `" ++ identifier ++ "` in " ++
      scope ++ " (" ++ origin.text ++ ")"
  | .duplicate name origin =>
    "`" ++ name ++ "` is declared more than once (" ++ origin.text ++ ")"
  | .unsupported skipped =>
    "unsupported " ++ skipped.construct.text ++ " `" ++ skipped.name ++ "` at " ++
      skipped.origin.text
  | .invalidOverride pair fault =>
    "invalid scalar override `" ++ pair ++ "`: " ++ fault.message

/-- The code of a failure. -/
def code : Failure → String
  | .malformedText _ => "schemac::syntax"
  | .malformedDocument _ => "schemac::format"
  | .unresolved .. => "schemac::unresolved_reference"
  | .collision .. => "schemac::collision"
  | .duplicate .. => "schemac::duplicate"
  | .unsupported _ => "schemac::unsupported"
  | .invalidOverride .. => "schemac::invalid_override"

/-- The input that a failure is attributed to. -/
def source : Failure → SourceKind
  | .malformedText _ => .sdl
  | .malformedDocument _ => .introspection
  | .unresolved _ _ origin | .collision _ _ _ _ origin | .duplicate _ origin => origin.source
  | .unsupported skipped => skipped.origin.source
  | .invalidOverride .. => .config

/-- The name that a failure is about, if it is about one. -/
def name : Failure → Option String
  | .malformedText _ | .malformedDocument _ => none
  | .unresolved name _ _ | .duplicate name _ => some name
  | .collision _ _ _ second _ => some second
  | .unsupported skipped => some skipped.name
  | .invalidOverride pair _ => some pair

end Failure

end SchemaModel
