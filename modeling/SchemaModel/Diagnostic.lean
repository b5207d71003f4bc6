import SchemaModel.Schema

/-! # Diagnostics

    Findings that do not stop a compilation.

    * **Diagnostic**: a severity, a code, a title and labels that point into the source.
    * **ofSkipped**: the warning about a construct that was left out.
-/

namespace SchemaModel

inductive Severity where
  | warning
  | info
  deriving Repr, DecidableEq

/-- The word for a severity. -/
def Severity.text : Severity → String
  | .warning => "warning"
  | .info => "info"

/-- A place in the source with a remark. -/
structure Label where
  origin : Origin
  message : String
  deriving Repr, DecidableEq

/-- A finding. -/
structure Diagnostic where
  severity : Severity
  code : String
  title : String
  labels : List Label
  deriving Repr, DecidableEq

namespace Diagnostic

/-! ## Codes -/

/-- A construct was left out. -/
def skippedConstruct : String := "W0001"

/-- A field refers to a type that was left out. -/
def droppedField : String := "W0002"

/-- An argument refers to a type that was left out. -/
def droppedArgument : String := "W0003"

/-- A subscription root has no place of its own in a model. -/
def plainSubscription : String := "I0001"

/-! ## Findings -/

/-- A warning that points at one place without a remark. -/
def warningAt (code title : String) (origin : Origin) : Diagnostic :=
  ⟨.warning, code, title, [⟨origin, ""⟩]⟩

/-- The warning about a construct that was left out. -/
def ofSkipped (skipped : Skipped) : Diagnostic :=
  ⟨.warning, skippedConstruct, "skipped " ++ skipped.construct.text ++ " `" ++ skipped.name ++ "`",
    [⟨skipped.origin, "not compiled"⟩]⟩

/-- The place that a finding is mainly about. -/
def primaryOrigin? (diagnostic : Diagnostic) : Option Origin :=
  diagnostic.labels.head?.map Label.origin

end Diagnostic

/-- The warnings among a list of findings. -/
def warnings (diagnostics : List Diagnostic) : List Diagnostic :=
  diagnostics.filter (·.severity = .warning)

end SchemaModel
