import SchemaModel.Failure
import SchemaModel.Text.Casing

/-! # Identifiers

    The names that generated code gives to types and members.

    * **identifier**: a name with its first letter in the case that its role calls for.
    * **Scope**: the identifiers that are taken, each by one name. A second claim to an identifier
      is refused, either as a repetition of the name or as a collision of two names.
-/

namespace SchemaModel

/-- What an identifier is for. -/
inductive IdentifierRole where
  /-- A type or a field, which begins with an upper-case letter. -/
  | typeMember
  /-- An argument, which begins with a lower-case letter. -/
  | localVariable
  deriving Repr, DecidableEq

/-- The first letter of an identifier. -/
def IdentifierRole.convert : IdentifierRole → Char → List Char
  | .typeMember => Casing.upper
  | .localVariable => Casing.lower

/-- The identifier of a name. -/
def identifier (role : IdentifierRole) (name : String) : String :=
  match name.toList with
  | [] => ""
  | c :: cs => String.ofList (role.convert c ++ cs)

/-! ## Scopes -/

/-- The identifiers that are taken in one place. -/
structure Scope where
  /-- The wording for the place. -/
  label : String
  /-- What the names in it belong to. Names of types belong to nothing. -/
  owner : Option String
  /-- The taken identifiers with the names that took them, latest first. -/
  taken : List (String × String)
  deriving Repr, DecidableEq

namespace Scope

/-- The scope of type names. -/
def types : Scope := ⟨"schema", none, []⟩

/-- The scope of what belongs to `owner`. -/
def members (label owner : String) : Scope := ⟨label, some owner, []⟩

/-- The name that took an identifier. -/
def get? (scope : Scope) (identifier : String) : Option String :=
  scope.taken.lookup identifier

/-- The number of identifiers that are taken. -/
def size (scope : Scope) : Nat := scope.taken.length

/-- A name as it is reported, together with what it belongs to. -/
def qualified (scope : Scope) (name : String) : String :=
  match scope.owner with
  | some owner => owner ++ "." ++ name
  | none => name

/-- Takes an identifier for a name, unless it is taken already. -/
def claim (scope : Scope) (name identifier : String) (origin : Origin) : Except Failure Scope :=
  match scope.get? identifier with
  | none => .ok { scope with taken := (identifier, name) :: scope.taken }
  | some first =>
    if first = name then .error (.duplicate (scope.qualified name) origin)
    else .error (.collision scope.label identifier first name origin)

end Scope

end SchemaModel
