import SchemaModel.Proofs.Contents

/-! # Abstract Schemas

    A schema that is not written down in either encoding yet.

    * **Outline**: named types of every kind, and the roots.
    * **content**: what is left of an outline in a schema that is read from some writing of it.
    * **Tells**: a source is read as a schema of some content. Sources that tell the same are
      compiled alike. -/

namespace SchemaModel

/-! ## Outlines -/

/-- What an outline says about a type. An interface implements nothing. -/
inductive TypeBody where
  | object (interfaces : List String) (fields : List FieldOutline)
  | input (fields : List InputOutline)
  | enum (values : List String)
  | scalar
  | union (members : List String)
  | interface (fields : List FieldOutline)
  deriving Repr, DecidableEq

/-- A named type of an outline. -/
structure TypeOutline where
  name : String
  body : TypeBody
  deriving Repr, DecidableEq

/-- An abstract schema. -/
structure Outline where
  types : List TypeOutline
  query : String
  mutation : Option String
  subscription : Option String
  deriving Repr, DecidableEq

/-- The content of a body, if models have room for it. -/
def TypeBody.content? : TypeBody → Option KindContent
  | .object _ fields => some (.object fields)
  | .input fields => some (.input fields)
  | .enum values => some (.enum values)
  | .scalar => some .scalar
  | .union _ | .interface _ => none

namespace TypeOutline

/-- Does a type only repeat that there is a built-in scalar? -/
def isIdle (type : TypeOutline) : Bool :=
  isBuiltinScalar type.name && type.body = .scalar

/-- The content of a type, if it says something that models have room for. -/
def content? (type : TypeOutline) : Option DeclarationContent :=
  if type.isIdle then none else type.body.content?.map fun kind => ⟨type.name, kind⟩

/-- The constructs that are skipped for a type. -/
def skipped (type : TypeOutline) : List (Construct × String) :=
  match type.body with
  | .object interfaces _ => interfaces.map fun name => (.implements, name)
  | .union _ => [(.union, type.name)]
  | .interface _ => [(.interface, type.name)]
  | .input _ | .enum _ | .scalar => []

end TypeOutline

namespace Outline

/-- The roots of an outline. -/
def roots (outline : Outline) : RootNames :=
  ⟨some outline.query, outline.mutation, outline.subscription⟩

/-- The operations of an outline with their root types. -/
def operations (outline : Outline) : List (RootOperation × String) :=
  (.query, outline.query) ::
    ((outline.mutation.map fun name => (RootOperation.mutation, name)).toList ++
      (outline.subscription.map fun name => (RootOperation.subscription, name)).toList)

/-- The content of a schema that is read from a writing of the outline. -/
def content (outline : Outline) : Content where
  declarations := outline.types.filterMap TypeOutline.content?
  roots := outline.roots
  skipped := outline.types.flatMap TypeOutline.skipped

end Outline

/-! ## Readings of a Content -/

/-- **Tells**: what was read is a schema of the given content. -/
def Tells (outcome : Except Failure Schema) (content : Content) : Prop :=
  ∃ schema, outcome = .ok schema ∧ schema.content = content

/-- A way to read a source under a policy that accepts it strictly if nothing is skipped in it. -/
def ReadsStrictly (read : Policy → Except Failure Schema) : Prop :=
  ∀ schema, read .reject = .ok schema ↔ read .skip = .ok schema ∧ schema.skipped = []

/-- A strict reading of a schema in which something is skipped ends in a failure. -/
theorem ReadsStrictly.exists_error {read : Policy → Except Failure Schema} {schema : Schema}
    (h : ReadsStrictly read) (hread : read .skip = .ok schema) (hskipped : schema.skipped ≠ []) :
    ∃ failure, read .reject = .error failure := by
  cases hreject : read .reject with
  | error failure => exact ⟨failure, rfl⟩
  | ok other =>
    obtain ⟨hother, hnone⟩ := (h other).mp hreject
    obtain rfl : schema = other := Except.ok.inj (hread.symm.trans hother)
    exact absurd hnone hskipped

/-- Sources that tell the same are compiled alike, whether unsupported constructs are skipped or
    refused. -/
theorem sameOutcome_of_tells {read other : Policy → Except Failure Schema} {content : Content}
    (h : Tells (read .skip) content) (hstrict : ReadsStrictly read)
    (ho : Tells (other .skip) content) (hotherStrict : ReadsStrictly other) (options : Options) :
    SameOutcome (read options.policy >>= compileSchema options)
      (other options.policy >>= compileSchema options) := by
  obtain ⟨schema, hread, rfl⟩ := h
  obtain ⟨otherSchema, hother, hcontent⟩ := ho
  have hcompile := compileSchema_of_content hcontent.symm options
  cases options.policy with
  | skip =>
    rw [hread, hother]
    exact hcompile
  | reject =>
    -- as many constructs are skipped in the one as in the other
    have hlength : schema.skipped.length = otherSchema.skipped.length := by
      simpa using (skipped_perm hcontent.symm).length_eq
    by_cases hnone : schema.skipped = []
    · have hotherNone : otherSchema.skipped = [] := by
        rwa [← List.length_eq_zero_iff, ← hlength, List.length_eq_zero_iff]
      rw [(hstrict schema).mpr ⟨hread, hnone⟩, (hotherStrict otherSchema).mpr ⟨hother, hotherNone⟩]
      exact hcompile
    · have hotherSome : otherSchema.skipped ≠ [] := by
        rwa [Ne, ← List.length_eq_zero_iff, ← hlength, List.length_eq_zero_iff]
      obtain ⟨failure, hfailure⟩ := hstrict.exists_error hread hnone
      obtain ⟨otherFailure, hotherFailure⟩ := hotherStrict.exists_error hother hotherSome
      rw [hfailure, hotherFailure]
      trivial

end SchemaModel
