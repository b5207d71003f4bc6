/-! # Type References

    A type reference is a name inside any number of wrappings: `[T]` is a list of `T`, and `T!` is
    `T` without null. Schema definition text writes the wrappings as brackets and bangs, and
    introspection as a chain of links; both are read into the one type below.

    * **Leaf**: the type parameter. Declarations as read carry the bare name of the type; a model
      carries a resolved reference.
    * **Normal form**: a non-null wrapping never stands directly inside another one.
-/

namespace SchemaModel

/-- A named leaf under list and non-null wrappings. -/
inductive TypeRef (α : Type) where
  | named (leaf : α)
  | list (item : TypeRef α)
  | nonNull (inner : TypeRef α)
  deriving Repr, DecidableEq

namespace TypeRef

variable {α β ε : Type}

/-- Is the outermost wrapping a non-null one? -/
def isNonNull : TypeRef α → Bool
  | .nonNull _ => true
  | _ => false

/-- Does a list stand anywhere among the wrappings? -/
def isList : TypeRef α → Bool
  | .named _ => false
  | .list _ => true
  | .nonNull inner => inner.isList

/-- The leaf under all wrappings. -/
def base : TypeRef α → α
  | .named leaf => leaf
  | .list item => item.base
  | .nonNull inner => inner.base

/-- The number of list wrappings. -/
def listDepth : TypeRef α → Nat
  | .named _ => 0
  | .list item => item.listDepth + 1
  | .nonNull inner => inner.listDepth

/-- Wraps a type as non-null, unless it is so already. -/
def nonNull? (inner : TypeRef α) : Option (TypeRef α) :=
  if inner.isNonNull then none else some (.nonNull inner)

/-- The same wrappings around another leaf. -/
def map (f : α → β) : TypeRef α → TypeRef β
  | .named leaf => .named (f leaf)
  | .list item => .list (item.map f)
  | .nonNull inner => .nonNull (inner.map f)

/-- The same wrappings around a converted leaf, if the conversion succeeds. -/
def mapM (f : α → Except ε β) : TypeRef α → Except ε (TypeRef β)
  | .named leaf => (f leaf).map .named
  | .list item => (item.mapM f).map .list
  | .nonNull inner => (inner.mapM f).map .nonNull

/-- The text of a type, with its leaf written by `leafText`. -/
def textWith (leafText : α → String) : TypeRef α → String
  | .named leaf => leafText leaf
  | .list item => "[" ++ item.textWith leafText ++ "]"
  | .nonNull inner => inner.textWith leafText ++ "!"

/-- The text of a type whose leaf is a name. -/
def text (type : TypeRef String) : String :=
  type.textWith id

/-- **Normal form**: no non-null wrapping stands directly inside another one. -/
def Normal : TypeRef α → Prop
  | .named _ => True
  | .list item => item.Normal
  | .nonNull inner => inner.isNonNull = false ∧ inner.Normal

end TypeRef

end SchemaModel
