import SchemaModel.Failure

/-! # Scalar Targets

    The types of the generated code that scalars stand for.

    * **split** and **trim**: the parts of a text between separators, and a text without the blanks at
      either end.
    * **ScalarTarget**: a type name. A bang after it marks a value type, which has no null.
    * **ScalarTable**: the targets of scalars by default.
    * **Overrides**: the targets that the user asks for. They are given as `Name=Target` pairs with
      commas between them, and of two pairs with one name the later one counts, in the place of
      the earlier one.
    * **Options**: everything that a compilation depends on besides its source.
-/

namespace SchemaModel

/-! ## Parts of Texts -/

/-- The parts of a text between separators. There is one part more than there are separators, and a
    part may be empty. -/
def Separated.split (separator : Char) : List Char → List (List Char)
  | [] => [[]]
  | c :: cs =>
    if c = separator then [] :: split separator cs
    else (split separator cs).modifyHead (c :: ·)

namespace Blank

/-- Does the character count as white space, in any script? -/
def isBlank (c : Char) : Bool :=
  let code := c.toNat
  (0x9 ≤ code && code ≤ 0xd) || code == 0x20 || code == 0x85 || code == 0xa0 || code == 0x1680 ||
    (0x2000 ≤ code && code ≤ 0x200a) || code == 0x2028 || code == 0x2029 || code == 0x202f ||
    code == 0x205f || code == 0x3000

/-- Drops the blanks at either end. -/
def trim (cs : List Char) : List Char :=
  ((cs.dropWhile isBlank).reverse.dropWhile isBlank).reverse

end Blank

/-! ## Targets -/

/-- A type of the generated code. -/
structure ScalarTarget where
  name : String
  /-- Is it a type without null? -/
  valueType : Bool
  deriving Repr, DecidableEq

/-- Reads a target. A bang at the end marks a value type. -/
def ScalarTarget.ofText (text : String) : ScalarTarget :=
  let cs := text.toList
  if cs.getLast? = some '!' then ⟨String.ofList cs.dropLast, true⟩ else ⟨text, false⟩

/-- The text of a target. -/
def ScalarTarget.text (target : ScalarTarget) : String :=
  if target.valueType then target.name ++ "!" else target.name

/-- Sets the value of a key. A new key goes to the end, and a known one stays where it is. -/
def setEntry {α : Type} (key : String) (value : α) : List (String × α) → List (String × α)
  | [] => [(key, value)]
  | (other, old) :: rest =>
    if other = key then (key, value) :: rest else (other, old) :: setEntry key value rest

/-! ## Tables -/

/-- Targets of scalars by name. -/
abbrev ScalarTable := List (String × ScalarTarget)

/-- The table without entries. -/
def ScalarTable.empty : ScalarTable := []

/-- The targets of the built-in scalars. -/
def ScalarTable.builtin : ScalarTable :=
  [("String", .ofText "String"), ("ID", .ofText "ID"), ("Int", .ofText "Int!"),
   ("Float", .ofText "Float!"), ("Boolean", .ofText "Boolean")]

/-! ## Overrides -/

/-- The targets that the user asks for, in the order in which their names were first given. -/
abbrev Overrides := List (String × ScalarTarget)

namespace Overrides

/-- Reads a single pair without blanks around it. It is cut at its first equals sign. -/
def readPair (pair : List Char) : Except OverrideFault (String × ScalarTarget) :=
  match pair.dropWhile (· ≠ '=') with
  | [] => .error .missingEquals
  | _ :: right =>
    let name := Blank.trim (pair.takeWhile (· ≠ '='))
    let target := Blank.trim right
    if name.isEmpty then .error .emptyName
    else if target.isEmpty || target = ['!'] then .error .emptyTarget
    else .ok (String.ofList name, .ofText (String.ofList target))

/-- Reads pairs on top of earlier ones. Empty parts are passed over. -/
def readPairs (overrides : Overrides) : List (List Char) → Except Failure Overrides
  | [] => .ok overrides
  | part :: parts =>
    let pair := Blank.trim part
    if pair.isEmpty then readPairs overrides parts
    else
      match readPair pair with
      | .ok (name, target) => readPairs (setEntry name target overrides) parts
      | .error fault => .error (.invalidOverride (String.ofList pair) fault)

/-- Reads a list of pairs. -/
def read (text : String) : Except Failure Overrides :=
  readPairs [] (Separated.split ',' text.toList)

end Overrides

/-! ## Options -/

/-- What a compilation depends on besides its source. -/
structure Options where
  overrides : Overrides
  table : ScalarTable
  /-- The target of declared scalars that nothing else gives one. -/
  fallback : ScalarTarget
  policy : Policy
  deriving Repr, DecidableEq

namespace Options

/-- No overrides, the built-in table, and strings for all other scalars. -/
def standard : Options := ⟨[], .builtin, .ofText "String", .skip⟩

/-- The same options with one more override. -/
def withOverride (options : Options) (name target : String) : Options :=
  { options with overrides := setEntry name (.ofText target) options.overrides }

/-- The target that the user asks for. -/
def override? (options : Options) (name : String) : Option ScalarTarget :=
  options.overrides.lookup name

/-- The target of a scalar that an override or the table gives. -/
def listed? (options : Options) (name : String) : Option ScalarTarget :=
  (options.override? name).or (options.table.lookup name)

/-- The target of a built-in scalar. Its own name is the last resort. -/
def builtinTarget (options : Options) (name : String) : ScalarTarget :=
  (options.listed? name).getD ⟨name, false⟩

/-- The target of a declared scalar. The fallback is the last resort. -/
def customTarget (options : Options) (name : String) : ScalarTarget :=
  (options.listed? name).getD options.fallback

end Options

end SchemaModel
