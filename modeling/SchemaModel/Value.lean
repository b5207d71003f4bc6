import SchemaModel.Text.Hex

/-! # Literal Values

    The constant values that a schema gives as defaults, and the text in which they are written.

    * **Numbers** keep the text of their literal, so that two spellings stay apart and none is
      ever rounded.
    * **Objects** keep their entries in the order of the source, repeated names included.
    * **Text**: strings are quoted, with quotes, backslashes and control characters escaped.
    * **Sameness**: a structural comparison, from which equality of values is decidable.
-/

namespace SchemaModel

/-- A constant value. -/
inductive Value where
  | int (digits : String)
  | float (digits : String)
  /-- A string, given by its contents and not by its spelling. -/
  | string (contents : String)
  | boolean (value : Bool)
  | null
  | enum (name : String)
  | list (items : List Value)
  | object (entries : List (String × Value))
  deriving Repr, Inhabited

namespace Value

/-! ## Text -/

/-- Is the character a control character, of the first or of the second block? -/
def isControl (c : Char) : Bool :=
  c.toNat < 0x20 || (0x7F ≤ c.toNat && c.toNat < 0xA0)

/-- The spelling of one character inside quotes. -/
def quoteChar (c : Char) : List Char :=
  if c = '"' then ['\\', '"']
  else if c = '\\' then ['\\', '\\']
  else if c = '\n' then ['\\', 'n']
  else if c = '\r' then ['\\', 'r']
  else if c = '\t' then ['\\', 't']
  else if isControl c then '\\' :: 'u' :: Hex.quad c.toNat
  else [c]

/-- A string between quotes, with every character that needs it escaped. -/
def quote (contents : String) : String :=
  String.ofList ('"' :: contents.toList.flatMap quoteChar ++ ['"'])

mutual

/-- The text of a value. -/
def text : Value → String
  | .int digits => digits
  | .float digits => digits
  | .string contents => quote contents
  | .boolean value => if value then "true" else "false"
  | .null => "null"
  | .enum name => name
  | .list items => "[" ++ ", ".intercalate (itemTexts items) ++ "]"
  | .object entries => "\x7b" ++ ", ".intercalate (entryTexts entries) ++ "\x7d"

/-- The texts of the items of a list. -/
def itemTexts : List Value → List String
  | [] => []
  | item :: items => item.text :: itemTexts items

/-- The texts of the entries of an object. -/
def entryTexts : List (String × Value) → List String
  | [] => []
  | (name, value) :: entries => (name ++ ": " ++ value.text) :: entryTexts entries

end

/-! ## Sameness -/

mutual

/-- Are the two values the same? -/
def same : Value → Value → Bool
  | .int a, .int b => a == b
  | .float a, .float b => a == b
  | .string a, .string b => a == b
  | .boolean a, .boolean b => a == b
  | .null, .null => true
  | .enum a, .enum b => a == b
  | .list as, .list bs => sameItems as bs
  | .object as, .object bs => sameEntries as bs
  | _, _ => false

/-- Are the two lists the same, item by item? -/
def sameItems : List Value → List Value → Bool
  | [], [] => true
  | a :: as, b :: bs => a.same b && sameItems as bs
  | _, _ => false

/-- Are the two objects the same, entry by entry and in the same order? -/
def sameEntries : List (String × Value) → List (String × Value) → Bool
  | [], [] => true
  | (m, a) :: as, (n, b) :: bs => m == n && a.same b && sameEntries as bs
  | _, _ => false

end

mutual

theorem same_iff (a b : Value) : a.same b = true ↔ a = b := by
  cases a <;> cases b <;> simp [same, sameItems_iff, sameEntries_iff]

theorem sameItems_iff (as bs : List Value) : sameItems as bs = true ↔ as = bs := by
  match as, bs with
  | [], [] => simp [sameItems]
  | [], _ :: _ => simp [sameItems]
  | _ :: _, [] => simp [sameItems]
  | a :: as, b :: bs => simp [sameItems, same_iff a b, sameItems_iff as bs]

theorem sameEntries_iff (as bs : List (String × Value)) : sameEntries as bs = true ↔ as = bs := by
  match as, bs with
  | [], [] => simp [sameEntries]
  | [], _ :: _ => simp [sameEntries]
  | _ :: _, [] => simp [sameEntries]
  | (m, a) :: as, (n, b) :: bs =>
    simp [sameEntries, same_iff a b, sameEntries_iff as bs]

end

instance : DecidableEq Value :=
  fun a b => decidable_of_iff _ (same_iff a b)

end Value

end SchemaModel
