import SchemaModel.Decimal.Shortest
import SchemaModel.Json.Basic
import SchemaModel.Text.Hex

/-! # JSON Text

    Two layouts of the same text:

    * **compact**: without blanks, on one line.
    * **pretty**: one item or member to a line, indented by two more blanks than the brackets
      around it. Empty arrays and objects stay on their line.
-/

namespace SchemaModel.Json

/-- The spelling of one character inside quotes. -/
def quoteChar (c : Char) : List Char :=
  if c = '"' then ['\\', '"']
  else if c = '\\' then ['\\', '\\']
  else if c = '\x08' then ['\\', 'b']
  else if c = '\x0c' then ['\\', 'f']
  else if c = '\n' then ['\\', 'n']
  else if c = '\r' then ['\\', 'r']
  else if c = '\t' then ['\\', 't']
  else if c.toNat < 0x20 then
    '\\' :: 'u' :: (Hex.quad c.toNat).map Char.toLower
  else [c]

/-- A string between quotes. -/
def quote (contents : String) : String :=
  String.ofList ('"' :: contents.toList.flatMap quoteChar ++ ['"'])

/-- The text of a value that holds no others. -/
def atomText : Json → String
  | .boolean value => if value then "true" else "false"
  | .integer value => toString value
  | .real value => Decimal.floatText value
  | .string contents => quote contents
  | _ => "null"

mutual

/-- The text of a value on one line. -/
def compact : Json → String
  | .array items => "[" ++ ",".intercalate (compactItems items) ++ "]"
  | .object members => "\x7b" ++ ",".intercalate (compactMembers members) ++ "\x7d"
  | json => json.atomText

/-- The texts of the items of an array. -/
def compactItems : List Json → List String
  | [] => []
  | item :: items => item.compact :: compactItems items

/-- The texts of the members of an object. -/
def compactMembers : List (String × Json) → List String
  | [] => []
  | (key, value) :: members => (quote key ++ ":" ++ value.compact) :: compactMembers members

end

/-- A line break with the blanks of the given depth after it. -/
def lineBreak (depth : Nat) : String :=
  String.ofList ('\n' :: List.replicate (2 * depth) ' ')

/-- Lines between an opening and a closing bracket, or the brackets alone if there are none. -/
def bracketed (depth : Nat) (opening closing : String) (lines : List String) : String :=
  if lines.isEmpty then opening ++ closing
  else
    opening ++ lineBreak (depth + 1) ++ ("," ++ lineBreak (depth + 1)).intercalate lines ++
      lineBreak depth ++ closing

mutual

/-- The text of a value over several lines, of which the first one is indented elsewhere. -/
def prettyAt (depth : Nat) : Json → String
  | .array items => bracketed depth "[" "]" (prettyItems (depth + 1) items)
  | .object members => bracketed depth "\x7b" "\x7d" (prettyMembers (depth + 1) members)
  | json => json.atomText

/-- The texts of the items of an array. -/
def prettyItems (depth : Nat) : List Json → List String
  | [] => []
  | item :: items => item.prettyAt depth :: prettyItems depth items

/-- The texts of the members of an object. -/
def prettyMembers (depth : Nat) : List (String × Json) → List String
  | [] => []
  | (key, value) :: members =>
    (quote key ++ ": " ++ value.prettyAt depth) :: prettyMembers depth members

end

/-- The text of a value over several lines. -/
def pretty (json : Json) : String := json.prettyAt 0

end SchemaModel.Json
