import SchemaModel.Text.HiddenTable
import SchemaModel.Text.Hex

/-! # Strings Quoted for a Reader

    A string inside a message stands between quotes, and every character that could not be seen
    there is written as an escape.
-/

namespace SchemaModel.Quoted

/-- Does the character leave no mark of its own? -/
def isHidden (c : Char) : Bool :=
  hiddenRanges.any fun (first, last) => first ≤ c.toNat && c.toNat ≤ last

/-- The spelling of one character inside quotes. -/
def quoteChar (c : Char) : List Char :=
  if c = '"' then ['\\', '"']
  else if c = '\\' then ['\\', '\\']
  else if c = '\n' then ['\\', 'n']
  else if c = '\r' then ['\\', 'r']
  else if c = '\t' then ['\\', 't']
  else if c.toNat = 0 then ['\\', '0']
  else if isHidden c then ['\\', 'u', '{'] ++ Hex.lower c.toNat ++ ['}']
  else [c]

/-- A string between quotes. -/
def quote (contents : String) : String :=
  String.ofList ('"' :: contents.toList.flatMap quoteChar ++ ['"'])

end SchemaModel.Quoted
