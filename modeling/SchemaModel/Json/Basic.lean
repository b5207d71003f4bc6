/-! # JSON Values

    * **Json**: a value. Integers are kept apart from other numbers, and objects list their members
      in a definite order.
    * **ofMembers**: an object as it is read. Its members are sorted by key, and of a repeated key
      the last value counts.
    * **sortKeys**: the same value with the members of every object sorted.
-/

namespace SchemaModel

/-- A JSON value. -/
inductive Json where
  | null
  | boolean (value : Bool)
  | integer (value : Int)
  /-- A number with a fraction or an exponent, or one too large for an integer. -/
  | real (value : Float)
  | string (contents : String)
  | array (items : List Json)
  | object (members : List (String × Json))
  deriving Repr, Inhabited

namespace Json

/-- Puts a member in its place among sorted ones, in place of one with the same key. -/
def insertMember (key : String) (value : Json) : List (String × Json) → List (String × Json)
  | [] => [(key, value)]
  | (other, old) :: rest =>
    if key < other then (key, value) :: (other, old) :: rest
    else if key = other then (key, value) :: rest
    else (other, old) :: insertMember key value rest

/-- The object with the given members, sorted by key. Of a repeated key the last value counts. -/
def ofMembers (members : List (String × Json)) : Json :=
  .object (members.foldl (fun sorted member => insertMember member.1 member.2 sorted) [])

/-- The value of a member of an object. -/
def member? : Json → String → Option Json
  | .object members, key => members.lookup key
  | _, _ => none

mutual

/-- The same value with the members of every object sorted by key. -/
def sortKeys : Json → Json
  | .array items => .array (sortItems items)
  | .object members => ofMembers (sortMembers members)
  | json => json

/-- Sorts the keys in every item of a list. -/
def sortItems : List Json → List Json
  | [] => []
  | item :: items => item.sortKeys :: sortItems items

/-- Sorts the keys in the value of every member. -/
def sortMembers : List (String × Json) → List (String × Json)
  | [] => []
  | (key, value) :: members => (key, value.sortKeys) :: sortMembers members

end

end Json

end SchemaModel
