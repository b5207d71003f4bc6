import SchemaModel.Failure
import SchemaModel.Sdl.Parser

/-! # The Grammar of Schema Definition Text

    One parser per kind of phrase, from values and types up to whole documents.

    * **value** and **typeRef** count the brackets and braces that may still be opened.
    * **description**: a string in front of a definition or a member is checked and dropped.
    * **entry**: a definition or an extension. What is extended is read like a definition, but it
      neither counts as the schema block nor gives an operation its root type.
    * **readValue** and **read**: whole sources.
-/

namespace SchemaModel.Sdl

open SchemaModel.Sdl.Parser

/-! ## Values and Types -/

/-- The characters of a literal between its quotes, of which `width` stand at each end. -/
def literalBody (width : Nat) (text : String) : List Char :=
  let cs := text.toList
  (cs.drop width).take (cs.length - 2 * width)

/-- The entry of an object value. -/
def objectEntry (value : Parser Value) : Parser (String × Value) := do
  let key ← name
  expectMark .colon
  return (key.text, ← value)

/-- A value in which up to `levels` brackets and braces may be open at once. -/
def value (levels : Nat) : Parser Value := do
  match (← get).tokens with
  | [] => unexpected .value
  | token :: _ =>
    match token.kind with
    | .int => advance; return .int token.text
    | .float => advance; return .float token.text
    | .string =>
      match unquote (literalBody 1 token.text) with
      | .ok contents => advance; return .string (String.ofList contents)
      | .error fault => fail (.escape fault)
    | .blockString =>
      advance
      return .string (String.ofList (blockContents (literalBody 3 token.text)))
    | .keyword .trueValue => advance; return .boolean true
    | .keyword .falseValue => advance; return .boolean false
    | .keyword .nullValue => advance; return .null
    | .name | .keyword _ => advance; return .enum token.text
    | .punctuator .bracketOpen =>
      match levels with
      | 0 => fail .nestedTooDeep
      | levels + 1 =>
        advance
        return .list (← itemsUntil .bracketClose (value levels))
    | .punctuator .braceOpen =>
      match levels with
      | 0 => fail .nestedTooDeep
      | levels + 1 =>
        advance
        return .object (← itemsUntil .braceClose (objectEntry (value levels)))
    | .punctuator _ => unexpected .value

/-- A bang after a type makes it non-null. -/
def bang (type : TypeRef String) : Parser (TypeRef String) := do
  if ← eatMark .bang then return .nonNull type else return type

/-- A type in which up to `levels` brackets may be open at once. -/
def typeRef (levels : Nat) : Parser (TypeRef String) := do
  match (← get).tokens with
  | [] => unexpected .type
  | token :: _ =>
    if token.kind = .punctuator .bracketOpen then
      match levels with
      | 0 => fail .nestedTooDeep
      | levels + 1 =>
        advance
        let item ← typeRef levels
        expectMark .bracketClose
        bang (.list item)
    else if token.kind.isName then
      let leaf ← name
      bang (.named leaf.text)
    else unexpected .type

/-! ## Descriptions and Directives -/

/-- A description, if one is next. Its escapes are checked. -/
def description : Parser Unit := do
  match ← nextKind with
  | some .string => discard (value nestingLimit)
  | some .blockString => advance
  | _ => return ()

/-- The use of a directive, which lies at its at sign. -/
def directive : Parser Name := do
  let offset ← nextOffset
  advance
  let directive ← name
  let _ ← optionalItems .parenOpen .parenClose (objectEntry (value nestingLimit))
  unless isCoreDirective directive.text do
    meet ⟨.directive, directive.text, offset⟩
  return ⟨directive.text, offset⟩

/-- The directives that are next. -/
def directives : Parser (List Name) :=
  repeatWhile (·.isAt .atSign) directive

/-! ## Members -/

/-- An argument or a field of an input type. -/
def inputValueDef : Parser InputValueDef := do
  description
  let key ← name
  expectMark .colon
  let type ← typeRef nestingLimit
  let defaultValue ← if ← eatMark .equals then some <$> value nestingLimit else pure none
  return ⟨key, type, defaultValue, ← directives⟩

/-- The arguments in parentheses, if any. -/
def argumentDefs : Parser (List InputValueDef) :=
  optionalItems .parenOpen .parenClose inputValueDef

/-- A field of an object or interface. -/
def fieldDef : Parser FieldDef := do
  description
  let key ← name
  let args ← argumentDefs
  expectMark .colon
  let type ← typeRef nestingLimit
  return ⟨key, args, type, ← directives⟩

/-- The fields in braces, if any. -/
def fieldDefs : Parser (List FieldDef) :=
  optionalItems .braceOpen .braceClose fieldDef

/-- A value of an enum, which is not named like a Boolean or null. -/
def enumValueDef : Parser EnumValueDef := do
  description
  match ← nextKind with
  | some (.keyword .trueValue) => fail (.reservedEnumValue Keyword.trueValue.text)
  | some (.keyword .falseValue) => fail (.reservedEnumValue Keyword.falseValue.text)
  | some (.keyword .nullValue) => fail (.reservedEnumValue Keyword.nullValue.text)
  | _ =>
    let key ← name
    return ⟨key, ← directives⟩

/-- The interfaces that a type implements, if any. An ampersand may stand in front of the first
    one. -/
def implementedInterfaces : Parser (List Name) := do
  if ← eat (.keyword .implements) then
    let _ ← eatMark .ampersand
    separatedBy .ampersand do
      let interface ← name
      meet ⟨.implements, interface.text, interface.offset⟩
      return interface
  else return []

/-- The operation that a keyword stands for. -/
def operationOf? : TokenKind → Option RootOperation
  | .keyword .query => some .query
  | .keyword .mutation => some .mutation
  | .keyword .subscription => some .subscription
  | _ => none

/-- The root type of an operation, which must not have one already. -/
def rootOperation : Parser (RootOperation × String) := do
  let s ← get
  match s.kind?.bind operationOf? with
  | none => unexpected .rootOperation
  | some operation =>
    advance
    expectMark .colon
    let type ← name
    if (← get).operations.contains operation then
      failAt s.span (.operationRepeated operation)
    else
      modify fun s => { s with operations := operation :: s.operations }
      return (operation, type.text)

/-! ## Definitions -/

/-- A schema block. There is at most one. -/
def schemaDefinition : Parser Definition := do
  if (← get).schemaSeen then fail .schemaRepeated
  let offset ← nextOffset
  advance
  let directives ← directives
  let operations ← optionalItems .braceOpen .braceClose rootOperation
  modify fun s => { s with schemaSeen := true }
  return ⟨offset, Keyword.schema.text, directives, .schema operations⟩

/-- An object type. -/
def objectDefinition : Parser Definition := do
  let offset ← nextOffset
  advance
  let key ← name
  let interfaces ← implementedInterfaces
  let directives ← directives
  return ⟨offset, key.text, directives, .object interfaces (← fieldDefs)⟩

/-- An interface. -/
def interfaceDefinition : Parser Definition := do
  let offset ← nextOffset
  advance
  let key ← name
  let interfaces ← implementedInterfaces
  let directives ← directives
  let fields ← fieldDefs
  meet ⟨.interface, key.text, offset⟩
  return ⟨offset, key.text, directives, .interface interfaces fields⟩

/-- Names with a pipe between them, and perhaps one in front. -/
def pipedNames : Parser (List Name) := do
  let _ ← eatMark .pipe
  separatedBy .pipe name

/-- A union. -/
def unionDefinition : Parser Definition := do
  let offset ← nextOffset
  advance
  let key ← name
  let directives ← directives
  let members ← if ← eatMark .equals then pipedNames else pure []
  meet ⟨.union, key.text, offset⟩
  return ⟨offset, key.text, directives, .union members⟩

/-- An enum. -/
def enumDefinition : Parser Definition := do
  let offset ← nextOffset
  advance
  let key ← name
  let directives ← directives
  let values ← optionalItems .braceOpen .braceClose enumValueDef
  return ⟨offset, key.text, directives, .enum values⟩

/-- An input type. -/
def inputDefinition : Parser Definition := do
  let offset ← nextOffset
  advance
  let key ← name
  let directives ← directives
  let fields ← optionalItems .braceOpen .braceClose inputValueDef
  return ⟨offset, key.text, directives, .input fields⟩

/-- A scalar. -/
def scalarDefinition : Parser Definition := do
  let offset ← nextOffset
  advance
  let key ← name
  return ⟨offset, key.text, ← directives, .scalar⟩

/-- A directive definition. -/
def directiveDefinition : Parser Definition := do
  let offset ← nextOffset
  advance
  expectMark .atSign
  let key ← name
  let args ← argumentDefs
  let _ ← eat (.keyword .repeatable)
  expect (.keyword .onLocation)
  let locations ← pipedNames
  meet ⟨.directiveDefinition, key.text, offset⟩
  return ⟨offset, key.text, [], .directive args locations⟩

/-- The parser for the definition that a keyword begins, among those that can be extended. -/
def extensibleDefinition? : TokenKind → Option (Parser Definition)
  | .keyword .schema => some schemaDefinition
  | .keyword .type => some objectDefinition
  | .keyword .interface => some interfaceDefinition
  | .keyword .union => some unionDefinition
  | .keyword .enum => some enumDefinition
  | .keyword .input => some inputDefinition
  | .keyword .scalar => some scalarDefinition
  | _ => none

/-! ## Documents -/

/-- An extension. What is skipped inside it, the schema block and the root types stay as they were
    before it. -/
def extension : Parser Entry := do
  let offset ← nextOffset
  advance
  let before ← get
  match before.kind?.bind extensibleDefinition? with
  | none => unexpected .extendedDefinition
  | some definition =>
    set { before with schemaSeen := false }
    let extended ← definition
    modify fun s => { s with
      skipped := before.skipped, operations := before.operations, schemaSeen := before.schemaSeen }
    meet ⟨.extension, extended.name, offset⟩
    return .extension offset extended

/-- An item of a document. -/
def entry : Parser Entry := do
  description
  match ← nextKind with
  | some (.keyword .extend) => extension
  | some (.keyword .directive) => .definition <$> directiveDefinition
  | kind? =>
    match kind?.bind extensibleDefinition? with
    | some definition => .definition <$> definition
    | none => unexpected .definition

/-- A whole document. -/
def document : Parser Document := do
  checkNext
  repeatWhile (fun s => !s.tokens.isEmpty) entry

/-- A single value that makes up the whole source. -/
def loneValue : Parser Value := do
  checkNext
  let value ← value nestingLimit
  unless (← get).tokens.isEmpty do unexpected .endOfInput
  return value

/-- Reads a source as a single value. -/
def readValue (source : String) : Except PlacedFault Value :=
  match loneValue (.start .skip (.ofSource source)) with
  | .ok value _ => .ok value
  | .error fault _ => .error (fault.placed (.ofText source.toList))

/-- The failure that a fault comes to. -/
def SourceFault.failure (lines : LineTable) (fault : SourceFault) : Failure :=
  match fault.fault with
  | .refused usage => .unsupported (usage.skipped lines)
  | _ => .malformedText (fault.placed lines)

/-- Reads a schema from definition text under a policy. -/
def read (policy : Policy) (source : String) : Except Failure Schema :=
  let lines := LineTable.ofText source.toList
  match document (.start policy (.ofSource source)) with
  | .ok tree s => .ok (tree.toSchema lines s.skipped)
  | .error fault _ => .error (fault.failure lines)

end SchemaModel.Sdl
