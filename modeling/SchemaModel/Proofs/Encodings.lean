import SchemaModel.Proofs.DocumentWriting
import SchemaModel.Proofs.SourceWriting
import SchemaModel.Proofs.Strictness

/-! # The Two Encodings

    A schema may be written as definition text or as an introspection document. Compilations do not
    tell which of them was written, or how.

    * **compileDocument**: the compilation of a document that is a JSON value already.
    * **encodings_agree**: a text and a document that write the same outline are compiled alike. -/

namespace SchemaModel

/-! ## Documents as Values -/

/-- Compiles the schema inside a document. -/
def compileDocument (options : Options) (document : Json) : Except Failure Compilation := do
  compileSchema options (← Introspection.readValue options.policy document)

/-- To compile the text of a document is to compile the document. -/
theorem compile_introspection {text : String} {document : Json} (h : Json.read text = .ok document)
    (options : Options) :
    compile options .introspection text = compileDocument options document := by
  have hread : readSource .introspection options.policy text =
      Introspection.readValue options.policy document := by
    show Introspection.readText options.policy text = _
    unfold Introspection.readText
    rw [h]
  unfold compile compileDocument
  rw [hread]

/-! ## Main Result -/

/-- **Agreement of the encodings**: a text and a document that write the same outline are compiled
    alike, under all options. This holds for the document as a value and for every text of it. -/
theorem encodings_agree {outline : Outline} {source : String} {document : Json}
    (hnames : ∀ type ∈ outline.types, ¬Introspection.isMetaName type.name)
    (hsource : Sdl.Writes source outline) (hdocument : Introspection.Writes document outline)
    (options : Options) :
    SameOutcome (compile options .sdl source) (compileDocument options document) ∧
      ∀ text, Json.read text = .ok document →
        SameOutcome (compile options .sdl source) (compile options .introspection text) := by
  -- neither reading keeps more of the outline than its content
  have htext : Tells (Sdl.read .skip source) outline.content := Sdl.tells_of_writes hsource
  have hvalue : Tells (Introspection.readValue .skip document) outline.content :=
    Introspection.tells_of_writes hdocument hnames
  have htextStrict : ReadsStrictly fun policy => Sdl.read policy source :=
    (strictReading_read source).accepted
  have hvalueStrict : ReadsStrictly fun policy => Introspection.readValue policy document :=
    (strictReading_readValue document).accepted
  have hsame : SameOutcome (compile options .sdl source) (compileDocument options document) :=
    sameOutcome_of_tells htext htextStrict hvalue hvalueStrict options
  refine ⟨hsame, fun text hread => ?_⟩
  rwa [compile_introspection hread]

/-! ## A Clock -/

/-- A query with an argument that has a default, an enum, a custom scalar and a union. -/
def clockOutline : Outline where
  types := [
    ⟨"Query", .object [] [⟨"now",
      [⟨"in", .list (.nonNull (.named "Zone")), some (.list [.enum "UTC"])⟩],
      .nonNull (.named "Time")⟩]⟩,
    ⟨"Zone", .enum ["UTC", "TAI"]⟩,
    ⟨"Time", .scalar⟩,
    ⟨"Any", .union ["Query"]⟩]
  query := "Query"
  mutation := none
  subscription := none

/-- The clock as text, with the types in another order. -/
def clockText : String :=
  "union Any=Query schema\x7bquery:Query\x7d enum Zone\x7bUTC TAI\x7d " ++
    "type Query\x7bnow(in:[Zone!]=[UTC]):Time!\x7d scalar Time"

namespace Sdl

/-- A punctuator at a place. -/
theorem lone_mark (mark : Punctuator) (start : Nat) :
    Lone (.punctuator mark)
      [⟨.punctuator mark, ⟨start, start + 1⟩, mark.char.toString⟩] := ⟨_, rfl, rfl⟩

theorem name_at (text : String) (start : Nat) :
    NamePhrase [⟨.name, ⟨start, start + text.utf8ByteSize⟩, text⟩] ⟨text, start⟩ := .intro rfl

theorem keyword_at (word : Keyword) (start : Nat) :
    (Token.mk (.keyword word) ⟨start, start + word.text.utf8ByteSize⟩ word.text).kind =
      .keyword word := rfl

/-- The tree of the text of the clock. -/
def clockTree : Document :=
  let zone : TypeRef String := .list (.nonNull (.named "Zone"))
  let argument : InputValueDef := ⟨⟨"in", 70⟩, zone, some (.list [.enum "UTC"]), []⟩
  [.definition ⟨0, "Any", [], .union [⟨"Query", 10⟩]⟩,
   .definition ⟨16, "schema", [], .schema [(.query, "Query")]⟩,
   .definition ⟨36, "Zone", [], .enum [⟨⟨"UTC", 46⟩, []⟩, ⟨⟨"TAI", 50⟩, []⟩]⟩,
   .definition ⟨55, "Query", [],
     .object [] [⟨⟨"now", 66⟩, [argument], .nonNull (.named "Time"), []⟩]⟩,
   .definition ⟨95, "Time", [], .scalar⟩]

theorem documentPhrase_clockText :
    DocumentPhrase (Feed.ofSource clockText).tokens clockTree := by
  -- item by item in the order of the text, each from the inside out
  have hunion := EntryPhrase.type .absent (TypePhrase.union (keyword_at .union 0) (name_at "Any" 6)
    .nil (.present (lone_mark .equals 9) (.intro (.inl rfl) (.intro (name_at "Query" 10) .nil))))
  have hschema := EntryPhrase.schema .absent (.intro (keyword_at .schema 16) .nil
    (.present (lone_mark .braceOpen 22) (.cons (.intro
      (show operationOf? (Token.mk (.keyword .query) ⟨23, 28⟩ "query").kind = some .query from rfl)
      (lone_mark .colon 28) (name_at "Query" 29)) .nil) (lone_mark .braceClose 34)))
  have hvalue : ∀ text start, EnumValuePhrase
      [⟨.name, ⟨start, start + text.utf8ByteSize⟩, text⟩] ⟨⟨text, start⟩, []⟩ :=
    fun text start => .intro .absent rfl rfl .nil
  have henum := EntryPhrase.type .absent (TypePhrase.enum (keyword_at .enum 36)
    (name_at "Zone" 41) .nil (.present (lone_mark .braceOpen 45)
      (.cons (hvalue "UTC" 46) (.cons (hvalue "TAI" 50) .nil)) (lone_mark .braceClose 53)))
  have htype : TypeRefPhrase nestingLimit _ _ := .plain (.list (lone_mark .bracketOpen 73)
    (.nonNull (.named (name_at "Zone" 74)) (lone_mark .bang 78)) (lone_mark .bracketClose 79))
  have hdefault : ValuePhrase nestingLimit _ _ := .list (lone_mark .bracketOpen 81)
    (.cons (.plain (.enum (show (Token.mk .name ⟨82, 85⟩ "UTC").kind.isName from rfl)
      (by decide) (by decide) (by decide))) .nil) (lone_mark .bracketClose 85)
  have hargument := InputValuePhrase.intro .absent (name_at "in" 70) (lone_mark .colon 72) htype
    (.present (lone_mark .equals 80) hdefault) .nil
  have htime : TypeRefPhrase nestingLimit _ _ :=
    .nonNull (.named (name_at "Time" 88)) (lone_mark .bang 92)
  have hfield := FieldPhrase.intro .absent (name_at "now" 66) (.present (lone_mark .parenOpen 69)
    (.cons hargument .nil) (lone_mark .parenClose 86)) (lone_mark .colon 87) htime .nil
  have hobject := EntryPhrase.type .absent (TypePhrase.object (keyword_at .type 55)
    (name_at "Query" 60) .absent .nil (.present (lone_mark .braceOpen 65) (.cons hfield .nil)
      (lone_mark .braceClose 93)))
  have hscalar := EntryPhrase.type .absent (TypePhrase.scalar (keyword_at .scalar 95)
    (name_at "Time" 102) .nil)
  have hitems := Many.cons hunion (.cons hschema (.cons henum (.cons hobject (.cons hscalar .nil))))
  refine ⟨?_, by decide, by decide⟩
  exact Eq.subst (motive := fun ts => Many EntryPhrase ts clockTree) (by decide +kernel) hitems

/-- The text writes the clock. -/
theorem writes_clockText : Writes clockText clockOutline := by
  refine ⟨by decide +kernel, clockTree, documentPhrase_clockText, ?_, by decide⟩
  refine ⟨⟨16, "schema", [], .schema [(.query, "Query")]⟩, [(.query, "Query")],
    [⟨55, "Query", [], .object [] [⟨⟨"now", 66⟩,
        [⟨⟨"in", 70⟩, .list (.nonNull (.named "Zone")), some (.list [.enum "UTC"]), []⟩],
        .nonNull (.named "Time"), []⟩]⟩,
      ⟨36, "Zone", [], .enum [⟨⟨"UTC", 46⟩, []⟩, ⟨⟨"TAI", 50⟩, []⟩]⟩,
      ⟨95, "Time", [], .scalar⟩, ⟨0, "Any", [], .union [⟨"Query", 10⟩]⟩], ?_, rfl, .refl _, rfl⟩
  decide

end Sdl

/-- A link of a type reference. -/
def clockLink (kind name : String) : Json :=
  .object [("kind", .string kind), ("name", .string name)]

/-- A link around another one. -/
def clockWrapper (kind : String) (inner : Json) : Json :=
  .object [("kind", .string kind), ("ofType", inner)]

/-- The clock as a document. -/
def clockDocument : Json :=
  let zone := clockWrapper "LIST" (clockWrapper "NON_NULL" (clockLink "ENUM" "Zone"))
  let argument : Json := .object
    [("defaultValue", .string "[UTC]"), ("name", .string "in"), ("type", zone)]
  let now : Json := .object [("args", .array [argument]), ("name", .string "now"),
    ("type", clockWrapper "NON_NULL" (clockLink "SCALAR" "Time"))]
  let schema : Json := .object
    [("directives", .array [.object [("name", .string "skip")]]),
     ("mutationType", .null),
     ("queryType", .object [("name", .string "Query")]),
     ("types", .array [
       clockLink "SCALAR" "String",
       .object [("enumValues", .array [.object [("name", .string "TAI")],
         .object [("name", .string "UTC")]]), ("kind", .string "ENUM"), ("name", .string "Zone")],
       clockLink "UNION" "Any",
       .object [("fields", .array [now]), ("kind", .string "OBJECT"), ("name", .string "Query")],
       clockLink "SCALAR" "Time",
       clockLink "SCALAR" "__Type"])]
  .object [("__schema", schema)]

namespace Introspection

/-- The document writes the clock, with the values of the enum in another order and with two types
    more. -/
theorem writes_clockDocument : Writes clockDocument clockOutline := by
  have hbare : ∀ kind name,
      Lacks (clockLink kind name) "fields" ∧ Lacks (clockLink kind name) "inputFields" ∧
        Lacks (clockLink kind name) "enumValues" ∧ Lacks (clockLink kind name) "interfaces" :=
    fun _ _ => ⟨.inl rfl, .inl rfl, .inl rfl, .inl rfl⟩
  have hscalar : ∀ name, WritesEntry (clockLink "SCALAR" name) ⟨name, .scalar⟩ :=
    fun name => ⟨rfl, rfl, hbare "SCALAR" name⟩
  have hunion : WritesEntry (clockLink "UNION" "Any") ⟨"Any", .union ["Query"]⟩ :=
    ⟨rfl, rfl, hbare "UNION" "Any"⟩
  have hleaf : ∀ kind name, kind.isWrapper = false →
      WritesType (clockLink (TypeKind.text kind) name) (.named name) :=
    fun _ _ hkind => .named hkind rfl rfl (.inl rfl)
  have hwrapped : ∀ kind inner, Lacks (clockWrapper kind inner) "name" := fun _ _ => .inl rfl
  refine .schemaKey rfl rfl ⟨⟨_, rfl, rfl⟩, .inr rfl, .inl rfl, ?_, ?_⟩
  · refine ⟨[⟨"String", .scalar⟩, ⟨"Zone", .enum ["UTC", "TAI"]⟩, ⟨"Any", .union ["Query"]⟩,
      clockOutline.types.head (by decide), ⟨"Time", .scalar⟩, ⟨"__Type", .scalar⟩],
      [⟨"String", .scalar⟩, ⟨"__Type", .scalar⟩], ⟨_, rfl, _, rfl, ?_⟩, by decide, by decide⟩
    refine .cons (hscalar "String") (.cons ?_ (.cons hunion (.cons ?_
      (.cons (hscalar "Time") (.cons (hscalar "__Type") .nil)))))
    · -- the enum
      refine ⟨rfl, rfl, ⟨["TAI", "UTC"], by decide, ⟨_, rfl, _, rfl, ?_⟩⟩, ?_⟩
      · exact .cons rfl (.cons rfl .nil)
      · exact ⟨.inl rfl, .inl rfl, .inl rfl⟩
    · -- the query with its one field and the argument of it
      refine ⟨rfl, rfl, ⟨_, rfl, _, rfl, .cons ?_ .nil⟩, .inr ⟨rfl, .inl rfl⟩, .inl rfl, .inl rfl⟩
      refine ⟨rfl, ⟨_, rfl, _, rfl, .cons ?_ .nil⟩, _, rfl, ?_⟩
      · refine ⟨rfl, ⟨_, rfl, .list rfl (hwrapped _ _) rfl ?_⟩, "[UTC]", rfl, by decide +kernel⟩
        exact .nonNull rfl (hwrapped _ _) rfl (hleaf .enum "Zone" rfl) rfl
      · exact .nonNull rfl (hwrapped _ _) rfl (hleaf .scalar "Time" rfl) rfl
  · exact .inr ⟨["skip"], ⟨_, rfl, _, rfl, .cons rfl .nil⟩, by decide⟩

end Introspection

theorem encodings_agree_clock :
    (compile .standard .sdl clockText).isOk ∧
      SameOutcome (compile .standard .sdl clockText) (compileDocument .standard clockDocument) :=
  ⟨by decide +kernel, (encodings_agree (by decide) Sdl.writes_clockText
    Introspection.writes_clockDocument .standard).1⟩

end SchemaModel
