import Mathlib.Data.List.Sublists
import SchemaModel.Proofs.Inventories
import SchemaModel.Proofs.SourceWriting
import SchemaModel.Proofs.Tiling

/-! # Conventional Roots

    Without a schema block, a source has the roots that a block would name by convention.

    * **Behind**: a source goes on with one more item, in the same text.
    * **In front**: what is in front of more text has the places that it has without it.
    * **ConventionalBlock**: a schema block that names the objects with the conventional names.
    * **Block behind**: a source without a schema block is read with a conventional one behind it as
      the same schema, but for the place of the roots. Every such source has one of them. -/

namespace SchemaModel

namespace Sdl

open Movable (move)

/-! ## Behind -/

/-- **Behind**: the second text goes on where the first one ends, and its tokens are those of the
    first one with the item `e` behind them. -/
structure Behind (source other : String) (e : Entry) : Prop where
  text : source.toList <+: other.toList
  tokens : ∃ ts, (Feed.ofSource other).tokens = (Feed.ofSource source).tokens ++ ts ∧ ItemPhrase ts e
  ending : (Feed.ofSource other).ending.fault = none

/-- The items that a source is parsed as. -/
def parsed? (source : String) : Option Document :=
  let feed := Feed.ofSource source
  if feed.ending.fault = none then acceptedItems? feed.tokens else none

theorem parsed?_eq_some {source : String} {items : Document} :
    parsed? source = some items ↔ (Feed.ofSource source).ending.fault = none ∧
      Many ItemPhrase (Feed.ofSource source).tokens items ∧ items.Admitted [] false := by
  simp [parsed?, acceptedItems?_eq_some]

/-- **Blockless**: the source has no schema block. It may have extensions of one. -/
def Blockless (source : String) : Prop :=
  ∀ items ∈ parsed? source, items.any Entry.isBlock = false

/-- The end of the input lies at the end of the text. -/
theorem endOfInput_of_mem {offset : Nat} {cs : List Char} {stop : Nat}
    (h : .endOfInput stop ∈ lexemesFrom offset cs) : stop = offset + byteLength cs := by
  rcases (tiles_lexemesFrom offset cs).of_mem h with hend | ⟨front, d, ds, -, hscan⟩
  · exact Lexeme.endOfInput.inj hend
  · unfold Lexeme.ofScan at hscan
    split at hscan <;> cases hscan

/-- In a line of its own behind a source, a text has the lexemes that it has alone, further on. -/
theorem lexemes_next_line {source : String} {ts : List Token} {stop : Nat}
    (h : lexemes source = ts.map .token ++ [.endOfInput stop]) :
    ∃ k, ∀ text : String, lexemes (source ++ " \n" ++ text) =
      ts.map .token ++ (lexemes text).map (move (· + k)) := by
  obtain ⟨front, back, hcs, hstart, k, hagain⟩ := lexemesFrom_resumed h
  -- the whole source is in front of its end
  have hstop := endOfInput_of_mem (h ▸ List.mem_append_right _ (List.mem_singleton_self _))
  obtain rfl : back = [] := by
    have hlength := congrArg byteLength hcs
    have hfront : stop = byteLength front := hstart
    rw [byteLength_append] at hlength
    exact byteLength_eq_zero.mp (by omega)
  refine ⟨k, fun text => ?_⟩
  have htext : (source ++ " \n" ++ text).toList = front ++ ' ' :: '\n' :: text.toList := by
    simp [hcs]
  have hshift := lexemesFrom_add k 0 text.toList
  rw [Nat.zero_add] at hshift
  rw [lexemes, htext, hagain, hshift]
  rfl

/-- A text that is one item when it is read alone is that item behind any source, in a line of its
    own. -/
theorem behind_of_lone {source text : String} {e : Entry}
    (hsource : (Feed.ofSource source).ending.fault = none) (htext : parsed? text = some [e]) :
    ∃ k, Behind source (source ++ " \n" ++ text) (move (· + k) e) := by
  obtain ⟨hfault, hitems, hadmitted⟩ := parsed?_eq_some.mp htext
  obtain ⟨stop, hlexemes⟩ := lexemes_of_fault_eq_none hfault
  obtain ⟨stop', hfront⟩ := lexemes_of_fault_eq_none hsource
  obtain ⟨k, hlines⟩ := lexemes_next_line hfront
  have hboth : lexemes (source ++ " \n" ++ text) = ((Feed.ofSource source).tokens ++
      move (· + k) (Feed.ofSource text).tokens).map .token ++ [.endOfInput (stop + k)] := by
    rw [hlines, hlexemes, List.map_append, map_move_token, List.map_append, List.append_assoc]
    rfl
  have hfeed := feed_of_lexemes hboth
  -- the item is parsed from the moved tokens as well
  have hmoved := document_moved (Feed.ofSource text) (· + k)
  rw [document_eq_ok_iff.mpr ⟨hfault, hitems, hadmitted, rfl⟩] at hmoved
  obtain ⟨-, hphrase, -, -⟩ := document_eq_ok_iff.mp hmoved
  exact ⟨k, by simp, ⟨_, congrArg Feed.tokens hfeed, many_singleton.mp hphrase⟩, by rw [hfeed]⟩

/-! ## In Front -/

/-- Offsets up to the end of a text have the same positions when it goes on. -/
theorem position_in_front (cs ds : List Char) (offset : Nat) :
    (LineTable.ofText (cs ++ ds)).position (min offset (byteLength cs)) =
      (LineTable.ofText cs).position offset := by
  rw [position_ofText, position_ofText, LineCol.walk_append_of_le (Nat.min_le_right _ _),
    LineCol.walk_min]

/-- The tokens of a source lie no further than its end. -/
theorem move_min_tokens (source : String) :
    move (min · (byteLength source.toList)) (Feed.ofSource source).tokens =
      (Feed.ofSource source).tokens := by
  have hsame : (lexemes source).map (move (min · (byteLength source.toList))) = lexemes source := by
    have hcongr : (lexemes source).map (move (min · (byteLength source.toList))) =
        (lexemes source).map (move id) :=
      lexemesFrom_map_congr fun n _ hn => Nat.min_eq_left (by omega)
    have hid : (move id : Lexeme → Lexeme) = id := funext fun l => by cases l <;> rfl
    rw [hcongr, hid, List.map_id]
  have hfeed := ofLexemes_map_move (min · (byteLength source.toList)) 0 source.toList
  exact congrArg Feed.tokens (hfeed.symm.trans (congrArg Feed.ofLexemes hsame))

/-- **In front**: a source that is read is the same schema with the positions of a longer text. -/
theorem schema_in_front {source : String} {schema : Schema} {items : Document}
    (hread : read .skip source = .ok schema)
    (hitems : Many ItemPhrase (Feed.ofSource source).tokens items) (rest : List Char) :
    schema = items.toSchema (LineTable.ofText (source.toList ++ rest))
      (items.flatMap Entry.usages) := by
  rw [← move_min_tokens] at hitems
  obtain ⟨found, usages, hfound, husages, rfl⟩ := read_moved hitems hread
  rw [← toSchema_move (position_in_front source.toList rest), hfound, husages]

/-! ## Conventional Blocks -/

/-- **Conventional blocks**: schema blocks that give an operation the type with its conventional
    name, for exactly those operations for which the first declaration of that name is an object. -/
structure ConventionalBlock (schema : Schema) (d : Definition) : Prop where
  block : (Entry.definition d).isBlock
  /-- No directive of it is skipped. -/
  core : directiveUsages d.directives = []
  distinct : (d.body.operations.map Prod.fst).Nodup
  operations : ∀ operation name, (operation, name) ∈ d.body.operations ↔
    name = operation.conventionalName ∧ (schema.find? name).any Declaration.isObject

/-- What a schema block is to the reader of a document. -/
theorem schemaBlock_spec {d : Definition} (h : (Entry.definition d).isBlock)
    (hcore : directiveUsages d.directives = []) (lines : LineTable) :
    (Entry.definition d).schemaBlock? = some (d.offset, d.body.operations) ∧
      (Entry.definition d).declaration? lines = none ∧ (Entry.definition d).usages = [] := by
  obtain ⟨offset, name, directives, body⟩ := d
  cases body with
  | schema operations =>
    refine ⟨rfl, rfl, ?_⟩
    simpa [Entry.usages, Definition.usages, Body.interfaces, Body.memberUsages, Body.construct?]
      using hcore
  | _ => cases h

namespace ConventionalBlock

variable {schema : Schema} {d : Definition}

/-- A conventional block names the conventional roots. -/
theorem roots_eq (h : ConventionalBlock schema d) :
    rootsOfOperations d.body.operations = conventionalRoots schema.declarations := by
  have hlookup : ∀ operation : RootOperation, d.body.operations.lookup operation =
      objectNamed? schema.declarations operation.conventionalName := by
    intro operation
    apply Option.ext
    intro name
    rw [lookup_eq_some_iff_mem h.distinct, h.operations, objectNamed?_eq_some]
    rfl
  unfold rootsOfOperations conventionalRoots
  rw [hlookup, hlookup, hlookup]
  rfl

/-- A conventional block adds nothing to the declarations, and nothing to what is skipped. -/
theorem toSchema_append (h : ConventionalBlock schema d) {lines : LineTable} {items : Document}
    (hitems : items.any Entry.isBlock = false)
    (hschema : schema = items.toSchema lines (items.flatMap Entry.usages)) :
    Document.toSchema lines ((items ++ [Entry.definition d]).flatMap Entry.usages)
        (items ++ [.definition d]) =
      { schema with rootsOrigin := .sdl (lines.position d.offset) } := by
  obtain ⟨hblock, hdeclaration, husages⟩ := schemaBlock_spec h.block h.core lines
  have hroots := h.roots_eq
  have hnone : items.findSome? Entry.schemaBlock? = none := by
    simpa [List.findSome?_eq_none_iff, Entry.isBlock] using hitems
  unfold Document.toSchema at hschema ⊢
  rw [hnone] at hschema
  subst hschema
  simp [List.findSome?_append, hnone, hblock, hdeclaration, husages, hroots]

/-- A conventional block is admitted behind items without a schema block. -/
theorem admitted (h : ConventionalBlock schema d) {items : Document}
    (hitems : items.any Entry.isBlock = false) (hadmitted : items.Admitted [] false) :
    Document.Admitted [] false (items ++ [.definition d]) := by
  have hnone : items.filterMap Entry.schemaBlock? = [] := by
    simpa [List.filterMap_eq_nil_iff, Entry.isBlock] using hitems
  have hgranted : items.granting [] = [] := by
    simp [Document.granting, Document.operations, hnone]
  rw [admitted_append, hgranted, hitems]
  exact ⟨hadmitted, ⟨fun _ => rfl, h.distinct, by simp⟩, trivial⟩

end ConventionalBlock

/-! ## Block Behind -/

/-- **Block behind**: a source without a schema block is read with a conventional one behind it, as
    the same schema with the roots in the place of the block. -/
theorem read_behind {source other : String} {schema : Schema} {d : Definition}
    (hread : read .skip source = .ok schema) (hsource : Blockless source)
    (hbehind : Behind source other (.definition d)) (h : ConventionalBlock schema d) :
    read .skip other = .ok { schema with
      rootsOrigin := .sdl ((LineTable.ofText other.toList).position d.offset) } := by
  obtain ⟨hfault, items, hitems, hadmitted, -⟩ := read_eq_ok_iff_items.mp hread
  have hnone := hsource items (parsed?_eq_some.mpr ⟨hfault, hitems, hadmitted⟩)
  obtain ⟨rest, htext⟩ := hbehind.text
  obtain ⟨ts, htokens, hblock⟩ := hbehind.tokens
  have hall : Many ItemPhrase (Feed.ofSource other).tokens (items ++ [.definition d]) :=
    many_append.mpr ⟨_, ts, htokens, hitems, many_singleton.mpr hblock⟩
  have hschema := schema_in_front hread hitems rest
  rw [htext] at hschema
  exact read_eq_ok_iff_items.mpr ⟨hbehind.ending, _, hall, h.admitted hnone hadmitted,
    (h.toSchema_append hnone hschema).symm⟩

/-! ## Blocks for Every Source -/

/-- The operations that have a root by convention. -/
def conventionalOperations (schema : Schema) : List RootOperation :=
  [.query, .mutation, .subscription].filter fun operation =>
    (schema.find? operation.conventionalName).any Declaration.isObject

/-- The text of a schema block that gives operations their conventional roots. -/
def blockText (operations : List RootOperation) : String :=
  "schema \x7b" ++ String.join (operations.map fun operation =>
    " " ++ operation.text ++ ": " ++ operation.conventionalName) ++ " \x7d"

/-- The block as it is parsed from its text. -/
def blockOf (operations : List RootOperation) : Definition :=
  ⟨0, "schema", [], .schema (operations.map fun operation =>
    (operation, operation.conventionalName))⟩

/-- The text of a block is parsed as the block. -/
theorem parsed?_blockText {operations : List RootOperation}
    (h : operations.Sublist [.query, .mutation, .subscription]) :
    parsed? (blockText operations) = some [.definition (blockOf operations)] := by
  have hall : ∀ operations ∈ [RootOperation.query, .mutation, .subscription].sublists,
      parsed? (blockText operations) = some [.definition (blockOf operations)] := by
    decide +kernel
  exact hall operations (List.mem_sublists.mpr h)

/-- A block for the operations that have a root by convention is a conventional one, wherever it
    lies. -/
theorem conventionalBlock_blockOf (schema : Schema) (f : Nat → Nat) :
    ConventionalBlock schema (move f (blockOf (conventionalOperations schema))) where
  block := rfl
  core := rfl
  distinct := by
    have hkeys : ((blockOf (conventionalOperations schema)).body.operations.map Prod.fst) =
        conventionalOperations schema := by
      simp [blockOf, Body.operations, Function.comp_def]
    show ((blockOf (conventionalOperations schema)).body.operations.map Prod.fst).Nodup
    rw [hkeys]
    exact List.Nodup.filter _ (by decide)
  operations := by
    intro operation name
    show (operation, name) ∈ (blockOf (conventionalOperations schema)).body.operations ↔ _
    have hmem : operation ∈ [RootOperation.query, .mutation, .subscription] := by
      cases operation <;> decide
    simp only [blockOf, Body.operations, conventionalOperations, List.mem_map, List.mem_filter,
      Prod.mk.injEq]
    constructor
    · rintro ⟨found, ⟨-, hobject⟩, rfl, rfl⟩
      exact ⟨rfl, hobject⟩
    · rintro ⟨rfl, hobject⟩
      exact ⟨operation, ⟨hmem, hobject⟩, rfl, rfl⟩

/-- **Every source** that is read can have a conventional block behind it, in a line of its own. -/
theorem exists_block_behind {source : String} {schema : Schema}
    (hread : read .skip source = .ok schema) :
    ∃ d, Behind source (source ++ " \n" ++ blockText (conventionalOperations schema))
      (.definition d) ∧ ConventionalBlock schema d := by
  obtain ⟨hfault, -⟩ := read_eq_ok_iff_items.mp hread
  obtain ⟨k, hbehind⟩ := behind_of_lone hfault (parsed?_blockText List.filter_sublist)
  exact ⟨_, hbehind, conventionalBlock_blockOf schema _⟩

end Sdl

/-! ## Place of the Roots -/

/-- The finding, with its place moved to `origin` if it is about the roots. -/
def Diagnostic.rootedAt (origin : Origin) (finding : Diagnostic) : Diagnostic :=
  if finding.code = Diagnostic.plainSubscription then
    { finding with labels := finding.labels.map fun label => { label with origin } }
  else finding

/-- The compilation, with what is found about the roots moved to `origin`. -/
def Compilation.rootedAt (origin : Origin) (compilation : Compilation) : Compilation :=
  { compilation with findings := compilation.findings.map (Diagnostic.rootedAt origin) }

section

variable (schema : Schema) (origin : Origin)

/-- Where the roots are named is seen in the finding about the subscription root alone. -/
theorem findings_rootedAt :
    { schema with rootsOrigin := origin }.findings =
      schema.findings.map (Diagnostic.rootedAt origin) := by
  have hskipped : (schema.skipped.map Diagnostic.ofSkipped).map (Diagnostic.rootedAt origin) =
      schema.skipped.map Diagnostic.ofSkipped := by
    rw [List.map_map]
    refine List.map_congr_left fun skipped _ => ?_
    show Diagnostic.rootedAt origin (Diagnostic.ofSkipped skipped) = _
    exact if_neg (by simp [Diagnostic.ofSkipped, Diagnostic.skippedConstruct,
      Diagnostic.plainSubscription])
  have hsubscription : schema.subscriptionFindings.map (Diagnostic.rootedAt origin) =
      { schema with rootsOrigin := origin }.subscriptionFindings := by
    unfold Schema.subscriptionFindings
    cases schema.roots.subscription <;> rfl
  have hdeclarations : (schema.declarations.flatMap schema.declarationFindings).map
      (Diagnostic.rootedAt origin) = schema.declarations.flatMap schema.declarationFindings := by
    refine (List.map_congr_left fun finding hfinding => ?_).trans (List.map_id _)
    obtain ⟨decl, -, hmem⟩ := List.mem_flatMap.mp hfinding
    refine if_neg ?_
    rcases code_of_mem_declarationFindings hmem with hcode | hcode <;> rw [hcode] <;> decide
  unfold Schema.findings
  rw [List.map_append, List.map_append, hskipped, hsubscription, hdeclarations]
  rfl

/-- A schema compiles with its roots named elsewhere if it does so with them in their place, and to
    the same but for that. -/
theorem compileSchema_rootedAt (options : Options) :
    (compileSchema options { schema with rootsOrigin := origin }).toOption =
      (compileSchema options schema).toOption.map (Compilation.rootedAt origin) := by
  have hsame : SameButOrigins schema { schema with rootsOrigin := origin } := ⟨rfl, rfl, rfl⟩
  by_cases h : schema.Acceptable
  · have hother := acceptable_of_content hsame.content_eq h
    rw [compileSchema_eq_ok.mpr ⟨h, rfl⟩, compileSchema_eq_ok.mpr ⟨hother, rfl⟩,
      ← hsame.modelOf_eq h options, findings_rootedAt]
    rfl
  · have hother : ¬{ schema with rootsOrigin := origin }.Acceptable := fun hother =>
      h (acceptable_of_content hsame.symm.content_eq hother)
    obtain ⟨_, hschema⟩ := compileSchema_error h options
    obtain ⟨_, hfound⟩ := compileSchema_error hother options
    rw [hschema, hfound]
    rfl

end

/-! ## Main Result -/

/-- **Conventional roots**: a source without a schema block is read as the same schema with a
    conventional block behind it, but for the place of the roots. Wherever constructs are skipped,
    both compile or neither does, to the same model, and with findings that differ in nothing but
    that place. -/
theorem conventional_roots_eq_block {source other : String} {schema : Schema} {d : Sdl.Definition}
    (hread : Sdl.read .skip source = .ok schema) (hsource : Sdl.Blockless source)
    (hbehind : Sdl.Behind source other (.definition d)) (hblock : Sdl.ConventionalBlock schema d) :
    ∃ found, Sdl.read .skip other = .ok found ∧ found.declarations = schema.declarations ∧
      found.skipped = schema.skipped ∧ found.roots = schema.roots ∧
      ∀ options : Options, options.policy = .skip → (compile options .sdl other).toOption =
        (compile options .sdl source).toOption.map (Compilation.rootedAt found.rootsOrigin) := by
  have hfound := Sdl.read_behind hread hsource hbehind hblock
  refine ⟨_, hfound, rfl, rfl, rfl, fun options hpolicy => ?_⟩
  have hcompile : ∀ {text : String} {schema : Schema}, Sdl.read .skip text = .ok schema →
      compile options .sdl text = compileSchema options schema := by
    intro text schema hread
    show (Sdl.read options.policy text >>= compileSchema options) = _
    rw [hpolicy, hread]
    rfl
  rw [hcompile hfound, hcompile hread, compileSchema_rootedAt]

/-- A source with an extension of a schema block, a skipped type of a conventional name, and a
    comment that is open at its end. -/
def marinaText : String :=
  "type Query\x7ba:Int\x7d\ninterface Mutation\nextend schema\ntype Subscription # moored"

/-- What the source is read as. -/
def marinaSchema : Schema where
  declarations := [
    ⟨"Query", .object [⟨"a", .named "Int", [], .sdl ⟨1, 12⟩⟩], .sdl ⟨1, 1⟩⟩,
    ⟨"Subscription", .object [], .sdl ⟨4, 1⟩⟩]
  roots := ⟨some "Query", none, some "Subscription"⟩
  rootsOrigin := .sdl ⟨1, 1⟩
  skipped := [⟨.interface, "Mutation", .sdl ⟨2, 1⟩⟩, ⟨.extension, "schema", .sdl ⟨3, 1⟩⟩]

/-- The source can have a block behind it that gives no operation the skipped type. -/
theorem conventional_roots_eq_block_marinaText :
    Sdl.read .skip marinaText = .ok marinaSchema ∧
      ∃ found, Sdl.read .skip (marinaText ++ " \n" ++
          "schema \x7b query: Query subscription: Subscription \x7d") = .ok found ∧
        found.roots = ⟨some "Query", none, some "Subscription"⟩ ∧
        ∀ options : Options, options.policy = .skip →
          (compile options .sdl (marinaText ++ " \n" ++
            "schema \x7b query: Query subscription: Subscription \x7d")).toOption =
          (compile options .sdl marinaText).toOption.map
            (Compilation.rootedAt found.rootsOrigin) := by
  have hread : Sdl.read .skip marinaText = .ok marinaSchema :=
    toOption_eq_some.mp (by decide +kernel)
  have hblockless : Sdl.Blockless marinaText := by
    unfold Sdl.Blockless
    decide +kernel
  obtain ⟨d, hbehind, hblock⟩ := Sdl.exists_block_behind hread
  have htext : Sdl.blockText (Sdl.conventionalOperations marinaSchema) =
      "schema \x7b query: Query subscription: Subscription \x7d" := by decide +kernel
  rw [htext] at hbehind
  obtain ⟨found, hfound, -, -, hroots, hcompile⟩ :=
    conventional_roots_eq_block hread hblockless hbehind hblock
  exact ⟨hread, found, hfound, hroots, hcompile⟩

end SchemaModel
