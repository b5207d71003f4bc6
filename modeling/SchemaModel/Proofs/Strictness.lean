import SchemaModel.Compilation
import SchemaModel.Proofs.Acceptance
import SchemaModel.Proofs.StrictParsing

/-! # Strict Mode

    To refuse unsupported constructs is to ask that there is none.

    * **StrictReading**: what a source is read as if unsupported constructs are refused, next to
      what it is read as if they are skipped.
    * **StrictOutcome**: the four ways in which the two outcomes go together, from which all clauses
      of a strict reading are read off.
    * **Definition text**: the outcomes for a source are those of a strict parser.
    * **Documents**: the items of a document are added one by one under both policies.
    * **refusing_iff_nothing_skipped**: both encodings are read strictly, and so compiled. -/

namespace SchemaModel

/-! ## Strict Readings -/

/-- **Strict readings**: the outcomes for a source with unsupported constructs skipped and with them
    refused. `malformed` is how a fault of the source is reported. If `exact` holds of the construct
    that is skipped first, it is the one that is refused. -/
structure StrictReading {α : Type} (malformed : α → Failure) (exact : Skipped → Prop)
    (skipping refusing : Except Failure Schema) : Prop where
  /-- A source is accepted if nothing is skipped in it, and as the very same schema. -/
  accepted : ∀ schema, refusing = .ok schema ↔ skipping = .ok schema ∧ schema.skipped = []
  /-- A fault of the source that is met while refusing is met while skipping. -/
  fault_of_refusing : ∀ fault, refusing = .error (malformed fault) →
    skipping = .error (malformed fault)
  /-- A fault that is met while skipping is met while refusing, unless a construct is refused in
    front of it. -/
  fault_of_skipping : ∀ fault, skipping = .error (malformed fault) →
    refusing = .error (malformed fault) ∨ ∃ refused, refusing = .error (.unsupported refused)
  /-- If anything is skipped, an unsupported construct is refused. -/
  refused : ∀ schema first others, skipping = .ok schema → schema.skipped = first :: others →
    ∃ refused, refusing = .error (.unsupported refused) ∧ (exact first → refused = first)
  /-- Nothing but a fault of the source is met while skipping. -/
  malformed_of_skipping : ∀ failure, skipping = .error failure →
    ∃ fault, failure = malformed fault

/-- **Strict outcomes**: what skipping and refusing come to, if `before` was skipped already. -/
inductive StrictOutcome {α : Type} (malformed : α → Failure) (exact : Skipped → Prop)
    (before : List Skipped) : Except Failure Schema → Except Failure Schema → Prop
  | same {schema : Schema} :
      schema.skipped = before → StrictOutcome malformed exact before (.ok schema) (.ok schema)
  | refused {schema : Schema} {first refused : Skipped} {others : List Skipped} :
      schema.skipped = before ++ first :: others → (exact first → refused = first) →
      StrictOutcome malformed exact before (.ok schema) (.error (.unsupported refused))
  | fault {fault : α} :
      StrictOutcome malformed exact before (.error (malformed fault)) (.error (malformed fault))
  | refusedFirst {fault : α} {refused : Skipped} :
      StrictOutcome malformed exact before (.error (malformed fault))
        (.error (.unsupported refused))

/-- Outcomes that go together make up a strict reading. -/
theorem StrictOutcome.reading {α : Type} {malformed : α → Failure} {exact : Skipped → Prop}
    {skipping refusing : Except Failure Schema}
    (h : StrictOutcome malformed exact [] skipping refusing)
    (hmalformed : ∀ fault skipped, malformed fault ≠ .unsupported skipped) :
    StrictReading malformed exact skipping refusing := by
  -- in each case, the clauses about outcomes of another form hold of nothing
  cases h with
  | @same schema hschema =>
    refine ⟨fun other => ?_, by simp, by simp, ?_, by simp⟩
    · constructor
      · rintro ⟨rfl⟩
        exact ⟨rfl, hschema⟩
      · exact fun h => h.1
    · rintro _ first others ⟨rfl⟩ hfirst
      simp [hschema] at hfirst
  | @refused schema first refused others hschema hexact =>
    refine ⟨fun other => ?_, ?_, by simp, ?_, by simp⟩
    · constructor
      · rintro ⟨⟩
      · rintro ⟨⟨rfl⟩, hnone⟩
        simp [hschema] at hnone
    · intro fault hfault
      exact absurd (Except.error.inj hfault).symm (hmalformed fault refused)
    · rintro _ other rest ⟨rfl⟩ hother
      rw [hschema] at hother
      obtain ⟨rfl, -⟩ := List.cons.inj hother
      exact ⟨refused, rfl, hexact⟩
  | @fault fault =>
    refine ⟨by simp, fun _ h => h, fun _ h => .inl h, by simp, ?_⟩
    rintro _ ⟨rfl⟩
    exact ⟨fault, rfl⟩
  | @refusedFirst fault refused =>
    refine ⟨by simp, ?_, fun _ _ => .inr ⟨refused, rfl⟩, by simp, ?_⟩
    · intro other hother
      exact absurd (Except.error.inj hother).symm (hmalformed other refused)
    · rintro _ ⟨rfl⟩
      exact ⟨fault, rfl⟩

/-! ## Definition Text -/

namespace Sdl

/-- A fault of the source is reported as one. -/
theorem failure_of_genuine {fault : SourceFault} (h : fault.Genuine) (lines : LineTable) :
    fault.failure lines = .malformedText (fault.placed lines) := by
  unfold SourceFault.failure
  split
  · rename_i usage hrefused
    exact absurd hrefused (h usage)
  · rfl

theorem skipped_toSchema (lines : LineTable) (usages : List Usage) (document : Document) :
    (document.toSchema lines usages).skipped = usages.map (Usage.skipped lines) := by
  unfold Document.toSchema
  split <;> rfl

/-- A construct of a source that is refused if it is the first to be skipped: any construct but an
    extension, which comes after what it holds. -/
def Exact (source : String) (first : Skipped) : Prop :=
  (∀ token ∈ (Feed.ofSource source).tokens, token.kind ≠ .keyword .extend) ∨
    first.construct ≠ .extension

/-- Definition text is read strictly. -/
theorem strictOutcome_read (source : String) :
    StrictOutcome .malformedText (Exact source) [] (read .skip source) (read .reject source) := by
  have h := Strict.document (.start .skip (.ofSource source)) rfl
  have hstart : (ParserState.start .skip (.ofSource source)).strict =
    .start .reject (.ofSource source) := rfl
  rw [hstart] at h
  unfold read
  generalize LineTable.ofText source.toList = lines
  generalize document (.start .skip (.ofSource source)) = r at h
  generalize document (.start .reject (.ofSource source)) = r' at h
  cases h with
  | @same tree t _ hskipped =>
    refine .same ?_
    rw [skipped_toSchema, hskipped]
    rfl
  | @refused tree t _ first usage others span _ hskipped hheralded hfirst =>
    have hall : (tree.toSchema lines t.skipped).skipped =
        [] ++ first.skipped lines :: others.map (Usage.skipped lines) := by
      rw [skipped_toSchema, hskipped]
      rfl
    refine .refused hall fun hexact => congrArg (Usage.skipped lines) (hfirst ?_)
    -- an extension that is skipped first has its keyword among the tokens
    intro hextension
    rcases hexact with hnone | hother
    · obtain ⟨token, htoken, hextend⟩ := hheralded first (by simp) hextension
      exact hnone token htoken hextend
    · exact hother hextension
  | fault hgenuine =>
    simp only [failure_of_genuine hgenuine]
    exact .fault
  | refusedFirst hgenuine =>
    simp only [failure_of_genuine hgenuine]
    exact .refusedFirst

end Sdl

/-! ## Documents -/

namespace Introspection

variable {envelope : Envelope}

/-- Items are added to a schema strictly, and it is the first skipped one that is refused. -/
theorem strictOutcome_readItems (items : List (Fallible Item)) (schema : Schema) :
    StrictOutcome .malformedDocument (fun _ => True) schema.skipped
      (readItems envelope .skip schema items) (readItems envelope .reject schema items) := by
  induction items generalizing schema with
  | nil => exact .same rfl
  | cons item items ih =>
    match item with
    | .error (path, fault) => exact .fault
    | .ok (.declared declaration) =>
      exact ih { schema with declarations := schema.declarations ++ [declaration] }
    | .ok (.skipped construct) =>
      -- the strict reading ends here, and the other one goes on with one more skipped construct
      have hrest := ih { schema with skipped := schema.skipped ++ [construct] }
      show StrictOutcome _ _ _ (readItems envelope .skip
        { schema with skipped := schema.skipped ++ [construct] } items)
        (.error (.unsupported construct))
      generalize readItems envelope .skip
        { schema with skipped := schema.skipped ++ [construct] } items = skipping at hrest
      generalize readItems envelope .reject
        { schema with skipped := schema.skipped ++ [construct] } items = refusing at hrest
      cases hrest with
      | same hschema => exact .refused hschema fun _ => rfl
      | @refused final first _ others hschema _ =>
        have hall : final.skipped = schema.skipped ++ construct :: first :: others := by
          rw [hschema]
          simp
        exact .refused hall fun _ => rfl
      | fault => exact .refusedFirst
      | refusedFirst => exact .refusedFirst

/-- Documents are read strictly. -/
theorem strictOutcome_readValue (document : Json) :
    StrictOutcome .malformedDocument (fun _ => True) [] (readValue .skip document)
      (readValue .reject document) := by
  unfold readValue
  split
  · exact .fault
  · split
    · exact .fault
    · rename_i envelope schema _ _ node _
      exact strictOutcome_readItems (items envelope node) (rootsSchema envelope node)

theorem strictOutcome_readText (text : String) :
    StrictOutcome .malformedDocument (fun _ => True) [] (readText .skip text)
      (readText .reject text) := by
  unfold readText
  split
  · exact .fault
  · exact strictOutcome_readValue _

end Introspection

/-! ## Main Result -/

theorem strictReading_read (source : String) :
    StrictReading .malformedText (Sdl.Exact source) (Sdl.read .skip source)
      (Sdl.read .reject source) :=
  (Sdl.strictOutcome_read source).reading (by simp)

theorem strictReading_readValue (document : Json) :
    StrictReading .malformedDocument (fun _ => True) (Introspection.readValue .skip document)
      (Introspection.readValue .reject document) :=
  (Introspection.strictOutcome_readValue document).reading (by simp)

theorem strictReading_readText (text : String) :
    StrictReading .malformedDocument (fun _ => True) (Introspection.readText .skip text)
      (Introspection.readText .reject text) :=
  (Introspection.strictOutcome_readText text).reading (by simp)

/-- A source in either encoding is accepted strictly if nothing is skipped in it. -/
theorem readSource_reject_eq_ok {encoding : Encoding} {text : String} {schema : Schema} :
    readSource encoding .reject text = .ok schema ↔
      readSource encoding .skip text = .ok schema ∧ schema.skipped = [] := by
  cases encoding with
  | sdl => exact (strictReading_read text).accepted schema
  | introspection => exact (strictReading_readText text).accepted schema

/-- A compilation succeeds if the source is read and the schema resolves. -/
theorem compile_eq_ok {options : Options} {encoding : Encoding} {text : String}
    {compilation : Compilation} :
    compile options encoding text = .ok compilation ↔
      ∃ schema, readSource encoding options.policy text = .ok schema ∧
        compileSchema options schema = .ok compilation := bind_eq_ok

/-- What becomes of a schema that has been read does not depend on the policy. -/
theorem compileSchema_policy {options : Options} {schema : Schema} {compilation : Compilation}
    (policy : Policy) :
    compileSchema { options with policy } schema = .ok compilation ↔
      compileSchema options schema = .ok compilation := by
  have hmodel : modelOf { options with policy } schema = modelOf options schema := rfl
  rw [compileSchema_eq_ok, compileSchema_eq_ok, hmodel]

/-- **Strict mode**: definition text and documents are read strictly, and a source in either
    encoding is compiled with unsupported constructs refused if it is with nothing skipped, to the
    same model with the same findings. -/
theorem refusing_iff_nothing_skipped :
    (∀ source, StrictReading .malformedText (Sdl.Exact source) (Sdl.read .skip source)
        (Sdl.read .reject source)) ∧
      (∀ document, StrictReading .malformedDocument (fun _ => True)
        (Introspection.readValue .skip document) (Introspection.readValue .reject document)) ∧
      ∀ (options : Options) (encoding : Encoding) (text : String) (compilation : Compilation),
        compile { options with policy := .reject } encoding text = .ok compilation ↔
          compile { options with policy := .skip } encoding text = .ok compilation ∧
            compilation.skipped = 0 := by
  refine ⟨strictReading_read, strictReading_readValue, ?_⟩
  intro options encoding text compilation
  rw [compile_eq_ok, compile_eq_ok]
  simp only [compileSchema_policy, readSource_reject_eq_ok]
  constructor
  · rintro ⟨schema, ⟨hread, hnone⟩, hcompile⟩
    refine ⟨⟨schema, hread, hcompile⟩, ?_⟩
    obtain ⟨-, rfl⟩ := compileSchema_eq_ok.mp hcompile
    simp [hnone]
  · rintro ⟨⟨schema, hread, hcompile⟩, hzero⟩
    refine ⟨schema, ⟨hread, ?_⟩, hcompile⟩
    obtain ⟨-, rfl⟩ := compileSchema_eq_ok.mp hcompile
    simpa using hzero

/-- A union, and a directive on a field behind it. -/
def vesselText : String := "union Vessel=Query type Query\x7bberth:Int@deep\x7d"

/-- The union in a document. -/
def vesselDocument : Json := .object [
  ("directives", .array []),
  ("queryType", .object [("name", .string "Query")]),
  ("types", .array [.object [("kind", .string "UNION"), ("name", .string "Vessel")]])]

theorem refusing_iff_nothing_skipped_vessel :
    (Sdl.read .skip vesselText).toOption.map Schema.skipped =
        some [⟨.union, "Vessel", .sdl ⟨1, 1⟩⟩, ⟨.directive, "deep", .sdl ⟨1, 40⟩⟩] ∧
      Sdl.read .reject vesselText = .error (.unsupported ⟨.union, "Vessel", .sdl ⟨1, 1⟩⟩) ∧
      Introspection.readValue .reject vesselDocument = .error (.unsupported
        ⟨.union, "Vessel", .introspection "types[0]"⟩) ∧
      (compile .standard .sdl vesselText).toOption.map Compilation.skipped = some 2 ∧
      ∀ compilation, compile { Options.standard with policy := .reject } .sdl vesselText ≠
        .ok compilation := by
  obtain ⟨htext, hdocument, hcompile⟩ := refusing_iff_nothing_skipped
  have hskipped : (Sdl.read .skip vesselText).toOption.map Schema.skipped =
      some [⟨.union, "Vessel", .sdl ⟨1, 1⟩⟩, ⟨.directive, "deep", .sdl ⟨1, 40⟩⟩] := by
    decide +kernel
  have hunion : (Introspection.readValue .skip vesselDocument).toOption.map Schema.skipped =
      some [⟨.union, "Vessel", .introspection "types[0]"⟩] := by decide +kernel
  have htwo : (compile .standard .sdl vesselText).toOption.map Compilation.skipped = some 2 := by
    decide +kernel
  refine ⟨hskipped, ?_, ?_, htwo, ?_⟩
  · obtain ⟨schema, hread, hfirst⟩ := Option.map_eq_some_iff.mp hskipped
    obtain ⟨refused, hrefused, hexact⟩ :=
      (htext vesselText).refused schema _ _ (toOption_eq_some.mp hread) hfirst
    rwa [hexact (.inr (by decide))] at hrefused
  · obtain ⟨schema, hread, hfirst⟩ := Option.map_eq_some_iff.mp hunion
    obtain ⟨refused, hrefused, hexact⟩ :=
      (hdocument vesselDocument).refused schema _ _ (toOption_eq_some.mp hread) hfirst
    rwa [hexact trivial] at hrefused
  · -- the union and the directive are counted as skipped
    intro compilation hrun
    obtain ⟨hskip, hnone⟩ := (hcompile .standard .sdl vesselText compilation).mp hrun
    have hskip : compile .standard .sdl vesselText = .ok compilation := hskip
    simp [hskip, Except.toOption, hnone] at htwo

end SchemaModel
