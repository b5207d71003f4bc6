import SchemaModel.Proofs.DocumentPlaces

/-! # Envelopes

    A document may hold its schema bare, under one key or under two. What is read from it is the
    same, but for the paths, which begin at the document.

    * **Origins**: a schema in which every origin is exchanged for another one.
    * **Seen from a document**: the path of an origin and of a fault in a schema, with the keys around
      the schema in front.
    * **Within**: the faults of a part lie in it or deeper, so that no path inside a schema is taken
      for that of the whole.
    * **envelopes_agree**: a schema is read alike in all envelopes. -/

namespace SchemaModel

/-! ## Exchanged Origins -/

section

variable (f : Origin → Origin)

def InputValue.mapOrigin (value : InputValue) : InputValue :=
  { value with origin := f value.origin }

def Field.mapOrigins (field : Field) : Field :=
  { field with args := field.args.map (InputValue.mapOrigin f), origin := f field.origin }

def DeclarationKind.mapOrigins : DeclarationKind → DeclarationKind
  | .object fields => .object (fields.map (Field.mapOrigins f))
  | .input fields => .input (fields.map (InputValue.mapOrigin f))
  | .enum values => .enum values
  | .scalar => .scalar

def Declaration.mapOrigins (decl : Declaration) : Declaration :=
  { decl with kind := decl.kind.mapOrigins f, origin := f decl.origin }

def Skipped.mapOrigin (skipped : Skipped) : Skipped :=
  { skipped with origin := f skipped.origin }

/-- The same schema with every origin in it exchanged. -/
def Schema.mapOrigins (schema : Schema) : Schema where
  declarations := schema.declarations.map (Declaration.mapOrigins f)
  roots := schema.roots
  rootsOrigin := f schema.rootsOrigin
  skipped := schema.skipped.map (Skipped.mapOrigin f)

end

namespace Introspection

open Json (Path Shape FieldSpec Slot)

def Item.mapOrigins (f : Origin → Origin) : Item → Item
  | .declared declaration => .declared (declaration.mapOrigins f)
  | .skipped construct => .skipped (construct.mapOrigin f)

/-! ## Seen from a Document -/

/-- What stands in front of a path inside the schema: the keys around it, each with a point. -/
def Envelope.lead (envelope : Envelope) : String :=
  String.join (envelope.keys.map (· ++ "."))

/-- **Seen from the document**: the origin with the keys around the schema in front of its path.
    Every origin that is seen so is a path, even if the given one is none. -/
def Envelope.seen (envelope : Envelope) : Origin → Origin
  | .introspection path => .introspection (envelope.lead ++ path)
  | .sdl _ => .introspection envelope.lead

/-- The path of a fault, seen from the document. The point, which is the schema as a whole, gives
    way to the keys around it. -/
def Envelope.seenFault (envelope : Envelope) (path : String) : String :=
  if path = "." then envelope.pathText [] else envelope.lead ++ path

/-- **Shows**: what the reading of a bare schema comes to, next to that of a document with the schema
    in an envelope. Both give a schema, or both have the same fault, or both refuse the same
    construct. -/
inductive Envelope.Shows (envelope : Envelope) :
    Except Failure Schema → Except Failure Schema → Prop
  | schema {schema : Schema} :
      Shows envelope (.ok schema) (.ok (schema.mapOrigins envelope.seen))
  | fault {path : String} {fault : DocumentFault} :
      Shows envelope (.error (.malformedDocument ⟨path, fault⟩))
        (.error (.malformedDocument ⟨envelope.seenFault path, fault⟩))
  | refused {skipped : Skipped} :
      Shows envelope (.error (.unsupported skipped))
        (.error (.unsupported (skipped.mapOrigin envelope.seen)))

section

variable (envelope : Envelope) {path : Path}

theorem pathText_of_ne_nil (h : path ≠ []) :
    envelope.pathText path = envelope.lead ++ Json.pathText path := by
  obtain ⟨step, path, rfl⟩ := List.exists_cons_of_ne_nil h
  cases envelope <;>
    simp [Envelope.pathText, Envelope.lead, Envelope.keys]

theorem originAt_eq (h : path ≠ []) :
    originAt envelope path = envelope.seen (originAt .bare path) := by
  rw [originAt, pathText_of_ne_nil envelope h]
  rfl

/-- **Telling**: the text of the path is not that of the whole, unless the path leads to it. -/
def Telling (path : Path) : Prop :=
  path ≠ [] → Json.pathText path ≠ "."

theorem pathText_eq_seenFault (h : Telling path) :
    envelope.pathText path = envelope.seenFault (Envelope.bare.pathText path) := by
  have hbare : Envelope.bare.pathText path = Json.pathText path := rfl
  rw [hbare]
  by_cases hpath : path = []
  · subst hpath
    rfl
  · rw [pathText_of_ne_nil envelope hpath, Envelope.seenFault, if_neg (h hpath)]

/-- A path that begins with a plain key is not taken for the whole. -/
theorem telling_of_prefix (name : String) (hname : Json.Step.isPlain (.key name))
    (h : [.key name] <+: path) : Telling path := by
  obtain ⟨others, rfl⟩ := h
  intro _ hpoint
  obtain ⟨hne, hplain⟩ := Json.plain_of_isPlain hname
  obtain ⟨c, cs, hcs⟩ := List.exists_cons_of_ne_nil (mt String.toList_eq_nil_iff.mp hne)
  have hfirst := congrArg String.toList hpoint
  rw [List.singleton_append, Json.pathText, String.toList_append, hcs] at hfirst
  exact (hplain c (hcs ▸ List.mem_cons_self)).1 (List.cons.inj hfirst).1

end

/-! ## The Same Items -/

section

variable (envelope : Envelope) {path : Path}

theorem inputValue_seen (h : path ≠ []) (node : InputValueNode) :
    inputValue envelope path node =
      (inputValue .bare path node).map (InputValue.mapOrigin envelope.seen) := by
  unfold inputValue
  rw [originAt_eq envelope h]
  cases defaultValue path node.defaultValue with
  | error fault => rfl
  | ok default => cases node.type.toTypeRef (path ++ [.key "type"]) <;> rfl

/-- Items of a list are converted to what is seen of them, if each of them is. -/
theorem convertFrom_seen {α β : Type} {g : β → β} {convert seen : Path → α → Fallible β}
    (h : ∀ path a, path ≠ [] → seen path a = (convert path a).map g) (path : Path) (index : Nat)
    (as : List α) :
    convertFrom path seen index as = (convertFrom path convert index as).map (List.map g) := by
  induction as generalizing index with
  | nil => rfl
  | cons a as ih =>
    rw [convertFrom, convertFrom, h _ a (by simp), ih]
    cases convert (path ++ [.index index]) a with
    | error fault => rfl
    | ok b => cases convertFrom path convert (index + 1) as <;> rfl

theorem field_seen (h : path ≠ []) (node : FieldNode) :
    field envelope path node = (field .bare path node).map (Field.mapOrigins envelope.seen) := by
  have hargs := convertFrom_seen (fun _ node h => inputValue_seen envelope h node)
    (path ++ [.key "args"]) 0 node.args
  unfold field
  rw [originAt_eq envelope h, hargs]
  cases node.type.toTypeRef (path ++ [.key "type"]) with
  | error fault => rfl
  | ok type => cases convertFrom (path ++ [.key "args"]) (inputValue .bare) 0 node.args <;> rfl

theorem declare_seen (h : path ≠ []) (name : String) {kind seen : Fallible DeclarationKind}
    (hkind : seen = kind.map (DeclarationKind.mapOrigins envelope.seen)) :
    declare envelope path name seen =
      (declare .bare path name kind).map (Item.mapOrigins envelope.seen) := by
  unfold declare
  rw [hkind, originAt_eq envelope h]
  cases kind <;> rfl

theorem skip_seen (h : path ≠ []) (construct : Construct) (name : String) :
    skip envelope path construct name =
      (skip .bare path construct name).map (Item.mapOrigins envelope.seen) := by
  unfold skip
  rw [originAt_eq envelope h]
  rfl

theorem map_mapIdx {α β γ : Type} (g : β → γ) (f : Nat → α → β) (as : List α) :
    (as.mapIdx f).map g = as.mapIdx fun i a => g (f i a) := by
  rw [List.mapIdx_eq_zipIdx_map, List.mapIdx_eq_zipIdx_map, List.map_map]
  rfl

/-- **Types**: the items of a type are those of the bare schema, seen from the document. -/
theorem typeItems_seen (h : path ≠ []) (node : TypeNode) :
    typeItems envelope path node =
      (typeItems .bare path node).map (·.map (Item.mapOrigins envelope.seen)) := by
  have hinputs := fun path =>
    convertFrom_seen (fun _ node h => inputValue_seen envelope h node) path 0
  have hfields := fun path => convertFrom_seen (fun _ node h => field_seen envelope h node) path 0
  obtain ⟨kind, name, fields, inputFields, enumValues, interfaces⟩ := node
  cases kind with
  | scalar => exact congrArg (fun item => [item]) (declare_seen envelope h name rfl)
  | object =>
    cases fields with
    | none => rfl
    | some fields =>
      have himplemented : ∀ (k : Nat) (chain : TypeChain),
          skip envelope (path ++ [.key "interfaces", .index k]) .implements (chain.name.getD "") =
            (skip .bare (path ++ [.key "interfaces", .index k]) .implements
              (chain.name.getD "")).map (Item.mapOrigins envelope.seen) :=
        fun k chain => skip_seen envelope (by simp) .implements _
      have hdeclared : declare envelope path name
          ((convertFrom (path ++ [.key "fields"]) (field envelope) 0 fields).map .object) =
            (declare .bare path name
              ((convertFrom (path ++ [.key "fields"]) (field .bare) 0 fields).map .object)).map
                (Item.mapOrigins envelope.seen) := by
        refine declare_seen envelope h name ?_
        rw [hfields]
        cases convertFrom (path ++ [.key "fields"]) (field .bare) 0 fields <;> rfl
      simp only [typeItems, require, List.map_append, List.map_cons, List.map_nil, map_mapIdx,
        hdeclared, himplemented]
  | interface => exact congrArg (fun item => [item]) (skip_seen envelope h .interface name)
  | union => exact congrArg (fun item => [item]) (skip_seen envelope h .union name)
  | enum =>
    refine congrArg (fun item => [item]) (declare_seen envelope h name ?_)
    cases enumValues <;> rfl
  | inputObject =>
    refine congrArg (fun item => [item]) (declare_seen envelope h name ?_)
    cases inputFields with
    | none => rfl
    | some fields =>
      simp only [require, bind, Except.bind, hinputs]
      cases convertFrom (path ++ [.key "inputFields"]) (inputValue .bare) 0 fields <;> rfl
  | list => rfl
  | nonNull => rfl

/-- **Items**: the items of a schema are those of the bare schema, seen from the document. -/
theorem items_seen (node : SchemaNode) :
    items envelope node = (items .bare node).map (·.map (Item.mapOrigins envelope.seen)) := by
  unfold items
  simp only [List.map_append, List.map_flatten, map_mapIdx]
  congr 2
  · cases node.queryType <;> rfl
  · congr 2
    funext i type
    split
    · rfl
    · exact typeItems_seen envelope (by simp) type
  · congr 1
    funext i name
    split
    · rfl
    · exact congrArg (fun item => [item]) (skip_seen envelope (by simp) _ name)

end

/-! ## Faults inside a Schema -/

/-- **Within**: all faults lie at the path or deeper. -/
def Within {α : Type} (path : Path) (result : Fallible α) : Prop :=
  ∀ at_ fault, result = .error (at_, fault) → path <+: at_

namespace Within

variable {α β : Type} {path deeper : Path} {result : Fallible α}

theorem ok (a : α) : Within path (.ok a) := nofun

theorem error (h : path <+: deeper) (fault : DocumentFault) :
    Within path (.error (deeper, fault) : Fallible α) := by
  rintro _ _ ⟨⟩
  exact h

theorem mono (h : Within deeper result) (hpath : path <+: deeper) : Within path result :=
  fun at_ fault hresult => hpath.trans (h at_ fault hresult)

theorem bind {next : α → Fallible β} (h : Within path result) (hnext : ∀ a, Within path (next a)) :
    Within path (result >>= next) := by
  intro at_ fault hfault
  rcases bind_eq_error.mp hfault with hresult | ⟨a, -, ha⟩
  · exact h at_ fault hresult
  · exact hnext a at_ fault ha

theorem map (h : Within path result) (f : α → β) : Within path (result.map f) :=
  fun at_ fault hfault => h at_ fault (map_eq_error.mp hfault)

theorem toTypeRef (chain : TypeChain) (path : Path) : Within path (chain.toTypeRef path) := by
  have hleaf : ∀ path kind name, Within path (TypeChain.toTypeRef.leaf path kind name) := by
    rintro path kind (_ | name)
    · exact error (List.prefix_refl path) _
    · exact ok _
  induction chain generalizing path with
  | last kind name =>
    unfold TypeChain.toTypeRef
    split
    · exact error (List.prefix_refl path) _
    · exact hleaf path kind name
  | wrapping kind name inner ih =>
    unfold TypeChain.toTypeRef
    split
    · refine ((ih _).mono (List.prefix_append path _)).bind fun type => ?_
      split
      · split
        · exact ok _
        · exact error (List.prefix_append path _) _
      · exact ok _
    · exact hleaf path kind name

theorem convertFrom {convert : Path → α → Fallible β} (h : ∀ path a, Within path (convert path a))
    (path : Path) (index : Nat) (as : List α) :
    Within path (Introspection.convertFrom path convert index as) := by
  induction as generalizing index with
  | nil => exact ok []
  | cons a as ih =>
    exact ((h _ a).mono (List.prefix_append path _)).bind fun b =>
      (ih (index + 1)).bind fun bs => ok _

variable (envelope : Envelope)

theorem inputValue (path : Path) (node : InputValueNode) :
    Within path (Introspection.inputValue envelope path node) := by
  have hdefault : Within path (defaultValue path node.defaultValue) := by
    unfold defaultValue
    split
    · exact ok none
    · split
      · exact ok _
      · exact error (List.prefix_append path _) _
  exact hdefault.bind fun default =>
    ((toTypeRef node.type _).mono (List.prefix_append path _)).bind fun type => ok _

theorem field (path : Path) (node : FieldNode) :
    Within path (Introspection.field envelope path node) :=
  ((toTypeRef node.type _).mono (List.prefix_append path _)).bind fun _ =>
    ((convertFrom (inputValue envelope) _ 0 node.args).mono (List.prefix_append path _)).bind
      fun _ => ok _

theorem require (path : Path) (kind : TypeKind) (key : String) (members : Option α) :
    Within path (Introspection.require path kind key members) := by
  cases members with
  | none => exact error (List.prefix_refl path) _
  | some members => exact ok members

/-- The faults of a type lie inside of it. -/
theorem of_mem_typeItems {node : TypeNode} {item : Fallible Item}
    (h : item ∈ typeItems envelope path node) : Within path item := by
  unfold typeItems at h
  split at h
  · obtain rfl := List.mem_singleton.mp h
    exact (ok _).map _
  · split at h
    · rename_i fault hfault
      obtain rfl := List.mem_singleton.mp h
      rintro _ _ ⟨⟩
      exact require path _ _ _ _ _ hfault
    · rename_i fields _
      rcases List.mem_append.mp h with himplemented | hdeclared
      · obtain ⟨k, _, rfl⟩ := List.mem_mapIdx.mp himplemented
        exact ok _
      · obtain rfl := List.mem_singleton.mp hdeclared
        exact (((convertFrom (field envelope) _ 0 fields).mono (List.prefix_append path _)).map
          _).map _
  · obtain rfl := List.mem_singleton.mp h
    exact ((require path _ _ node.inputFields).bind fun fields =>
      ((convertFrom (inputValue envelope) _ 0 fields).mono (List.prefix_append path _)).bind
        fun values => ok _).map _
  · obtain rfl := List.mem_singleton.mp h
    exact ((require path _ _ node.enumValues).bind fun values => ok _).map _
  · obtain rfl := List.mem_singleton.mp h
    exact ok _
  · obtain rfl := List.mem_singleton.mp h
    exact ok _
  all_goals
    obtain rfl := List.mem_singleton.mp h
    exact error (List.prefix_append path _) _

end Within

/-- A fault among the items of a schema does not lie at the whole of it. -/
theorem telling_of_mem_items {envelope : Envelope} {node : SchemaNode} {path : Path}
    {fault : DocumentFault} (h : .error (path, fault) ∈ items envelope node) : Telling path := by
  simp only [items, List.mem_append, List.mem_flatten, List.mem_mapIdx] at h
  rcases h with (hroot | ⟨_, ⟨i, _, rfl⟩, hmem⟩) | ⟨_, ⟨i, _, rfl⟩, hmem⟩
  · split at hroot
    · cases List.mem_singleton.mp hroot
      exact telling_of_prefix "queryType" (by decide) (List.prefix_refl _)
    · cases hroot
  · split at hmem
    · cases hmem
    · obtain ⟨inner, rfl⟩ := Within.of_mem_typeItems envelope hmem _ _ rfl
      exact telling_of_prefix "types" (by decide) (List.prefix_append _ _)
  · split at hmem
    · cases hmem
    · cases List.mem_singleton.mp hmem

/-! ## Misfits -/

section

variable {members : List (String × Json)} {α β : Type} {misfit : Json.Misfit}

/-- **Under a name**: the misfit is one of the whole record, or lies under one of the names. -/
def UnderName (names : List String) (result : Except Json.Misfit α) : Prop :=
  ∀ misfit, result = .error misfit → misfit.path = [] ∨ ∃ name ∈ names, [.key name] <+: misfit.path

variable {names : List String}

theorem UnderName.bind {result : Except Json.Misfit α} {next : α → Except Json.Misfit β}
    (h : UnderName names result) (hnext : ∀ a, UnderName names (next a)) :
    UnderName names (result >>= next) := by
  intro misfit hmisfit
  rcases bind_eq_error.mp hmisfit with hresult | ⟨a, -, ha⟩
  · exact h misfit hresult
  · exact hnext a misfit ha

theorem prefix_of_misfit? {field : FieldSpec} {shape : Shape α}
    (h : (Slot.read (.object members) field shape).misfit? = some misfit) :
    [.key field.name] <+: misfit.path := by
  unfold Slot.misfit? Slot.read at h
  cases hpart : Json.part? (.object members) field with
  | none => simp [hpart] at h
  | some part =>
    cases hshape : shape part with
    | ok a => simp [hpart, hshape, Shape.under, Except.mapError] at h
    | error inner =>
      simp only [hpart, hshape, Option.map_some, Shape.under, Except.mapError, Option.some.injEq] at h
      obtain rfl := h
      exact List.prefix_append [.key field.name] inner.path

theorem misfit?_erase (slot : Slot α) : slot.erase.misfit? = slot.misfit? := by
  obtain ⟨field, _ | result⟩ := slot
  · rfl
  · cases result <;> rfl

theorem underName_get {field : FieldSpec} (hname : field.name ∈ names) (shape : Shape α) :
    UnderName names (Slot.read (.object members) field shape).get := by
  intro misfit hmisfit
  cases hresult : (Slot.read (.object members) field shape).result? with
  | none =>
    simp only [Slot.get, hresult, Option.getD_none, Shape.misfit, Except.error.injEq] at hmisfit
    exact .inl (by rw [← hmisfit])
  | some result =>
    simp only [Slot.get, hresult, Option.getD_some] at hmisfit
    have hsome : (Slot.read (.object members) field shape).misfit? = some misfit := by
      rw [Slot.misfit?, hresult, hmisfit]
    exact .inr ⟨_, hname, prefix_of_misfit? hsome⟩

theorem underName_getD {field : FieldSpec} (hname : field.name ∈ names) (shape : Shape α)
    (default : α) : UnderName names ((Slot.read (.object members) field shape).getD default) := by
  intro misfit hmisfit
  cases hresult : (Slot.read (.object members) field shape).result? with
  | none => simp [Slot.getD, hresult] at hmisfit
  | some result =>
    simp only [Slot.getD, hresult, Option.getD_some] at hmisfit
    have hsome : (Slot.read (.object members) field shape).misfit? = some misfit := by
      rw [Slot.misfit?, hresult, hmisfit]
    exact .inr ⟨_, hname, prefix_of_misfit? hsome⟩

/-- A record is refused as a whole, or at one of its fields. -/
theorem underName_checkRecord {record : String} {slots : List (Slot Unit)}
    (h : ∀ slot ∈ slots, ∀ misfit, slot.misfit? = some misfit →
      ∃ name ∈ names, [.key name] <+: misfit.path) :
    UnderName names (Json.checkRecord (.object members) record slots) := by
  intro misfit hmisfit
  simp only [Json.checkRecord] at hmisfit
  split at hmisfit
  · rename_i found hfound
    obtain rfl := Except.error.inj hmisfit
    obtain ⟨slot, hslot, hsome⟩ := List.exists_of_findSome?_eq_some hfound
    obtain ⟨member, -, hfind⟩ := List.mem_filterMap.mp hslot
    exact .inr (h slot (List.mem_of_find?_eq_some hfind) _ hsome)
  · split at hmisfit
    · exact .inl (by rw [← Except.error.inj hmisfit])
    · cases hmisfit

end

/-- A misfit in a schema that is an object lies under one of its fields, or is one of the whole. -/
theorem telling_of_shape {members : List (String × Json)} {misfit : Json.Misfit}
    (h : SchemaNode.shape (.object members) = .error misfit) : Telling misfit.path := by
  let names := ["queryType", "mutationType", "subscriptionType", "types", "directives"]
  have hname : UnderName names (SchemaNode.shape (.object members)) := by
    refine .bind (underName_checkRecord ?_) fun _ => ?_
    · simp only [List.forall_mem_cons, misfit?_erase]
      exact ⟨fun _ h => ⟨_, by decide, prefix_of_misfit? h⟩,
        fun _ h => ⟨_, by decide, prefix_of_misfit? h⟩,
        fun _ h => ⟨_, by decide, prefix_of_misfit? h⟩,
        fun _ h => ⟨_, by decide, prefix_of_misfit? h⟩,
        fun _ h => ⟨_, by decide, prefix_of_misfit? h⟩, by simp⟩
    · refine .bind (underName_getD (by decide) _ none) fun _ => ?_
      refine .bind (underName_getD (by decide) _ none) fun _ => ?_
      refine .bind (underName_getD (by decide) _ none) fun _ => ?_
      refine .bind (underName_get (by decide) _) fun _ => ?_
      exact .bind (underName_getD (by decide) _ []) fun _ => nofun
  rcases hname misfit h with hwhole | ⟨name, hmem, hprefix⟩
  · exact fun hne => absurd hwhole hne
  · have hplain : ∀ name ∈ names, Json.Step.isPlain (.key name) := by decide
    exact telling_of_prefix name (hplain name hmem) hprefix

/-! ## Main Result -/

/-- Items are added to a schema as they are seen from the document. -/
theorem shows_readItems (envelope : Envelope) (policy : Policy) {its : List (Fallible Item)}
    (htelling : ∀ path fault, .error (path, fault) ∈ its → Telling path) (schema : Schema) :
    envelope.Shows (readItems .bare policy schema its)
      (readItems envelope policy (schema.mapOrigins envelope.seen)
        (its.map (·.map (Item.mapOrigins envelope.seen)))) := by
  induction its generalizing schema with
  | nil => exact .schema
  | cons item its ih =>
    have hrest := ih fun path fault h => htelling path fault (List.mem_cons_of_mem _ h)
    match item with
    | .error (path, fault) =>
      have hpath := pathText_eq_seenFault envelope (htelling path fault List.mem_cons_self)
      show envelope.Shows _ (.error (.malformedDocument ⟨envelope.pathText path, fault⟩))
      rw [hpath]
      exact .fault
    | .ok (.declared declaration) =>
      have hschema : ({ schema with declarations := schema.declarations ++ [declaration] } :
          Schema).mapOrigins envelope.seen =
          { schema.mapOrigins envelope.seen with
            declarations := (schema.mapOrigins envelope.seen).declarations ++
              [declaration.mapOrigins envelope.seen] } := by
        simp [Schema.mapOrigins]
      have hnext := hrest { schema with declarations := schema.declarations ++ [declaration] }
      rw [hschema] at hnext
      exact hnext
    | .ok (.skipped construct) =>
      cases policy with
      | reject => exact .refused
      | skip =>
        have hschema : ({ schema with skipped := schema.skipped ++ [construct] } :
            Schema).mapOrigins envelope.seen =
            { schema.mapOrigins envelope.seen with
              skipped := (schema.mapOrigins envelope.seen).skipped ++
                [construct.mapOrigin envelope.seen] } := by
          simp [Schema.mapOrigins]
        have hnext := hrest { schema with skipped := schema.skipped ++ [construct] }
        rw [hschema] at hnext
        exact hnext

/-- A schema that is an object is read in an envelope as what its bare reading shows. -/
theorem shows_of_locate {envelope : Envelope} {members : List (String × Json)} {document : Json}
    (hbare : locate (.object members) = .ok (.bare, .object members))
    (hlocate : locate document = .ok (envelope, .object members)) (policy : Policy) :
    envelope.Shows (readValue policy (.object members)) (readValue policy document) := by
  unfold readValue
  rw [hbare, hlocate]
  cases hshape : SchemaNode.shape (.object members) with
  | error misfit =>
    simp only [hshape, pathText_eq_seenFault envelope (telling_of_shape hshape)]
    exact .fault
  | ok node =>
    have hroots : rootsSchema envelope node = (rootsSchema .bare node).mapOrigins envelope.seen := by
      unfold rootsSchema
      rw [originAt_eq envelope (by simp)]
      rfl
    simp only [hshape, readNode, hroots, items_seen envelope node]
    exact shows_readItems envelope policy (fun _ _ => telling_of_mem_items) _

/-- **Agreement of the envelopes**: an object with types and without either of the keys `data` and
    `__schema` is read in the same way as it is, under `__schema`, and under `__schema` in `data`. The
    first clause says that all origins of its own reading are paths. -/
theorem envelopes_agree {schema wrapped response data : Json} (policy : Policy)
    (htypes : (schema.member? "types").isSome)
    (hbare : schema.member? "data" = none ∧ schema.member? "__schema" = none)
    (hwrapped : wrapped.member? "data" = none ∧ wrapped.member? "__schema" = some schema)
    (hresponse : response.member? "data" = some data ∧ data.member? "__schema" = some schema) :
    Envelope.bare.Shows (readValue policy schema) (readValue policy schema) ∧
      Envelope.schemaKey.Shows (readValue policy schema) (readValue policy wrapped) ∧
      Envelope.response.Shows (readValue policy schema) (readValue policy response) := by
  obtain ⟨types, htypes⟩ := Option.isSome_iff_exists.mp htypes
  have hholds : Holds schema "types" types := htypes
  have hwrappedHolds : Holds wrapped "__schema" schema := hwrapped.2
  have hresponseHolds : Holds response "data" data := hresponse.1
  obtain ⟨members, rfl⟩ := hholds.exists_members
  obtain ⟨others, rfl⟩ := hwrappedHolds.exists_members
  obtain ⟨outer, rfl⟩ := hresponseHolds.exists_members
  have hlocate : locate (.object members) = .ok (.bare, .object members) := by
    simp [locate, hbare, htypes]
  refine ⟨shows_of_locate hlocate hlocate policy, shows_of_locate hlocate ?_ policy,
    shows_of_locate hlocate ?_ policy⟩
  · simp [locate, hwrapped]
  · simp [locate, hresponse]

/-- A schema with a field that has an argument, and with a union that is left out. -/
def pontoonSchema : Json :=
  let text := ("type", Json.object [("kind", .string "SCALAR"), ("name", .string "String")])
  let argument := Json.object [("name", .string "by"), text]
  let crossing := Json.object [("name", .string "crossing"), text, ("args", .array [argument])]
  .object [("queryType", .object [("name", .string "Query")]),
    ("types", .array [
      .object [("kind", .string "OBJECT"), ("name", .string "Query"), ("fields", .array [crossing])],
      .object [("kind", .string "UNION"), ("name", .string "Any")]])]

/-- The schema in a response, next to a key that means nothing. -/
def pontoonResponse : Json :=
  .object [("errors", .null), ("data", .object [("__schema", pontoonSchema)])]

theorem envelopes_agree_pontoon :
    ∃ schema, readValue .skip pontoonSchema = .ok schema ∧
      schema.skipped = [⟨.union, "Any", .introspection "types[1]"⟩] ∧
      readValue .skip pontoonResponse = .ok (schema.mapOrigins Envelope.response.seen) ∧
      (schema.mapOrigins Envelope.response.seen).skipped =
        [⟨.union, "Any", .introspection "data.__schema.types[1]"⟩] := by
  have hsome : (readValue .skip pontoonSchema).toOption.map Schema.skipped =
      some [⟨.union, "Any", .introspection "types[1]"⟩] := by decide +kernel
  obtain ⟨schema, hschema, hskipped⟩ := Option.map_eq_some_iff.mp hsome
  have hread : readValue .skip pontoonSchema = .ok schema := toOption_eq_some.mp hschema
  have hwrapped : (Json.object [("__schema", pontoonSchema)]).member? "data" = none ∧
      (Json.object [("__schema", pontoonSchema)]).member? "__schema" = some pontoonSchema :=
    ⟨rfl, rfl⟩
  have hresponse : pontoonResponse.member? "data" = some (.object [("__schema", pontoonSchema)]) ∧
      (Json.object [("__schema", pontoonSchema)]).member? "__schema" = some pontoonSchema :=
    ⟨rfl, rfl⟩
  obtain ⟨-, -, hshows⟩ := envelopes_agree .skip rfl ⟨rfl, rfl⟩ hwrapped hresponse
  rw [hread] at hshows
  generalize readValue .skip pontoonResponse = outcome at hshows
  cases hshows
  refine ⟨schema, hread, hskipped, rfl, ?_⟩
  show schema.skipped.map _ = _
  rw [hskipped]
  decide

end Introspection

end SchemaModel
