import SchemaModel.Proofs.Acceptance
import SchemaModel.Proofs.Overriding

/-! # Grounds

    Why a schema has no model, in terms of the schema alone.

    * **Namespaces**: the places where names claim identifiers, which are the type names, the fields
      of a type and the arguments of a field. Members of skipped types are not among them.
    * **Reached**: what a scope holds when some members of a namespace have claimed their
      identifiers. A claim that is refused then is in conflict with an earlier member.
    * **Grounds**: the things in a schema that stand against a model, each with the failure that
      reports it. Every failure has its ground, whatever the options are, and a ground leaves no
      way to a model.
    * **StuckOn**: a schema fails because a member refers to an unknown name. Declaring the name is
      a remedy, and an override for it is none. -/

namespace SchemaModel

/-- An element stands before another one in two lists put together, if it is in the first and the
    other one opens the second. -/
theorem pair_sublist {α : Type} {x y : α} {before after : List α} (h : x ∈ before) :
    [x, y].Sublist (before ++ y :: after) :=
  (List.singleton_sublist.mpr h).append ((List.nil_sublist after).cons_cons y)

/-! ## Namespaces -/

/-- Something that goes by a name of its own. -/
structure Member where
  name : String
  origin : Origin
  deriving Repr, DecidableEq

/-- A place in which members claim identifiers, in this order. -/
structure Namespace where
  /-- The wording for the place. -/
  label : String
  /-- What the names in it belong to. -/
  owner : Option String
  role : IdentifierRole
  members : List Member
  deriving Repr, DecidableEq

namespace Namespace

/-- The scope of the namespace, with nothing taken yet. -/
def scope (space : Namespace) : Scope := ⟨space.label, space.owner, []⟩

/-- **Conflicts**: the later one of two members repeats the name of the earlier one, or has another
    name with the same identifier. -/
inductive Conflict (space : Namespace) : Failure → Prop where
  | repetition {earlier later : Member} (order : [earlier, later].Sublist space.members)
      (same : earlier.name = later.name) :
      Conflict space (.duplicate (space.scope.qualified later.name) later.origin)
  | collision {earlier later : Member} {ident : String}
      (order : [earlier, later].Sublist space.members) (different : earlier.name ≠ later.name)
      (first : identifier space.role earlier.name = ident)
      (second : identifier space.role later.name = ident) :
      Conflict space (.collision space.label ident earlier.name later.name later.origin)

/-- What a scope holds when the given members of a namespace have claimed their identifiers. -/
structure Reached (space : Namespace) (claimed : List Member) (scope : Scope) : Prop where
  label : scope.label = space.label
  owner : scope.owner = space.owner
  held : ∀ ident name, scope.get? ident = some name →
    identifier space.role name = ident ∧ ∃ member ∈ claimed, member.name = name

/-- At first nothing is taken. -/
theorem reached_nil (space : Namespace) : space.Reached [] space.scope :=
  ⟨rfl, rfl, fun _ _ h => by simp [scope, Scope.get?] at h⟩

/-- A claim that succeeds takes the identifier for its member, and leaves the others as they are. -/
theorem Reached.claim {space : Namespace} {claimed : List Member} {scope after : Scope}
    {member : Member} (hscope : space.Reached claimed scope)
    (h : scope.claim member.name (identifier space.role member.name) member.origin = .ok after) :
    space.Reached (claimed ++ [member]) after := by
  obtain ⟨-, rfl⟩ := Scope.claim_eq_ok.mp h
  refine ⟨hscope.label, hscope.owner, ?_⟩
  intro ident name hget
  rw [Scope.get?_taking] at hget
  split at hget
  · -- the identifier is the one that has just been taken
    rename_i hident
    obtain rfl : member.name = name := Option.some.inj hget
    exact ⟨hident.symm, member, by simp, rfl⟩
  · obtain ⟨hident, other, hother, hname⟩ := hscope.held ident name hget
    exact ⟨hident, other, List.mem_append_left _ hother, hname⟩

/-- A claim that is refused is in conflict with a member before it. -/
theorem Reached.conflict {space : Namespace} {claimed others : List Member} {scope : Scope}
    {member : Member} {failure : Failure} (hscope : space.Reached claimed scope)
    (hmembers : space.members = claimed ++ member :: others)
    (h : scope.claim member.name (identifier space.role member.name) member.origin =
      .error failure) : space.Conflict failure := by
  unfold Scope.claim at h
  cases hget : scope.get? (identifier space.role member.name) with
  | none => simp [hget] at h
  | some first =>
    obtain ⟨hident, earlier, hearlier, rfl⟩ := hscope.held _ _ hget
    have horder : [earlier, member].Sublist space.members := by
      rw [hmembers]
      exact pair_sublist hearlier
    have hqualified : scope.qualified member.name = space.scope.qualified member.name := by
      simp [Scope.qualified, Namespace.scope, hscope.owner]
    simp only [hget] at h
    split at h
    · rename_i hsame
      obtain rfl := Except.error.inj h
      rw [hqualified]
      exact .repetition horder hsame
    · rename_i hdifferent
      obtain rfl := Except.error.inj h
      rw [hscope.label]
      exact .collision horder hdifferent hident rfl

/-- Members that are in conflict do not have identifiers of their own. -/
theorem Conflict.not_nodup {space : Namespace} {failure : Failure} (h : space.Conflict failure) :
    ¬(space.members.map fun member => identifier space.role member.name).Nodup := by
  intro hnodup
  cases h with
  | repetition order same =>
    have hpair := order.map fun member => identifier space.role member.name
    have hdistinct := hpair.nodup hnodup
    simp [same] at hdistinct
  | collision order different first second =>
    have hpair := order.map fun member => identifier space.role member.name
    have hdistinct := hpair.nodup hnodup
    simp [first, second] at hdistinct

end Namespace

/-! ## Places of Types -/

/-- A type where it is written. -/
structure TypedPlace where
  site : ReferenceSite
  origin : Origin
  type : TypeRef String
  deriving Repr, DecidableEq

/-- What is reported if the type is unknown. -/
def TypedPlace.failure (place : TypedPlace) : Failure :=
  .unresolved place.type.base place.site place.origin

namespace Schema

variable (schema : Schema)

/-- The kept arguments or input fields as members. -/
def inputMembers (values : List InputValue) : List Member :=
  (keptInputs schema values).map fun value => ⟨value.name, value.origin⟩

/-- The types of kept arguments or input fields. -/
def inputPlaces (site : String → ReferenceSite) (values : List InputValue) : List TypedPlace :=
  (keptInputs schema values).map fun value => ⟨site value.name, value.origin, value.type⟩

theorem map_identifier_inputMembers (role : IdentifierRole) (values : List InputValue) :
    (schema.inputMembers values).map (fun member => identifier role member.name) =
      (keptInputs schema values).map fun value => identifier role value.name := by
  simp [inputMembers, Function.comp_def]

/-- The namespace of what has its names right under a type. -/
def fieldSpace (owner : String) (members : List Member) : Namespace :=
  ⟨"fields of `" ++ owner ++ "`", some owner, .typeMember, members⟩

/-- The namespace of the arguments of a field. -/
def argumentSpace (owner : String) (field : Field) : Namespace :=
  let path := owner ++ "." ++ field.name
  ⟨"arguments of `" ++ path ++ "`", some path, .localVariable, schema.inputMembers field.args⟩

/-- The types with identifiers as members. Scalars have none. -/
def typeMembers (decls : List Declaration) : List Member :=
  (identified decls).map fun decl => ⟨decl.name, decl.origin⟩

/-- The namespace of the types. -/
def typeSpace : Namespace :=
  ⟨"schema", none, .typeMember, typeMembers schema.declarations⟩

/-- The fields of an object type as members. -/
def fieldMembers (fields : List Field) : List Member :=
  (keptFields schema fields).map fun field => ⟨field.name, field.origin⟩

theorem map_identifier_fieldMembers (role : IdentifierRole) (fields : List Field) :
    (schema.fieldMembers fields).map (fun member => identifier role member.name) =
      (keptFields schema fields).map fun field => identifier role field.name := by
  simp [fieldMembers, Function.comp_def]

/-- The namespaces under a type. -/
def memberSpaces (owner : String) : DeclarationKind → List Namespace
  | .object fields =>
    fieldSpace owner (schema.fieldMembers fields) ::
      (keptFields schema fields).map (schema.argumentSpace owner)
  | .input fields => [fieldSpace owner (schema.inputMembers fields)]
  | .enum _ | .scalar => []

/-- **Namespaces**: that of the types and those under each of them. -/
def namespaces : List Namespace :=
  schema.typeSpace :: schema.declarations.flatMap fun decl =>
    schema.memberSpaces decl.name decl.kind

/-- The types of a kept field and of its arguments. -/
def fieldPlaces (owner : String) (field : Field) : List TypedPlace :=
  ⟨.field owner field.name, field.origin, field.type⟩ ::
    schema.inputPlaces (.argument owner field.name) field.args

/-- The types of the kept members of a type. -/
def memberPlaces (owner : String) : DeclarationKind → List TypedPlace
  | .object fields => (keptFields schema fields).flatMap (schema.fieldPlaces owner)
  | .input fields => schema.inputPlaces (.inputField owner) fields
  | .enum _ | .scalar => []

/-- The types of all kept fields, arguments and input fields. -/
def places : List TypedPlace :=
  schema.declarations.flatMap fun decl => schema.memberPlaces decl.name decl.kind

/-! ## Grounds -/

/-- **Grounds**: what there is in a schema that stands against a model, and the failure that reports
    it. -/
inductive Grounds : Failure → Prop where
  /-- Two members of a namespace are in conflict. -/
  | conflict {space : Namespace} {failure : Failure} (mem : space ∈ schema.namespaces)
      (conflict : space.Conflict failure) : Grounds failure
  /-- A built-in scalar is declared as something else. -/
  | builtin {decl : Declaration} (mem : decl ∈ schema.declarations)
      (builtin : isBuiltinScalar decl.name) (scalar : ¬decl.isScalar) :
      Grounds (.duplicate decl.name decl.origin)
  /-- The later one of two declarations repeats the name of the earlier one. -/
  | redeclared {earlier later : Declaration} (order : [earlier, later].Sublist schema.declarations)
      (same : earlier.name = later.name) (builtin : ¬isBuiltinScalar later.name) :
      Grounds (.duplicate later.name later.origin)
  /-- An enum lists a value twice. -/
  | listedTwice {decl : Declaration} {values : List String} {value : String}
      (mem : decl ∈ schema.declarations) (kind : decl.kind = .enum values)
      (order : [value, value].Sublist values) :
      Grounds (.duplicate (decl.name ++ "." ++ value) decl.origin)
  /-- There is no query root. -/
  | rootless (query : schema.roots.query = none) :
      Grounds (.unresolved "Query" .absentQueryRoot schema.rootsOrigin)
  /-- The query root is no declared object type. -/
  | queryRoot {name : String} (query : schema.roots.query = some name)
      (undeclared : ¬schema.DeclaresObject name) :
      Grounds (.unresolved name .queryRoot schema.rootsOrigin)
  /-- The mutation root is no declared object type. -/
  | mutationRoot {name : String} (mutation : schema.roots.mutation = some name)
      (undeclared : ¬schema.DeclaresObject name) :
      Grounds (.unresolved name .mutationRoot schema.rootsOrigin)
  /-- The type of a kept member is neither built in nor declared. -/
  | unknown {place : TypedPlace} (mem : place ∈ schema.places)
      (unknown : ¬schema.Known place.type.base) : Grounds place.failure

/-- One of the types is unknown, and the failure reports it. -/
def UnknownAt (places : List TypedPlace) (failure : Failure) : Prop :=
  ∃ place ∈ places, ¬schema.Known place.type.base ∧ failure = place.failure

/-- A declaration with a conflict or an unknown type in it is a ground. -/
theorem grounds_of_declaration {schema : Schema} {decl : Declaration} {failure : Failure}
    (hdecl : decl ∈ schema.declarations)
    (h : (∃ space ∈ schema.memberSpaces decl.name decl.kind, space.Conflict failure) ∨
      schema.UnknownAt (schema.memberPlaces decl.name decl.kind) failure) :
    schema.Grounds failure := by
  rcases h with ⟨space, hspace, hconflict⟩ | ⟨place, hplace, hunknown, rfl⟩
  · exact .conflict (List.mem_cons_of_mem _ (List.mem_flatMap.mpr ⟨decl, hdecl, hspace⟩)) hconflict
  · exact .unknown (List.mem_flatMap.mpr ⟨decl, hdecl, hplace⟩) hunknown

end Schema

/-! ## Failures of Members -/

/-- A type does not convert if its one leaf does not. -/
theorem TypeRef.mapM_eq_error {α β ε : Type} {f : α → Except ε β} {type : TypeRef α} {e : ε} :
    type.mapM f = .error e ↔ f type.base = .error e := by
  induction type with
  | named leaf => exact map_eq_error
  | list item ih | nonNull item ih => exact map_eq_error.trans ih

section

variable {options : Options} {schema : Schema} {failure : Failure}

theorem resolveName_eq_error {site : ReferenceSite} {origin : Origin} {name : String} :
    resolveName options schema site origin name = .error failure ↔
      ¬schema.Known name ∧ failure = .unresolved name site origin := by
  unfold resolveName Schema.Known
  by_cases hb : isBuiltinScalar name
  · simp [hb]
  · rw [if_neg hb]
    cases hf : schema.find? name with
    | none =>
      have hnone := Schema.find?_eq_none.mp hf
      simp only [Except.error.injEq, eq_comm (a := failure)]
      refine ⟨fun h => ⟨?_, h⟩, And.right⟩
      rintro (h | ⟨decl, hmem, hname⟩)
      · exact hb h
      · exact hnone decl hmem hname
    | some decl =>
      have hknown : ∃ decl ∈ schema.declarations, decl.name = name :=
        ⟨decl, Schema.find?_eq_some hf⟩
      by_cases hs : decl.isScalar <;> simp [hs, hknown]

/-- A type does not resolve if it is unknown where it is written. -/
theorem resolveType_eq_error (place : TypedPlace) :
    resolveType options schema place.site place.origin place.type = .error failure ↔
      ¬schema.Known place.type.base ∧ failure = place.failure :=
  TypeRef.mapM_eq_error.trans resolveName_eq_error

/-- Members do not resolve if one is in conflict with an earlier one, or does not resolve on its
    own. -/
theorem conflict_or_of_resolveMembers {α : Type} {space : Namespace} {claimed : List Member}
    {scope : Scope} {members : List (Claimant α)} (hscope : space.Reached claimed scope)
    (hmembers : space.members = claimed ++ members.map fun member => ⟨member.name, member.origin⟩)
    (h : resolveMembers space.role scope members = .error failure) :
    space.Conflict failure ∨
      ∃ member ∈ members, member.resolve (identifier space.role member.name) = .error failure := by
  induction members generalizing claimed scope with
  | nil => simp [resolveMembers] at h
  | cons member members ih =>
    rw [List.map_cons] at hmembers
    rcases bind_eq_error.mp h with hclaim | ⟨after, hclaim, h⟩
    · exact .inl (Namespace.Reached.conflict hscope hmembers hclaim)
    · rcases bind_eq_error.mp h with hresolve | ⟨resolved, -, h⟩
      · exact .inr ⟨member, List.mem_cons_self, hresolve⟩
      · -- the member before the others has claimed its identifier
        have hreached : space.Reached (claimed ++ [⟨member.name, member.origin⟩]) after :=
          hscope.claim hclaim
        have hothers : resolveMembers space.role after members = .error failure := by
          simpa [bind_eq_error, pure, Except.pure] using h
        rcases ih hreached (by simpa using hmembers) hothers with hconflict | ⟨other, hmem, hother⟩
        · exact .inl hconflict
        · exact .inr ⟨other, List.mem_cons_of_mem _ hmem, hother⟩

/-- Arguments or input fields do not resolve if two of them are in conflict, or the type of one is
    unknown. -/
theorem conflict_or_unknown_of_resolveInputs {space : Namespace} {values : List InputValue}
    {site : String → ReferenceSite} (hmembers : space.members = schema.inputMembers values)
    (h : resolveMembers space.role space.scope
      ((keptInputs schema values).map (inputClaimant options schema site)) = .error failure) :
    space.Conflict failure ∨ schema.UnknownAt (schema.inputPlaces site values) failure := by
  have hall : space.members = [] ++ ((keptInputs schema values).map
      (inputClaimant options schema site)).map fun member => ⟨member.name, member.origin⟩ := by
    simp [hmembers, Schema.inputMembers, inputClaimant]
  rcases conflict_or_of_resolveMembers space.reached_nil hall h with hconflict | ⟨_, hmem, hmember⟩
  · exact .inl hconflict
  · obtain ⟨value, hvalue, rfl⟩ := List.mem_map.mp hmem
    have htype : resolveType options schema (site value.name) value.origin value.type =
        .error failure := by
      simpa [inputClaimant, bind_eq_error, pure, Except.pure] using hmember
    obtain ⟨hunknown, hfailure⟩ := (resolveType_eq_error ⟨_, _, _⟩).mp htype
    exact .inr ⟨_, List.mem_map.mpr ⟨value, hvalue, rfl⟩, hunknown, hfailure⟩

/-- A field does not resolve if two of its arguments are in conflict, or its type or that of an
    argument is unknown. -/
theorem conflict_or_unknown_of_fieldClaimant {owner ident : String} {field : Field}
    (h : (fieldClaimant options schema owner field).resolve ident = .error failure) :
    (schema.argumentSpace owner field).Conflict failure ∨
      schema.UnknownAt (schema.fieldPlaces owner field) failure := by
  rcases bind_eq_error.mp h with htype | ⟨type, -, h⟩
  · obtain ⟨hunknown, hfailure⟩ := (resolveType_eq_error ⟨_, _, _⟩).mp htype
    exact .inr ⟨_, List.mem_cons_self, hunknown, hfailure⟩
  · have hargs : resolveArgs options schema owner field = .error failure := by
      simpa [bind_eq_error, pure, Except.pure] using h
    have hspace : (schema.argumentSpace owner field).Conflict failure ∨
        schema.UnknownAt (schema.inputPlaces (.argument owner field.name) field.args) failure :=
      conflict_or_unknown_of_resolveInputs rfl hargs
    exact hspace.imp_right fun ⟨place, hplace, hunknown⟩ =>
      ⟨place, List.mem_cons_of_mem _ hplace, hunknown⟩

/-- The fields of a type do not resolve if two of them are in conflict, or if it is so with one of
    them. -/
theorem conflict_or_unknown_of_resolveFields {owner : String} {fields : List Field}
    (h : resolveMembers .typeMember (fieldScope owner)
      ((keptFields schema fields).map (fieldClaimant options schema owner)) = .error failure) :
    (∃ space ∈ schema.memberSpaces owner (.object fields), space.Conflict failure) ∨
      schema.UnknownAt (schema.memberPlaces owner (.object fields)) failure := by
  have hall : (Schema.fieldSpace owner (schema.fieldMembers fields)).members =
      [] ++ ((keptFields schema fields).map (fieldClaimant options schema owner)).map
        fun member => ⟨member.name, member.origin⟩ := by
    simp [Schema.fieldSpace, Schema.fieldMembers, fieldClaimant]
  rcases conflict_or_of_resolveMembers (Schema.fieldSpace owner _).reached_nil hall h with
    hconflict | ⟨_, hmem, hmember⟩
  · exact .inl ⟨_, List.mem_cons_self, hconflict⟩
  · obtain ⟨field, hfield, rfl⟩ := List.mem_map.mp hmem
    rcases conflict_or_unknown_of_fieldClaimant hmember with hconflict | ⟨place, hplace, hunknown⟩
    · exact .inl ⟨_, List.mem_cons_of_mem _ (List.mem_map.mpr ⟨field, hfield, rfl⟩), hconflict⟩
    · exact .inr ⟨place, List.mem_flatMap.mpr ⟨field, hfield, hplace⟩, hunknown⟩

/-! ## Failures of Declarations -/

/-- The check of enum values fails at a value that has been listed before. -/
theorem listedTwice_of_checkEnumValues {decl : Declaration} {seen before values : List String}
    (hseen : ∀ value ∈ seen, value ∈ before)
    (h : checkEnumValues decl seen values = .error failure) :
    ∃ value, [value, value].Sublist (before ++ values) ∧
      failure = .duplicate (decl.name ++ "." ++ value) decl.origin := by
  induction values generalizing seen before with
  | nil => simp [checkEnumValues] at h
  | cons value values ih =>
    unfold checkEnumValues at h
    split at h
    · rename_i hmem
      have hbefore := hseen value (by simpa using hmem)
      exact ⟨value, pair_sublist hbefore, (Except.error.inj h).symm⟩
    · have hlater : ∀ other ∈ value :: seen, other ∈ before ++ [value] := by
        simp only [List.mem_cons, List.mem_append, List.not_mem_nil, or_false]
        rintro other (rfl | hother)
        · exact .inr rfl
        · exact .inl (hseen other hother)
      simpa using ih hlater h

/-- A declaration does not resolve if something in it is a ground. -/
theorem grounds_of_resolveDeclaration {decl : Declaration} (hdecl : decl ∈ schema.declarations)
    (h : resolveDeclaration options schema decl = .error failure) : schema.Grounds failure := by
  have hground := @Schema.grounds_of_declaration schema decl failure hdecl
  unfold resolveDeclaration at h
  cases hkind : decl.kind with
  | object fields =>
    rw [hkind] at h hground
    have hfields : resolveMembers .typeMember (fieldScope decl.name)
        ((keptFields schema fields).map (fieldClaimant options schema decl.name)) =
          .error failure := by
      simpa [bind_eq_error, pure, Except.pure] using h
    exact hground (conflict_or_unknown_of_resolveFields hfields)
  | input fields =>
    rw [hkind] at h hground
    have hfields : resolveMembers .typeMember (fieldScope decl.name)
        ((keptInputs schema fields).map
          (inputClaimant options schema (.inputField decl.name))) = .error failure := by
      simpa [bind_eq_error, pure, Except.pure] using h
    have hspace : (Schema.fieldSpace decl.name (schema.inputMembers fields)).Conflict failure ∨
        schema.UnknownAt (schema.memberPlaces decl.name (.input fields)) failure :=
      conflict_or_unknown_of_resolveInputs rfl hfields
    exact hground (hspace.imp_left fun hconflict => ⟨_, List.mem_singleton_self _, hconflict⟩)
  | enum values =>
    rw [hkind] at h
    have hvalues : checkEnumValues decl [] values = .error failure := by
      simpa [bind_eq_error, pure, Except.pure] using h
    obtain ⟨value, horder, rfl⟩ := listedTwice_of_checkEnumValues (fun _ h => h) hvalues
    exact .listedTwice hdecl hkind horder
  | scalar =>
    rw [hkind] at h
    cases h

/-- Declarations do not resolve if something in one of them is a ground. -/
theorem grounds_of_resolveDeclarations {decls : List Declaration}
    (hdecls : ∀ decl ∈ decls, decl ∈ schema.declarations)
    (h : resolveDeclarations options schema decls = .error failure) : schema.Grounds failure := by
  induction decls with
  | nil => cases h
  | cons decl decls ih =>
    obtain ⟨hdecl, hothers⟩ := List.forall_mem_cons.mp hdecls
    unfold resolveDeclarations at h
    split at h
    · exact ih hothers h
    · rcases bind_eq_error.mp h with hfirst | ⟨definition, -, h⟩
      · exact grounds_of_resolveDeclaration hdecl hfirst
      · exact ih hothers (by simpa [bind_eq_error, pure, Except.pure] using h)

/-- A scalar is no member of the namespace of the types. -/
theorem Schema.typeMembers_concat {before : List Declaration} {decl : Declaration}
    (h : isBuiltinScalar decl.name ∨ decl.isScalar) :
    typeMembers (before ++ [decl]) = typeMembers before := by
  rcases h with h | h <;> simp [typeMembers, identified, named, h]

/-- Any other declaration is one. -/
theorem Schema.typeMembers_append_cons {before decls : List Declaration} {decl : Declaration}
    (hb : ¬isBuiltinScalar decl.name) (hs : ¬decl.isScalar) :
    typeMembers (before ++ decl :: decls) =
      typeMembers before ++ ⟨decl.name, decl.origin⟩ :: typeMembers decls := by
  simp [typeMembers, identified, named, hb, hs]

/-- The check of declarations fails at the first one that repeats a name, is that of a built-in
    scalar without being a scalar, or has the identifier of an earlier one. -/
theorem grounds_of_checkDeclarations {seen : List String} {scope : Scope}
    {before decls : List Declaration} (hdecls : schema.declarations = before ++ decls)
    (hseen : ∀ name ∈ seen, ∃ decl ∈ before, decl.name = name)
    (hscope : schema.typeSpace.Reached (Schema.typeMembers before) scope)
    (h : checkDeclarations seen scope decls = .error failure) : schema.Grounds failure := by
  induction decls generalizing seen scope before with
  | nil => cases h
  | cons decl decls ih =>
    have hmem : decl ∈ schema.declarations := by simp [hdecls]
    have hnext : schema.declarations = (before ++ [decl]) ++ decls := by simp [hdecls]
    have hearlier : ∀ name ∈ seen, ∃ other ∈ before ++ [decl], other.name = name := by
      intro name hname
      obtain ⟨other, hother, hsame⟩ := hseen name hname
      exact ⟨other, List.mem_append_left _ hother, hsame⟩
    have hlater : ∀ name ∈ decl.name :: seen, ∃ other ∈ before ++ [decl], other.name = name :=
      List.forall_mem_cons.mpr ⟨⟨decl, by simp, rfl⟩, hearlier⟩
    unfold checkDeclarations at h
    by_cases hb : isBuiltinScalar decl.name
    · rw [if_pos hb] at h
      split at h
      · rw [← Schema.typeMembers_concat (.inl hb)] at hscope
        exact ih hnext hearlier hscope h
      · rename_i hscalar
        obtain rfl := Except.error.inj h
        exact .builtin hmem hb hscalar
    · rw [if_neg hb] at h
      split at h
      · -- the name has been seen before
        rename_i hrepeated
        obtain rfl := Except.error.inj h
        obtain ⟨earlier, hmem, hsame⟩ := hseen decl.name (by simpa using hrepeated)
        refine .redeclared ?_ hsame hb
        rw [hdecls]
        exact pair_sublist hmem
      · split at h
        · rename_i hscalar
          rw [← Schema.typeMembers_concat (.inr hscalar)] at hscope
          exact ih hnext hlater hscope h
        · -- the declaration claims its identifier
          rename_i hscalar
          have hmembers : schema.typeSpace.members = Schema.typeMembers before ++
              ⟨decl.name, decl.origin⟩ :: Schema.typeMembers decls := by
            simp only [Schema.typeSpace, hdecls, Schema.typeMembers_append_cons hb hscalar]
          rcases bind_eq_error.mp h with hclaim | ⟨after, hclaim, h⟩
          · exact .conflict List.mem_cons_self (hscope.conflict hmembers hclaim)
          · refine ih hnext hlater ?_ h
            rw [Schema.typeMembers_append_cons hb hscalar]
            exact hscope.claim hclaim

/-! ## Failures of Roots -/

/-- Among declarations that pass their check, the roots do not pass theirs if one is missing or is
    no declared object. -/
theorem grounds_of_checkRoots (hcheck : checkDeclarations [] .types schema.declarations = .ok ())
    (h : checkRoots schema = .error failure) : schema.Grounds failure := by
  obtain ⟨hbuiltins, hnew, -⟩ := checkDeclarations_eq_ok.mp hcheck
  have hroot : ∀ {site : ReferenceSite} {name : String},
      checkRoot schema site name = .error failure →
        ¬schema.DeclaresObject name ∧ .unresolved name site schema.rootsOrigin = failure := by
    intro site name h
    rw [← find?_isObject hbuiltins (allNew_nil_left.mp hnew)]
    unfold checkRoot at h
    split at h
    · cases h
    · rename_i hobject
      exact ⟨hobject, Except.error.inj h⟩
  unfold checkRoots at h
  cases hquery : schema.roots.query with
  | none =>
    rw [hquery] at h
    obtain rfl := Except.error.inj h
    exact .rootless hquery
  | some query =>
    rw [hquery] at h
    rcases bind_eq_error.mp h with hfirst | ⟨_, -, h⟩
    · obtain ⟨hundeclared, rfl⟩ := hroot hfirst
      exact .queryRoot hquery hundeclared
    · cases hmutation : schema.roots.mutation with
      | none => simp [hmutation, pure, Except.pure] at h
      | some mutation =>
        have hsecond : checkRoot schema .mutationRoot mutation = .error failure := by
          simpa [hmutation, bind_eq_error, pure, Except.pure] using h
        obtain ⟨hundeclared, rfl⟩ := hroot hsecond
        exact .mutationRoot hmutation hundeclared

end

/-! ## Main Results -/

section

variable {schema : Schema} {failure : Failure}

/-- **Every failure has its ground.** -/
theorem grounds_of_resolve {options : Options} (h : resolve options schema = .error failure) :
    schema.Grounds failure := by
  have hall := h
  unfold resolve at h
  rcases bind_eq_error.mp h with hcheck | ⟨_, hcheck, h⟩
  · exact grounds_of_checkDeclarations (List.nil_append _).symm (by simp)
      (Namespace.reached_nil schema.typeSpace) hcheck
  rcases bind_eq_error.mp h with hroots | ⟨query, hroots, h⟩
  · exact grounds_of_checkRoots hcheck hroots
  rcases bind_eq_error.mp h with hdefinitions | ⟨definitions, hdefinitions, -⟩
  · exact grounds_of_resolveDeclarations (fun _ hdecl => hdecl) hdefinitions
  · -- a schema that has come this far has a model
    have hacceptable := acceptable_of_steps hcheck hroots hdefinitions
    rw [hacceptable.resolve_eq options] at hall
    cases hall

namespace Schema.Acceptable

/-- In an acceptable schema the members of a type have identifiers of their own. -/
theorem nodup_of_memberSpaces (h : schema.Acceptable) {decl : Declaration}
    (hdecl : decl ∈ schema.declarations) {space : Namespace}
    (hspace : space ∈ schema.memberSpaces decl.name decl.kind) :
    (space.members.map fun member => identifier space.role member.name).Nodup := by
  have hfit := h.fitting decl hdecl
  cases hkind : decl.kind with
  | object fields =>
    rw [hkind] at hspace hfit
    rcases List.mem_cons.mp hspace with rfl | hspace
    · have hdistinct := hfit.distinct
      rwa [← map_identifier_fieldMembers] at hdistinct
    · obtain ⟨field, hfield, rfl⟩ := List.mem_map.mp hspace
      have hdistinct := (hfit.args field hfield).distinct
      rwa [← map_identifier_inputMembers] at hdistinct
  | input fields =>
    rw [hkind] at hspace hfit
    obtain rfl := List.mem_singleton.mp hspace
    have hdistinct := hfit.distinct
    rwa [← map_identifier_inputMembers] at hdistinct
  | enum values => simp [hkind, memberSpaces] at hspace
  | scalar => simp [hkind, memberSpaces] at hspace

/-- In an acceptable schema nothing is in conflict. -/
theorem not_conflict (h : schema.Acceptable) {space : Namespace}
    (hspace : space ∈ schema.namespaces) : ¬space.Conflict failure := by
  intro hconflict
  refine hconflict.not_nodup ?_
  rcases List.mem_cons.mp hspace with rfl | hspace
  · simpa [typeSpace, typeMembers, Function.comp_def] using h.identifiers
  · obtain ⟨decl, hdecl, hspace⟩ := List.mem_flatMap.mp hspace
    exact h.nodup_of_memberSpaces hdecl hspace

/-- In an acceptable schema the types of all kept members are known. -/
theorem known_of_mem_places (h : schema.Acceptable) {place : TypedPlace}
    (hplace : place ∈ schema.places) : schema.Known place.type.base := by
  obtain ⟨decl, hdecl, hplace⟩ := List.mem_flatMap.mp hplace
  have hfit := h.fitting decl hdecl
  cases hkind : decl.kind with
  | object fields =>
    rw [hkind] at hplace hfit
    obtain ⟨field, hfield, hplace⟩ := List.mem_flatMap.mp hplace
    rcases List.mem_cons.mp hplace with rfl | hplace
    · exact hfit.known field hfield
    · obtain ⟨arg, harg, rfl⟩ := List.mem_map.mp hplace
      exact (hfit.args field hfield).known arg harg
  | input fields =>
    rw [hkind] at hplace hfit
    obtain ⟨value, hvalue, rfl⟩ := List.mem_map.mp hplace
    exact hfit.known value hvalue
  | enum values => simp [hkind, memberPlaces] at hplace
  | scalar => simp [hkind, memberPlaces] at hplace

/-- In an acceptable schema there are no grounds. -/
theorem not_grounds (h : schema.Acceptable) : ¬schema.Grounds failure := by
  intro hground
  cases hground with
  | conflict mem conflict => exact h.not_conflict mem conflict
  | builtin mem builtin scalar => exact scalar (h.builtins _ mem builtin)
  | redeclared order same builtin =>
    have hpair := (order.filter fun decl => !isBuiltinScalar decl.name).map Declaration.name
    have hdistinct := hpair.nodup h.names
    simp [same, builtin] at hdistinct
  | listedTwice mem kind order =>
    have hfit := h.fitting _ mem
    rw [kind] at hfit
    simpa using order.nodup hfit
  | rootless query =>
    obtain ⟨name, hname, -⟩ := h.query
    simp [query] at hname
  | queryRoot query undeclared =>
    obtain ⟨name, hname, hobject⟩ := h.query
    obtain rfl := Option.some.inj (query.symm.trans hname)
    exact undeclared hobject
  | mutationRoot mutation undeclared => exact undeclared (h.mutation _ mutation)
  | unknown mem unknown => exact unknown (h.known_of_mem_places mem)

end Schema.Acceptable

end

/-- **Failures tell the truth**: when a schema has no model, the failure reports a ground that is
    really there, and there is no model under any other options either. -/
theorem failure_reports_ground {options : Options} {schema : Schema} {failure : Failure}
    (h : resolve options schema = .error failure) :
    schema.Grounds failure ∧ ∀ other, ∃ reported, resolve other schema = .error reported := by
  have hground := grounds_of_resolve h
  refine ⟨hground, fun other => ?_⟩
  cases hresolve : resolve other schema with
  | error reported => exact ⟨reported, rfl⟩
  | ok model => exact absurd hground (resolve_eq_ok.mp hresolve).1.not_grounds

/-- A type whose fields `salt` and `Salt` have one identifier between them. A field of a skipped
    type comes before each. -/
def pantrySchema : Schema where
  declarations := [
    ⟨"Query", .object [
      ⟨"Salt", .named "Shelf", [], .sdl ⟨2, 3⟩⟩,
      ⟨"salt", .named "Int", [], .sdl ⟨3, 3⟩⟩,
      ⟨"shelf", .list (.named "Shelf"), [], .sdl ⟨4, 3⟩⟩,
      ⟨"Salt", .nonNull (.named "Int"), [], .sdl ⟨5, 3⟩⟩], .sdl ⟨1, 1⟩⟩]
  roots := ⟨some "Query", none, none⟩
  rootsOrigin := .sdl ⟨1, 1⟩
  skipped := [⟨.interface, "Shelf", .sdl ⟨7, 1⟩⟩]

theorem failure_reports_ground_pantrySchema :
    resolve .standard pantrySchema =
        .error (.collision "fields of `Query`" "Salt" "salt" "Salt" (.sdl ⟨5, 3⟩)) ∧
      pantrySchema.Grounds (.collision "fields of `Query`" "Salt" "salt" "Salt" (.sdl ⟨5, 3⟩)) ∧
      ∀ other, ∃ reported, resolve other pantrySchema = .error reported :=
  ⟨rfl, @failure_reports_ground .standard pantrySchema _ rfl⟩

/-! ## Remedies -/

/-- Is the reference that of a member, and not that of a root? -/
def ReferenceSite.isOfMember : ReferenceSite → Bool
  | .field .. | .argument .. | .inputField .. => true
  | .absentQueryRoot | .queryRoot | .mutationRoot => false

/-- **Stuck schemas**: the failure is that a member refers to the given name, which is unknown. -/
def StuckOn (options : Options) (schema : Schema) (name : String) : Prop :=
  ∃ site origin, site.isOfMember ∧ resolve options schema = .error (.unresolved name site origin)

/-- A schema is stuck on a name only if the name is neither built in nor declared. -/
theorem not_known_of_stuckOn {options : Options} {schema : Schema} {name : String}
    (h : StuckOn options schema name) : ¬schema.Known name := by
  obtain ⟨site, origin, hsite, hresolve⟩ := h
  have hground := grounds_of_resolve hresolve
  generalize hfailure : Failure.unresolved name site origin = failure at hground
  cases hground with
  | conflict mem conflict => cases conflict <;> cases hfailure
  | builtin | redeclared | listedTwice => cases hfailure
  | rootless | queryRoot | mutationRoot =>
    -- the site is that of a root
    injection hfailure with _ hroot
    rw [hroot] at hsite
    cases hsite
  | @unknown place mem unknown =>
    injection hfailure with hname
    rw [hname]
    exact unknown

/-- A failure under one more override is the failure without it. -/
theorem resolve_withOverride_eq_error {options : Options} {schema : Schema} {name text : String}
    {failure : Failure} :
    resolve (options.withOverride name text) schema = .error failure ↔
      resolve options schema = .error failure := by
  rw [resolve_withOverride]
  exact map_eq_error

/-- **An override is no remedy**: under an override for an unknown name a schema fails as it did
    without it, so that it is stuck on the name as before. A name that is declared, or built in, is
    none that a schema is stuck on. -/
theorem override_is_no_remedy (options : Options) (schema : Schema) (name text : String) :
    (∀ failure, resolve (options.withOverride name text) schema = .error failure ↔
        resolve options schema = .error failure) ∧
      (StuckOn (options.withOverride name text) schema name ↔ StuckOn options schema name) ∧
      (schema.Known name → ¬StuckOn options schema name) := by
  refine ⟨fun _ => resolve_withOverride_eq_error, ?_, ?_⟩
  · exact exists_congr fun site => exists_congr fun origin =>
      and_congr_right fun _ => resolve_withOverride_eq_error
  · intro hknown hstuck
    exact not_known_of_stuckOn hstuck hknown

/-- A schema with a field of an undeclared type. -/
def cargoSchema : Schema where
  declarations := [⟨"Query", .object [⟨"a", .named "Missing", [], .sdl ⟨1, 14⟩⟩], .sdl ⟨1, 1⟩⟩]
  roots := ⟨some "Query", none, none⟩
  rootsOrigin := .sdl ⟨2, 1⟩
  skipped := []

/-- The schema is stuck on the name of the type, also when the name is mapped to a target. -/
theorem cargoSchema_stuckOn :
    StuckOn .standard cargoSchema "Missing" ∧
      StuckOn (Options.standard.withOverride "Missing" "String") cargoSchema "Missing" :=
  ⟨⟨.field "Query" "a", .sdl ⟨1, 14⟩, rfl, rfl⟩, ⟨.field "Query" "a", .sdl ⟨1, 14⟩, rfl, rfl⟩⟩

end SchemaModel
