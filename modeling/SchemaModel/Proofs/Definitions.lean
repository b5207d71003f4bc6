import Mathlib.Data.List.Nodup
import SchemaModel.Proofs.Acceptance

/-! # Definitions by Kind

    The definitions that the declarations of a schema come to, and those of one kind among them.

    * **Names**: a definition goes by the name of its declaration. No two definitions of an
      acceptable schema share a name.
    * **Picks**: a function that picks the definitions of one kind: the objects, the inputs, the
      enums or the scalars. What it picks keeps its order, and its names are not repeated either.
    * **Lookups**: where no name is repeated, an item is the only one of its name. A root that is
      declared is the only object of its name. -/

namespace SchemaModel

variable {options : Options} {schema : Schema}

/-! ## Names -/

/-- The name of a definition. -/
def ModelDefinition.name : ModelDefinition → String
  | .object type => type.name
  | .input type => type.name
  | .enum type => type.name
  | .scalar type => type.name

@[simp] theorem name_definitionOf (decl : Declaration) :
    (definitionOf options schema decl).name = decl.name := by
  unfold definitionOf
  cases decl.kind <;> rfl

theorem names_definitionsOf :
    (definitionsOf options schema).map ModelDefinition.name =
      (Schema.named schema.declarations).map Declaration.name := by
  rw [definitionsOf, List.map_map]
  exact List.map_congr_left fun decl _ => name_definitionOf decl

theorem nodup_names_definitionsOf (h : schema.Acceptable) :
    ((definitionsOf options schema).map ModelDefinition.name).Nodup := by
  rw [names_definitionsOf]
  exact h.names

/-! ## Definitions of One Kind -/

/-- **Picks**: a function that picks the definitions of one kind, which `wrap` makes. -/
def Picks {α : Type} (pick : ModelDefinition → Option α) (wrap : α → ModelDefinition) : Prop :=
  ∀ definition x, pick definition = some x ↔ definition = wrap x

theorem picks_object : Picks (fun | .object type => some type | _ => none) .object := by
  intro definition x
  cases definition <;> simp

theorem picks_input : Picks (fun | .input type => some type | _ => none) .input := by
  intro definition x
  cases definition <;> simp

theorem picks_enum : Picks (fun | .enum type => some type | _ => none) .enum := by
  intro definition x
  cases definition <;> simp

theorem picks_scalar : Picks (fun | .scalar type => some type | _ => none) .scalar := by
  intro definition x
  cases definition <;> simp

namespace Picks

variable {α : Type} {pick : ModelDefinition → Option α} {wrap : α → ModelDefinition}
  (h : Picks pick wrap)

include h

theorem injective : Function.Injective wrap := by
  intro x y hxy
  have hx : pick (wrap x) = some x := (h _ x).mpr rfl
  have hy : pick (wrap x) = some y := (h _ y).mpr hxy
  exact Option.some.inj (hx.symm.trans hy)

theorem mem_filterMap {definitions : List ModelDefinition} {x : α} :
    x ∈ definitions.filterMap pick ↔ wrap x ∈ definitions := by
  simp [List.mem_filterMap, h _ x]

/-- What is picked from definitions keeps their order. -/
theorem sublist (definitions : List ModelDefinition) :
    ((definitions.filterMap pick).map wrap).Sublist definitions := by
  induction definitions with
  | nil => simp
  | cons definition definitions ih =>
    cases hpick : pick definition with
    | none =>
      rw [List.filterMap_cons_none hpick]
      exact ih.cons _
    | some x =>
      rw [List.filterMap_cons_some hpick, List.map_cons, (h definition x).mp hpick]
      exact ih.cons_cons _

/-- No name is repeated among the definitions of one kind. -/
theorem names_nodup (options : Options) (hacceptable : schema.Acceptable) {name : α → String}
    (hname : ∀ x, (wrap x).name = name x) :
    (((definitionsOf options schema).filterMap pick).map name).Nodup := by
  -- what is picked bears a part of the names of all definitions
  have hsublist := (h.sublist (definitionsOf options schema)).map ModelDefinition.name
  have hnames : ModelDefinition.name ∘ wrap = name := funext hname
  rw [List.map_map, hnames] at hsublist
  exact (nodup_names_definitionsOf hacceptable).sublist hsublist

end Picks

/-! ## Lookups -/

section

variable {α : Type} {name : α → String} {xs : List α} (h : (xs.map name).Nodup)

include h

/-- If no name is repeated, an item is found by its name. -/
theorem find?_of_nodup {x : α} (hx : x ∈ xs) : xs.find? (name · == name x) = some x := by
  cases hfind : xs.find? (name · == name x) with
  | none => simpa using List.find?_eq_none.mp hfind x hx
  | some found =>
    have hname : name found = name x := by simpa using List.find?_some hfind
    rw [List.inj_on_of_nodup_map h (List.mem_of_find?_eq_some hfind) hx hname]

/-- If no name is repeated, filtering by a name is looking it up. -/
theorem filter_eq_find? (key : String) :
    xs.filter (name · == key) = (xs.find? (name · == key)).toList := by
  induction xs with
  | nil => rfl
  | cons x xs ih =>
    obtain ⟨hnot, hnodup⟩ := List.nodup_cons.mp h
    by_cases hx : name x = key
    · -- no other item has this name
      have hothers : xs.filter (name · == key) = [] := by
        apply List.filter_eq_nil_iff.mpr
        intro y hy hkey
        have hkey : name y = key := by simpa using hkey
        exact hnot (hx ▸ hkey ▸ List.mem_map_of_mem hy)
      simp [hx, hothers]
    · simp [hx, ih hnodup]

end

/-! ## Objects and Roots -/

theorem objectsOf_names_nodup (options : Options) (h : schema.Acceptable) :
    ((objectsOf (definitionsOf options schema)).map ObjectType.name).Nodup :=
  picks_object.names_nodup options h fun _ => rfl

/-- If no name is repeated, an object is found by its name. -/
theorem find?_of_mem_objectsOf (h : schema.Acceptable) {object : ObjectType}
    (hobject : object ∈ objectsOf (definitionsOf options schema)) :
    (objectsOf (definitionsOf options schema)).find? (·.name == object.name) = some object :=
  find?_of_nodup (objectsOf_names_nodup options h) hobject

/-- A root that is declared is one of the objects. -/
theorem rootNamed_mem (options : Options) (h : schema.Acceptable) {name : String}
    (hname : schema.DeclaresObject name) :
    rootNamed (objectsOf (definitionsOf options schema)) (some name) ∈
        objectsOf (definitionsOf options schema) ∧
      (rootNamed (objectsOf (definitionsOf options schema)) (some name)).name = name := by
  obtain ⟨object, hfind⟩ := find?_objectsOf options h.builtins hname
  have hroot : rootNamed (objectsOf (definitionsOf options schema)) (some name) = object := by
    simp [rootNamed, hfind]
  rw [hroot]
  exact ⟨List.mem_of_find?_eq_some hfind, by simpa using List.find?_some hfind⟩

/-- The only object of the name of a root is the root. -/
theorem filter_eq_rootNamed (options : Options) (h : schema.Acceptable) {name : String}
    (hname : schema.DeclaresObject name) :
    (objectsOf (definitionsOf options schema)).filter (·.name == name) =
      [rootNamed (objectsOf (definitionsOf options schema)) (some name)] := by
  obtain ⟨hmem, hroot⟩ := rootNamed_mem options h hname
  have hfind := find?_of_mem_objectsOf h hmem
  rw [hroot] at hfind
  rw [filter_eq_find? (objectsOf_names_nodup options h), hfind]
  rfl

end SchemaModel
