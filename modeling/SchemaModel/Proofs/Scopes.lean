import Mathlib.Data.List.Forall2
import Mathlib.Data.List.Nodup
import SchemaModel.Resolution

/-! # Scopes and Claims

    What it takes for a run of claims to succeed:

    * **Scopes**: a claim succeeds if the identifier is free, so a run of claims succeeds if the
      identifiers are free and differ from one another.
    * **Members**: `resolveMembers` succeeds if its claims do and every member resolves.
    * **Declarations and enum values**: the checks for repeated names succeed if no name is
      repeated. -/

namespace SchemaModel

/-! ## Sequenced Steps -/

section

variable {ε α β : Type}

/-- A sequence of two steps succeeds if both do. -/
theorem bind_eq_ok {step : Except ε α} {next : α → Except ε β} {b : β} :
    step >>= next = .ok b ↔ ∃ a, step = .ok a ∧ next a = .ok b := by
  cases step <;> simp [bind, Except.bind]

theorem pure_eq_ok {a b : α} : (pure a : Except ε α) = .ok b ↔ a = b := by
  simp [pure, Except.pure]

theorem map_eq_ok {step : Except ε α} {f : α → β} {b : β} :
    step.map f = .ok b ↔ ∃ a, step = .ok a ∧ f a = b := by
  cases step <;> simp [Except.map]

/-- A sequence of two steps fails if one of them does, the second one only behind the first. -/
theorem bind_eq_error {step : Except ε α} {next : α → Except ε β} {e : ε} :
    step >>= next = .error e ↔ step = .error e ∨ ∃ a, step = .ok a ∧ next a = .error e := by
  cases step <;> simp [bind, Except.bind]

theorem map_eq_error {step : Except ε α} {f : α → β} {e : ε} :
    step.map f = .error e ↔ step = .error e := by
  cases step <;> simp [Except.map]

theorem toOption_eq_some {step : Except ε α} {a : α} :
    step.toOption = some a ↔ step = .ok a := by
  cases step <;> simp [Except.toOption]

end

/-! ## Scopes -/

namespace Scope

/-- The scope in which an identifier is taken by a name. -/
def taking (scope : Scope) (name identifier : String) : Scope :=
  { scope with taken := (identifier, name) :: scope.taken }

@[simp] theorem get?_types (identifier : String) : Scope.types.get? identifier = none := rfl

@[simp] theorem get?_members (label owner identifier : String) :
    (Scope.members label owner).get? identifier = none := rfl

theorem get?_taking (scope : Scope) (name identifier other : String) :
    (scope.taking name identifier).get? other =
      if other = identifier then some name else scope.get? other := by
  by_cases h : other = identifier
  · simp [get?, taking, h]
  · have hne : (other == identifier) = false := by simp [h]
    simp [get?, taking, List.lookup_cons, hne, h]

/-- An identifier is free after a claim if it was free before and is not the claimed one. -/
theorem get?_taking_eq_none {scope : Scope} {name identifier other : String} :
    (scope.taking name identifier).get? other = none ↔
      other ≠ identifier ∧ scope.get? other = none := by
  rw [get?_taking]
  by_cases h : other = identifier <;> simp [h]

/-- A claim succeeds if the identifier is free. -/
theorem claim_eq_ok {scope after : Scope} {name identifier : String} {origin : Origin} :
    scope.claim name identifier origin = .ok after ↔
      scope.get? identifier = none ∧ after = scope.taking name identifier := by
  unfold claim
  cases h : scope.get? identifier with
  | none =>
    simp only [Except.ok.injEq, true_and]
    exact eq_comm
  | some first =>
    by_cases hf : first = name <;> simp [hf]

end Scope

/-- Identifiers that are free in a scope and differ from one another. -/
def AllFree (scope : Scope) (identifiers : List String) : Prop :=
  identifiers.Nodup ∧ ∀ i ∈ identifiers, scope.get? i = none

@[simp] theorem allFree_nil (scope : Scope) : AllFree scope [] := by
  simp [AllFree]

/-- **Claims in sequence**: the first identifier is free, and the others are so once it is taken. -/
theorem allFree_cons {scope : Scope} (name : String) {identifier : String}
    {identifiers : List String} :
    AllFree scope (identifier :: identifiers) ↔
      scope.get? identifier = none ∧ AllFree (scope.taking name identifier) identifiers := by
  unfold AllFree
  simp only [List.nodup_cons, List.forall_mem_cons, Scope.get?_taking_eq_none]
  constructor
  · rintro ⟨⟨hnot, hnodup⟩, hfree, hall⟩
    exact ⟨hfree, hnodup, fun i hi => ⟨fun h => hnot (h ▸ hi), hall i hi⟩⟩
  · rintro ⟨hfree, hnodup, hall⟩
    exact ⟨⟨fun h => (hall _ h).1 rfl, hnodup⟩, hfree, fun i hi => (hall i hi).2⟩

theorem allFree_types {identifiers : List String} :
    AllFree .types identifiers ↔ identifiers.Nodup := by
  simp [AllFree]

theorem allFree_members {label owner : String} {identifiers : List String} :
    AllFree (.members label owner) identifiers ↔ identifiers.Nodup := by
  simp [AllFree]

/-! ## Members -/

/-- Members resolve if their identifiers are free and each of them resolves on its own. -/
theorem resolveMembers_eq_ok {α : Type} {role : IdentifierRole} {scope : Scope}
    {members : List (Claimant α)} {results : List α} :
    resolveMembers role scope members = .ok results ↔
      AllFree scope (members.map fun member => identifier role member.name) ∧
        List.Forall₂ (fun member result => member.resolve (identifier role member.name) =
          .ok result) members results := by
  induction members generalizing scope results with
  | nil => simp [resolveMembers, List.forall₂_nil_left_iff, eq_comm]
  | cons member members ih =>
    simp only [resolveMembers, bind_eq_ok, pure_eq_ok, Scope.claim_eq_ok, ih, List.map_cons,
      List.forall₂_cons_left_iff]
    constructor
    · rintro ⟨_, ⟨hfree, rfl⟩, first, hfirst, others, ⟨hall, hothers⟩, rfl⟩
      exact ⟨(allFree_cons _).mpr ⟨hfree, hall⟩, first, others, hfirst, hothers, rfl⟩
    · rintro ⟨hall, first, others, hfirst, hothers, rfl⟩
      obtain ⟨hfree, hrest⟩ := (allFree_cons _).mp hall
      exact ⟨_, ⟨hfree, rfl⟩, first, hfirst, others, ⟨hrest, hothers⟩, rfl⟩

/-! ## Repeated Names -/

/-- Names that are not among the earlier ones and differ from one another. -/
def AllNew (seen names : List String) : Prop :=
  names.Nodup ∧ ∀ n ∈ names, n ∉ seen

@[simp] theorem allNew_nil (seen : List String) : AllNew seen [] := by
  simp [AllNew]

/-- **Names in sequence**: the first name is new, and the others are so once it has been seen. -/
theorem allNew_cons {seen : List String} {name : String} {names : List String} :
    AllNew seen (name :: names) ↔ name ∉ seen ∧ AllNew (name :: seen) names := by
  unfold AllNew
  rw [List.nodup_cons, List.forall_mem_cons]
  simp only [List.mem_cons, not_or]
  constructor
  · rintro ⟨⟨hnot, hnodup⟩, hnew, hall⟩
    exact ⟨hnew, hnodup, fun n hn => ⟨fun h => hnot (h ▸ hn), hall n hn⟩⟩
  · rintro ⟨hnew, hnodup, hall⟩
    exact ⟨⟨fun h => (hall _ h).1 rfl, hnodup⟩, hnew, fun n hn => (hall n hn).2⟩

theorem allNew_nil_left {names : List String} : AllNew [] names ↔ names.Nodup := by
  simp [AllNew]

/-- The check of enum values passes if none is repeated. -/
theorem checkEnumValues_eq_ok {decl : Declaration} {seen values : List String} :
    checkEnumValues decl seen values = .ok () ↔ AllNew seen values := by
  induction values generalizing seen with
  | nil => simp [checkEnumValues]
  | cons value values ih =>
    rw [allNew_cons, checkEnumValues, ← ih]
    by_cases h : value ∈ seen <;> simp [h]

/-! ## Declarations -/

namespace Schema

/-- The declarations that bring a name of their own, which is all but those of built-in scalars. -/
def named (declarations : List Declaration) : List Declaration :=
  declarations.filter fun decl => !isBuiltinScalar decl.name

/-- The declarations whose names become identifiers, which are the named ones but for scalars. -/
def identified (declarations : List Declaration) : List Declaration :=
  (named declarations).filter fun decl => !decl.isScalar

end Schema

/-- The check of declarations passes if built-in scalars are only declared as scalars, no other
    name is repeated, and no two types share an identifier. -/
theorem checkDeclarations_eq_ok {seen : List String} {scope : Scope} {decls : List Declaration} :
    checkDeclarations seen scope decls = .ok () ↔
      (∀ decl ∈ decls, isBuiltinScalar decl.name → decl.isScalar) ∧
        AllNew seen ((Schema.named decls).map Declaration.name) ∧
        AllFree scope ((Schema.identified decls).map fun decl =>
          identifier .typeMember decl.name) := by
  induction decls generalizing seen scope with
  | nil => simp [checkDeclarations, Schema.named, Schema.identified]
  | cons decl decls ih =>
    unfold checkDeclarations
    by_cases hb : isBuiltinScalar decl.name
    · -- a built-in scalar adds neither a name nor an identifier
      have hnamed : Schema.named (decl :: decls) = Schema.named decls := by
        simp [Schema.named, hb]
      by_cases hs : decl.isScalar
      · simp [hb, hs, ih, hnamed, Schema.identified]
      · simp [hb, hs]
    · have hnamed : Schema.named (decl :: decls) = decl :: Schema.named decls := by
        simp [Schema.named, hb]
      rw [if_neg hb, hnamed, List.map_cons, allNew_cons]
      by_cases hseen : decl.name ∈ seen
      · simp [hseen]
      · rw [if_neg (by simpa using hseen)]
        have hhead : ∀ P : Prop, (∀ d ∈ decl :: decls, isBuiltinScalar d.name → d.isScalar) ∧ P ↔
            (∀ d ∈ decls, isBuiltinScalar d.name → d.isScalar) ∧ P := by
          intro P
          simp [hb]
        by_cases hs : decl.isScalar
        · have hident : Schema.identified (decl :: decls) = Schema.identified decls := by
            simp [Schema.identified, hnamed, hs]
          rw [if_pos hs, ih, hhead, hident]
          simp [hseen]
        · have hident : Schema.identified (decl :: decls) = decl :: Schema.identified decls := by
            simp [Schema.identified, hnamed, hs]
          rw [if_neg hs, hhead, hident, List.map_cons, allFree_cons decl.name]
          simp only [bind_eq_ok, Scope.claim_eq_ok, ih]
          constructor
          · rintro ⟨_, ⟨hfree, rfl⟩, hbuiltin, hnew, hall⟩
            exact ⟨hbuiltin, ⟨hseen, hnew⟩, hfree, hall⟩
          · rintro ⟨hbuiltin, ⟨-, hnew⟩, hfree, hall⟩
            exact ⟨_, ⟨hfree, rfl⟩, hbuiltin, hnew, hall⟩

end SchemaModel
