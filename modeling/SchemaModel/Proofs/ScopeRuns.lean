import Mathlib.Data.Finset.Card
import SchemaModel.Proofs.Literals
import SchemaModel.Proofs.Scopes

/-! # Runs of Claims

    What a scope tells to one name after the other, when a refusal does not end the run.

    * **enter**: a name claims its own identifier. A refused claim leaves the scope as it was.
    * **run**: names that are entered one after the other, with what each of them is told.
    * **firstOwner**: the earliest of some names with a given identifier.
    * **Remembers**: a scope knows the identifiers of the names so far, each with its first owner. This
      holds of an empty scope and is kept by every entry, be it refused or not.
    * **DifferInFirstCase**: two names that are the same but for the case of their first letters, which
      is all that two names of GraphQL with one identifier can differ in. -/

namespace SchemaModel

/-! ## Runs -/

namespace Scope

/-- What a name that claims its own identifier is told, and the scope behind the claim. -/
def enter (role : IdentifierRole) (scope : Scope) (name : String) (origin : Origin) :
    Except Failure Unit × Scope :=
  match scope.claim name (identifier role name) origin with
  | .ok after => (.ok (), after)
  | .error failure => (.error failure, scope)

/-- **Run**: what names in sequence are told, and the scope behind the last one. -/
def run (role : IdentifierRole) (scope : Scope) :
    List (String × Origin) → List (Except Failure Unit) × Scope
  | [] => ([], scope)
  | (name, origin) :: entries =>
    let (outcome, next) := scope.enter role name origin
    let (outcomes, last) := next.run role entries
    (outcome :: outcomes, last)

section

variable {role : IdentifierRole} {scope : Scope}

@[simp] theorem run_nil : scope.run role [] = ([], scope) := rfl

@[simp] theorem run_cons {name : String} {origin : Origin} {entries : List (String × Origin)} :
    scope.run role ((name, origin) :: entries) =
      ((scope.enter role name origin).1 :: ((scope.enter role name origin).2.run role entries).1,
        ((scope.enter role name origin).2.run role entries).2) := rfl

/-- The run over a first part goes on behind it. -/
theorem run_append (scope : Scope) (front back : List (String × Origin)) :
    scope.run role (front ++ back) =
      ((scope.run role front).1 ++ ((scope.run role front).2.run role back).1,
        ((scope.run role front).2.run role back).2) := by
  induction front generalizing scope with
  | nil => rfl
  | cons entry front ih =>
    obtain ⟨name, origin⟩ := entry
    rw [List.cons_append, run_cons, run_cons, ih]
    rfl

/-- Every name is told something. -/
theorem length_run (scope : Scope) (entries : List (String × Origin)) :
    (scope.run role entries).1.length = entries.length := by
  induction entries generalizing scope with
  | nil => rfl
  | cons entry entries ih =>
    obtain ⟨name, origin⟩ := entry
    rw [run_cons, List.length_cons, List.length_cons, ih]

end

end Scope

/-- **First owner**: the earliest of some names with this identifier. -/
def firstOwner (role : IdentifierRole) (names : List String) (key : String) : Option String :=
  names.find? fun name => identifier role name = key

section

variable {role : IdentifierRole} {names : List String} {name key : String} {origin : Origin}

theorem firstOwner_eq_none :
    firstOwner role names key = none ↔ ∀ earlier ∈ names, identifier role earlier ≠ key := by
  simp [firstOwner, List.find?_eq_none]

/-- A name owns its identifier if no earlier name does. -/
theorem firstOwner_concat (role : IdentifierRole) (names : List String) (name key : String) :
    firstOwner role (names ++ [name]) key =
      (firstOwner role names key).or (if key = identifier role name then some name else none) := by
  unfold firstOwner
  rw [List.find?_append]
  by_cases h : key = identifier role name
  · simp [h]
  · simp [h, Ne.symm h]

/-! ## What a Scope Remembers -/

/-- **Remembers**: a scope that was empty at first knows the identifiers of some names, each with its
    first owner, and nothing else. -/
structure Remembers (role : IdentifierRole) (start scope : Scope) (names : List String) : Prop where
  label : scope.label = start.label
  owner : scope.owner = start.owner
  get : ∀ key, scope.get? key = firstOwner role names key
  size : scope.size = (names.map (identifier role)).toFinset.card

theorem remembers_empty {scope : Scope} (h : scope.taken = []) : Remembers role scope scope [] where
  label := rfl
  owner := rfl
  get _ := by simp [Scope.get?, firstOwner, h]
  size := by simp [Scope.size, h]

namespace Remembers

variable {start scope : Scope}

theorem qualified_eq (h : Remembers role start scope names) (name : String) :
    scope.qualified name = start.qualified name := by
  unfold Scope.qualified
  rw [h.owner]

/-- What a name is told is settled by the first owner of its identifier. -/
theorem enter_eq (h : Remembers role start scope names) (name : String) (origin : Origin) :
    scope.enter role name origin =
      match firstOwner role names (identifier role name) with
      | none => (.ok (), scope.taking name (identifier role name))
      | some first =>
        if first = name then (.error (.duplicate (start.qualified name) origin), scope)
        else (.error (.collision start.label (identifier role name) first name origin), scope) := by
  unfold Scope.enter Scope.claim
  rw [h.get, h.label, h.qualified_eq]
  cases firstOwner role names (identifier role name) with
  | none => simp [Scope.taking, h.label]
  | some first =>
    by_cases hfirst : first = name
    · simp [hfirst]
    · simp [hfirst]

/-- A free identifier is taken by its name. -/
theorem taking (h : Remembers role start scope names)
    (hfree : firstOwner role names (identifier role name) = none) :
    Remembers role start (scope.taking name (identifier role name)) (names ++ [name]) where
  label := h.label
  owner := h.owner
  get key := by
    rw [Scope.get?_taking, firstOwner_concat, h.get]
    by_cases hkey : key = identifier role name
    · simp [hkey, hfree]
    · simp [hkey]
  size := by
    have hnew : identifier role name ∉ (names.map (identifier role)).toFinset := by
      intro hmem
      obtain ⟨earlier, hearlier, heq⟩ := List.mem_map.mp (List.mem_toFinset.mp hmem)
      exact firstOwner_eq_none.mp hfree earlier hearlier heq
    have hnames : ((names ++ [name]).map (identifier role)).toFinset =
        insert (identifier role name) (names.map (identifier role)).toFinset := by
      ext key
      simp
    have hsize : (scope.taking name (identifier role name)).size = scope.size + 1 := rfl
    rw [hsize, h.size, hnames, Finset.card_insert_of_notMem hnew]

/-- A name whose identifier is taken adds nothing. -/
theorem refused (h : Remembers role start scope names) {first : String}
    (hfirst : firstOwner role names (identifier role name) = some first) :
    Remembers role start scope (names ++ [name]) where
  label := h.label
  owner := h.owner
  get key := by
    rw [firstOwner_concat, h.get]
    by_cases hkey : key = identifier role name
    · simp [hkey, hfirst]
    · simp [hkey]
  size := by
    have hold : identifier role name ∈ (names.map (identifier role)).toFinset := by
      refine List.mem_toFinset.mpr (List.mem_map.mpr ⟨first, List.mem_of_find?_eq_some hfirst, ?_⟩)
      simpa using List.find?_some hfirst
    have hnames : ((names ++ [name]).map (identifier role)).toFinset =
        (names.map (identifier role)).toFinset := by
      rw [← Finset.insert_eq_of_mem hold]
      ext key
      simp
    rw [hnames, h.size]

/-- **Step**: an entry is remembered, be it refused or not. -/
theorem enter (h : Remembers role start scope names) (name : String) (origin : Origin) :
    Remembers role start (scope.enter role name origin).2 (names ++ [name]) := by
  rw [h.enter_eq]
  cases hfirst : firstOwner role names (identifier role name) with
  | none => exact h.taking hfirst
  | some first =>
    by_cases hname : first = name
    · simpa [hname] using h.refused hfirst
    · simpa [hname] using h.refused hfirst

/-- **Run**: all entries of a run are remembered. -/
theorem run (h : Remembers role start scope names) (entries : List (String × Origin)) :
    Remembers role start (scope.run role entries).2 (names ++ entries.map Prod.fst) := by
  induction entries generalizing scope names with
  | nil => simpa using h
  | cons entry entries ih =>
    obtain ⟨name, origin⟩ := entry
    simpa using ih (h.enter name origin)

end Remembers

/-! ## Names with One Identifier -/

/-- **Same but for the case of the first letter**: one of the first letters is the other one in upper
    case. -/
def DifferInFirstCase (name other : String) : Prop :=
  ∃ c d rest, name.toList = c :: rest ∧ other.toList = d :: rest ∧
    ((c.isLower ∧ d = c.toUpper) ∨ (d.isLower ∧ c = d.toUpper))

/-! ### Codes of Letters -/

theorem toNat_toUpper (c : Char) :
    c.toUpper.toNat = if 97 ≤ c.toNat ∧ c.toNat ≤ 122 then c.toNat - 32 else c.toNat := by
  have hcode : c.val.toNat = c.toNat := rfl
  have hrange : ('a'.val ≤ c.val ∧ c.val ≤ 'z'.val) ↔ 97 ≤ c.toNat ∧ c.toNat ≤ 122 := by
    rw [UInt32.le_iff_toNat_le, UInt32.le_iff_toNat_le]
    rfl
  unfold Char.toUpper
  by_cases h : 97 ≤ c.toNat ∧ c.toNat ≤ 122
  · rw [dif_pos (hrange.mpr h), if_pos h]
    show (c.val + ('A'.val - 'a'.val)).toNat = c.toNat - 32
    -- the shift is a negative one, taken modulo the size of a word
    have hshift : ('A'.val - 'a'.val).toNat = 4294967264 := by decide
    rw [UInt32.toNat_add, hshift, hcode]
    omega
  · rw [dif_neg (mt hrange.mp h), if_neg h]

theorem toNat_toLower (c : Char) :
    c.toLower.toNat = if 65 ≤ c.toNat ∧ c.toNat ≤ 90 then c.toNat + 32 else c.toNat := by
  have hcode : c.val.toNat = c.toNat := rfl
  have hrange : (c.val ≥ 'A'.val ∧ c.val ≤ 'Z'.val) ↔ 65 ≤ c.toNat ∧ c.toNat ≤ 90 := by
    rw [ge_iff_le, UInt32.le_iff_toNat_le, UInt32.le_iff_toNat_le]
    rfl
  unfold Char.toLower
  by_cases h : 65 ≤ c.toNat ∧ c.toNat ≤ 90
  · rw [dif_pos (hrange.mpr h), if_pos h]
    show (c.val + ('a'.val - 'A'.val)).toNat = c.toNat + 32
    have hshift : ('a'.val - 'A'.val).toNat = 32 := by decide
    rw [UInt32.toNat_add, hshift, hcode]
    omega
  · rw [dif_neg (mt hrange.mp h), if_neg h]

theorem isLower_iff (c : Char) : c.isLower ↔ 97 ≤ c.toNat ∧ c.toNat ≤ 122 := by
  unfold Char.isLower
  rw [Bool.and_eq_true, decide_eq_true_eq, decide_eq_true_eq, ge_iff_le, UInt32.le_iff_toNat_le,
    UInt32.le_iff_toNat_le]
  rfl

/-- A name of GraphQL begins with a letter of ASCII or an underscore. -/
theorem code_of_isNameStart {c : Char} (h : Sdl.isNameStart c) :
    (97 ≤ c.toNat ∧ c.toNat ≤ 122) ∨ (65 ≤ c.toNat ∧ c.toNat ≤ 90) ∨ c.toNat = 95 := by
  have hcases : c.isAlpha = true ∨ c = '_' := by simpa [Sdl.isNameStart] using h
  rcases hcases with halpha | rfl
  · rcases Bool.or_eq_true_iff.mp halpha with hupper | hlower
    · exact .inr (.inl (of_decide_eq_true (p := 65 ≤ c.toNat ∧ c.toNat ≤ 90) hupper))
    · exact .inl ((isLower_iff c).mp hlower)
  · exact .inr (.inr rfl)

/-- The first letter of an identifier, if the name is one of GraphQL. -/
theorem convert_of_isNameStart {c : Char} (h : Sdl.isNameStart c) (role : IdentifierRole) :
    role.convert c = [if role = .typeMember then c.toUpper else c.toLower] := by
  have hascii : c.toNat < 128 := by
    have hcode := code_of_isNameStart h
    omega
  cases role with
  | typeMember => exact if_pos hascii
  | localVariable => exact if_pos hascii

/-- Two first letters become one if one of them is the other one in upper case. -/
theorem convert_eq_iff {c d : Char} (hc : Sdl.isNameStart c) (hd : Sdl.isNameStart d) (hne : c ≠ d)
    (role : IdentifierRole) :
    role.convert c = role.convert d ↔
      (c.isLower ∧ d = c.toUpper) ∨ (d.isLower ∧ c = d.toUpper) := by
  have hcode : c.toNat ≠ d.toNat := mt Char.toNat_inj.mp hne
  have hcStart := code_of_isNameStart hc
  have hdStart := code_of_isNameStart hd
  rw [convert_of_isNameStart hc, convert_of_isNameStart hd, List.cons.injEq,
    and_iff_left rfl, isLower_iff, isLower_iff, ← Char.toNat_inj, ← Char.toNat_inj (c := d),
    ← Char.toNat_inj (c := c)]
  cases role with
  | typeMember =>
    simp only [if_true, toNat_toUpper]
    split_ifs <;> omega
  | localVariable =>
    simp only [reduceCtorEq, if_false, toNat_toUpper, toNat_toLower]
    split_ifs <;> omega

/-- **One identifier**: two different names of GraphQL share an identifier if they are the same but for
    the case of their first letters. -/
theorem identifier_eq_iff {other : String} (hname : Sdl.isNameText name) (hother : Sdl.isNameText other)
    (hne : name ≠ other) (role : IdentifierRole) :
    identifier role name = identifier role other ↔ DifferInFirstCase name other := by
  obtain ⟨c, cs, hcs, hc, -⟩ := Sdl.exists_of_isNameText hname
  obtain ⟨d, ds, hds, hd, -⟩ := Sdl.exists_of_isNameText hother
  have hfirst : identifier role name = identifier role other ↔
      role.convert c = role.convert d ∧ cs = ds := by
    unfold identifier
    rw [hcs, hds]
    show String.ofList (role.convert c ++ cs) = String.ofList (role.convert d ++ ds) ↔ _
    rw [String.ofList_inj, convert_of_isNameStart hc, convert_of_isNameStart hd,
      List.singleton_append, List.singleton_append, List.cons.injEq, List.cons.injEq,
      and_iff_left rfl]
  rw [hfirst]
  unfold DifferInFirstCase
  rw [hcs, hds]
  constructor
  · rintro ⟨hconvert, rfl⟩
    -- what is behind the first letters is the same, so the first letters differ
    have hletters : c ≠ d := by
      rintro rfl
      exact hne (String.toList_inj.mp (hcs.trans hds.symm))
    exact ⟨c, d, cs, rfl, rfl, (convert_eq_iff hc hd hletters role).mp hconvert⟩
  · rintro ⟨_, _, rest, hcEq, hdEq, hcase⟩
    obtain ⟨rfl, rfl⟩ := List.cons.inj hcEq
    obtain ⟨rfl, rfl⟩ := List.cons.inj hdEq
    have hletters : c ≠ d := by
      rintro rfl
      exact hne (String.toList_inj.mp (hcs.trans hds.symm))
    exact ⟨(convert_eq_iff hc hd hletters role).mpr hcase, rfl⟩

end

/-! ## Main Result -/

/-- **Told**: what a name is told with some others in front of it. It gets its identifier if none of them
    has it; it is a repetition if it owns the identifier itself, and else it collides with the owner. -/
structure Told (role : IdentifierRole) (scope : Scope) (earlier : List String) (name : String)
    (origin : Origin) (outcome : Except Failure Unit) : Prop where
  ok_iff : outcome = .ok () ↔ ∀ other ∈ earlier, identifier role other ≠ identifier role name
  duplicate_iff : outcome = .error (.duplicate (scope.qualified name) origin) ↔
    firstOwner role earlier (identifier role name) = some name
  collision_iff : ∀ first,
    outcome = .error (.collision scope.label (identifier role name) first name origin) ↔
      firstOwner role earlier (identifier role name) = some first ∧ first ≠ name

theorem Remembers.told {role : IdentifierRole} {start scope : Scope} {names : List String}
    (h : Remembers role start scope names) (name : String) (origin : Origin) :
    Told role start names name origin (scope.enter role name origin).1 := by
  rw [h.enter_eq]
  cases hfirst : firstOwner role names (identifier role name) with
  | none =>
    refine ⟨?_, ?_, ?_⟩
    · simpa using firstOwner_eq_none.mp hfirst
    · simp [hfirst]
    · simp [hfirst]
  | some first =>
    have htaken : ¬∀ other ∈ names, identifier role other ≠ identifier role name := by
      intro hnone
      rw [firstOwner_eq_none.mpr hnone] at hfirst
      cases hfirst
    by_cases hname : first = name
    · subst hname
      exact ⟨by simpa using htaken, by simp [hfirst], by simp [hfirst]⟩
    · refine ⟨by simpa [hname] using htaken, by simp [hfirst, hname], fun other => ?_⟩
      simp only [hname, if_false, hfirst]
      constructor
      · intro heq
        simp at heq
        exact ⟨by rw [heq], heq ▸ hname⟩
      · rintro ⟨heq, -⟩
        simp [Option.some.inj heq]

/-- **Runs of claims**: of names that are entered in a scope one after the other, each is told whether its
    identifier is free, is its own already, or is owned by another name, which is the first one that had
    it. A refusal changes nothing, so that the scope always has the first owner of each identifier and
    as many identifiers as there are. Two names of GraphQL meet in one identifier if they are the same
    but for the case of their first letters. -/
theorem run_tells_first_owners (role : IdentifierRole) {scope : Scope} (hempty : scope.taken = [])
    (entries : List (String × Origin)) :
    (∀ front name origin back, entries = front ++ (name, origin) :: back →
      ∃ outcome, (scope.run role entries).1[front.length]? = some outcome ∧
        Told role scope (front.map Prod.fst) name origin outcome ∧
        (outcome ≠ .ok () →
          (scope.run role (front ++ [(name, origin)])).2 = (scope.run role front).2)) ∧
      (∀ key, (scope.run role entries).2.get? key =
        firstOwner role (entries.map Prod.fst) key) ∧
      (scope.run role entries).2.size =
        ((entries.map Prod.fst).map (identifier role)).toFinset.card ∧
      ∀ name other, Sdl.isNameText name → Sdl.isNameText other → name ≠ other →
        (identifier role name = identifier role other ↔ DifferInFirstCase name other) := by
  have hall : Remembers role scope (scope.run role entries).2 (entries.map Prod.fst) :=
    (remembers_empty hempty).run entries
  refine ⟨?_, hall.get, hall.size, fun name other hname hother hne =>
    identifier_eq_iff hname hother hne role⟩
  intro front name origin back hentries
  have hfront : Remembers role scope (scope.run role front).2 (front.map Prod.fst) :=
    (remembers_empty hempty).run front
  refine ⟨((scope.run role front).2.enter role name origin).1, ?_, hfront.told name origin, ?_⟩
  · have hlength : (scope.run role front).1.length = front.length := scope.length_run front
    rw [hentries, Scope.run_append, ← hlength]
    simp
  · intro hrefused
    rw [Scope.run_append]
    simp only [Scope.run_cons, Scope.run_nil]
    rw [hfront.enter_eq] at hrefused ⊢
    cases hfirst : firstOwner role (front.map Prod.fst) (identifier role name) with
    | none => simp [hfirst] at hrefused
    | some first => by_cases hname : first = name <;> simp [hname]

/-- Three names that meet in one identifier, the last of them for the second time. -/
def crewEntries : List (String × Origin) :=
  [("captain", .sdl ⟨1, 1⟩), ("Captain", .sdl ⟨2, 1⟩), ("captain", .sdl ⟨3, 1⟩)]

theorem run_tells_first_owners_crew :
    Scope.types.taken = [] ∧
      crewEntries = [("captain", .sdl ⟨1, 1⟩)] ++
        ("Captain", .sdl ⟨2, 1⟩) :: [("captain", .sdl ⟨3, 1⟩)] ∧
      (Scope.types.run .typeMember crewEntries).1[1]? =
        some (.error (.collision "schema" "Captain" "captain" "Captain" (.sdl ⟨2, 1⟩))) ∧
      (Scope.types.run .typeMember (crewEntries.take 2)).2 =
        (Scope.types.run .typeMember (crewEntries.take 1)).2 ∧
      (Scope.types.run .typeMember crewEntries).2.get? "Captain" = some "captain" ∧
      (Scope.types.run .typeMember crewEntries).2.size = 1 ∧
      Sdl.isNameText "captain" ∧ Sdl.isNameText "Captain" ∧
      DifferInFirstCase "captain" "Captain" := by
  have hempty : Scope.types.taken = [] := rfl
  obtain ⟨htold, hget, hsize, hnames⟩ := run_tells_first_owners .typeMember hempty crewEntries
  obtain ⟨outcome, houtcome, told, hsame⟩ := htold [("captain", .sdl ⟨1, 1⟩)] "Captain"
    (.sdl ⟨2, 1⟩) [("captain", .sdl ⟨3, 1⟩)] rfl
  have hcollision := (told.collision_iff "captain").mpr ⟨by decide +kernel, by decide⟩
  have hidentifier : identifier .typeMember "Captain" = "Captain" := by decide +kernel
  refine ⟨hempty, rfl, ?_, hsame (by rw [hcollision]; exact nofun), ?_, ?_, by decide +kernel,
    by decide +kernel, ?_⟩
  · rw [hidentifier] at hcollision
    exact houtcome.trans (congrArg some hcollision)
  · rw [hget]
    decide +kernel
  · rw [hsize]
    decide +kernel
  · exact (hnames "captain" "Captain" (by decide +kernel) (by decide +kernel) (by decide)).mp
      (by decide +kernel)

end SchemaModel
