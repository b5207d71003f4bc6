import SchemaModel.Introspection.Reading

/-! # Paths in Documents

    The text of a path is read back, and its steps are followed from the document on.

    * **pathOf?**: the steps that the text of a path stands for. A key goes on to the next point or
      bracket, so that only paths with plain keys are read back from their texts.
    * **at?**: the value that some steps lead to.
    * **Part**: a value inside a document with the path that leads to it. What is listed under a key
      of a part is made up of parts again. -/

namespace SchemaModel

namespace Json

/-! ## Texts of Paths -/

/-- What the reading of a path is in the middle of: nothing, a key or an index. -/
inductive PathState where
  | behind
  | key (name : List Char)
  | index (digits : List Char)
  deriving Repr, DecidableEq

/-- The steps that the rest of the text of a path stands for. -/
def stepsFrom : PathState → List Char → Option Path
  | .behind, [] => some []
  | .key name, [] => some [.key (String.ofList name)]
  | .index _, [] => none
  | .behind, c :: cs =>
    if c = '.' then stepsFrom (.key []) cs
    else if c = '[' then stepsFrom (.index []) cs
    else none
  | .key name, c :: cs =>
    if c = '.' then (stepsFrom (.key []) cs).map (.key (String.ofList name) :: ·)
    else if c = '[' then (stepsFrom (.index []) cs).map (.key (String.ofList name) :: ·)
    else stepsFrom (.key (name ++ [c])) cs
  | .index digits, c :: cs =>
    if c.isDigit then stepsFrom (.index (digits ++ [c])) cs
    else if c = ']' ∧ digits ≠ [] then
      (stepsFrom .behind cs).map (.index (Nat.ofDigitChars 10 digits 0) :: ·)
    else none

/-- **Read back**: the steps that the text of a path stands for. A single point is the empty path, and
    any other one begins with a key. -/
def pathOf? (text : String) : Option Path :=
  if text = "." then some [] else stepsFrom (.key []) text.toList

/-- Can the step be told from what is around it? -/
def Step.isPlain : Step → Bool
  | .key name => name ≠ "" && name.toList.all fun c => c ≠ '.' && c ≠ '['
  | .index _ => true

/-- The path begins with a key, or it is empty. -/
def Path.Keyed (path : Path) : Prop :=
  ∀ step ∈ path.head?, ∃ name, step = .key name

/-- **Plain paths**: they begin with a key, and all of their keys can be told from what is around them. -/
structure Path.Plain (path : Path) : Prop where
  keyed : path.Keyed
  steps : ∀ step ∈ path, step.isPlain

theorem Path.Keyed.append_key {path : Path} (h : path.Keyed) (name : String) (others : Path) :
    Path.Keyed (path ++ .key name :: others) := by
  cases path with
  | nil =>
    rintro _ ⟨⟩
    exact ⟨name, rfl⟩
  | cons step path => exact h

theorem plain_of_isPlain {name : String} (h : Step.isPlain (.key name)) :
    name ≠ "" ∧ ∀ c ∈ name.toList, c ≠ '.' ∧ c ≠ '[' := by
  simpa [Step.isPlain] using h

theorem stepsFrom_key {ks : List Char} (h : ∀ c ∈ ks, c ≠ '.' ∧ c ≠ '[') (name rest : List Char) :
    stepsFrom (.key name) (ks ++ rest) = stepsFrom (.key (name ++ ks)) rest := by
  induction ks generalizing name with
  | nil => rw [List.append_nil, List.nil_append]
  | cons c ks ih =>
    obtain ⟨⟨hpoint, hbracket⟩, hks⟩ := List.forall_mem_cons.mp h
    rw [List.cons_append, stepsFrom, if_neg hpoint, if_neg hbracket, ih hks, List.append_assoc,
      List.singleton_append]

theorem stepsFrom_index {ds : List Char} (h : ∀ d ∈ ds, d.isDigit) (digits rest : List Char) :
    stepsFrom (.index digits) (ds ++ rest) = stepsFrom (.index (digits ++ ds)) rest := by
  induction ds generalizing digits with
  | nil => rw [List.append_nil, List.nil_append]
  | cons d ds ih =>
    obtain ⟨hd, hds⟩ := List.forall_mem_cons.mp h
    rw [List.cons_append, stepsFrom, if_pos hd, ih hds, List.append_assoc, List.singleton_append]

/-- An index is read back from its digits. -/
theorem stepsFrom_toDigits (position : Nat) (rest : List Char) :
    stepsFrom (.index []) (Nat.toDigits 10 position ++ ']' :: rest) =
      (stepsFrom .behind rest).map (.index position :: ·) := by
  have hdigits : ∀ d ∈ Nat.toDigits 10 position, d.isDigit :=
    fun d hd => Nat.isDigit_of_mem_toDigits (by decide) (by decide) hd
  have hne : Nat.toDigits 10 position ≠ [] := Nat.toDigits_ne_nil
  rw [stepsFrom_index hdigits, List.nil_append, stepsFrom, if_neg (by decide), if_pos ⟨rfl, hne⟩,
    Nat.ofDigitChars_toDigits (by decide) (by decide)]

theorem toList_tailText_key (name : String) (path : Path) :
    (tailText (.key name :: path)).toList = '.' :: (name.toList ++ (tailText path).toList) := by
  simp [tailText]

theorem toList_tailText_index (position : Nat) (path : Path) :
    (tailText (.index position :: path)).toList =
      '[' :: (Nat.toDigits 10 position ++ ']' :: (tailText path).toList) := by
  have hdigits : (toString position).toList = Nat.toDigits 10 position := by simp
  have hopen : (toString "[").toList = ['['] := rfl
  have hclose : (toString "]").toList = [']'] := rfl
  simp only [tailText, String.toList_append, hdigits, hopen, hclose, List.append_assoc,
    List.cons_append, List.nil_append]

/-- The steps behind the first one are read back from their text. A key in front of them ends there. -/
theorem stepsFrom_tailText {path : Path} (h : ∀ step ∈ path, step.isPlain) :
    stepsFrom .behind (tailText path).toList = some path ∧
      ∀ name, stepsFrom (.key name) (tailText path).toList =
        some (.key (String.ofList name) :: path) := by
  induction path with
  | nil => exact ⟨rfl, fun _ => rfl⟩
  | cons step path ih =>
    obtain ⟨hstep, hpath⟩ := List.forall_mem_cons.mp h
    obtain ⟨hbehind, hkey⟩ := ih hpath
    cases step with
    | key name =>
      obtain ⟨-, hplain⟩ := plain_of_isPlain hstep
      have hrest : stepsFrom (.key []) (name.toList ++ (tailText path).toList) =
          some (.key name :: path) := by
        rw [stepsFrom_key hplain, List.nil_append, hkey, String.ofList_toList]
      refine ⟨?_, fun front => ?_⟩
      · rw [toList_tailText_key, stepsFrom, if_pos rfl, hrest]
      · rw [toList_tailText_key, stepsFrom, if_pos rfl, hrest]
        rfl
    | index position =>
      have hrest : stepsFrom (.index []) (Nat.toDigits 10 position ++ ']' :: (tailText path).toList) =
          some (.index position :: path) := by
        rw [stepsFrom_toDigits, hbehind]
        rfl
      refine ⟨?_, fun front => ?_⟩
      · rw [toList_tailText_index, stepsFrom, if_neg (by decide), if_pos rfl, hrest]
      · rw [toList_tailText_index, stepsFrom, if_neg (by decide), if_pos rfl, hrest]
        rfl

/-- **Read back**: a plain path is read back from its text. -/
theorem pathOf?_pathText {path : Path} (h : path.Plain) : pathOf? (pathText path) = some path := by
  cases path with
  | nil => rfl
  | cons step others =>
    obtain ⟨name, rfl⟩ := h.keyed step rfl
    obtain ⟨hname, hothers⟩ := List.forall_mem_cons.mp h.steps
    obtain ⟨hne, hplain⟩ := plain_of_isPlain hname
    -- the text begins with the first character of the key, which is no point
    have htext : pathText (.key name :: others) ≠ "." := by
      intro hpoint
      obtain ⟨c, cs, hcs⟩ := List.exists_cons_of_ne_nil (mt String.toList_eq_nil_iff.mp hne)
      have hfirst := congrArg String.toList hpoint
      rw [pathText, String.toList_append, hcs] at hfirst
      exact (hplain c (hcs ▸ List.mem_cons_self)).1 (List.cons.inj hfirst).1
    rw [pathOf?, if_neg htext, pathText, String.toList_append, stepsFrom_key hplain, List.nil_append,
      (stepsFrom_tailText hothers).2, String.ofList_toList]

example : pathOf? "data.__schema.types[12].fields[0]" =
    some [.key "data", .key "__schema", .key "types", .index 12, .key "fields", .index 0] := by
  decide +kernel

/-! ## Following Paths -/

/-- The part of a value that a step leads to. -/
def step? : Json → Step → Option Json
  | json, .key name => json.member? name
  | .array items, .index position => items[position]?
  | _, .index _ => none

/-- The value that some steps lead to. -/
def at? (json : Json) : Path → Option Json
  | [] => some json
  | step :: path => (json.step? step).bind (·.at? path)

theorem at?_append (json : Json) (path others : Path) :
    json.at? (path ++ others) = (json.at? path).bind (·.at? others) := by
  induction path generalizing json with
  | nil => rfl
  | cons step path ih =>
    rw [List.cons_append, at?, at?, Option.bind_assoc]
    exact congrArg _ (funext fun part => ih part)

/-! ## Parts -/

/-- The values that are listed under a key. -/
def itemsOf (json : Json) (key : String) : List Json :=
  match json.member? key with
  | some (.array items) => items
  | _ => []

/-- A value with the path that leads to it. -/
structure Part where
  path : Path
  json : Json

/-- The items of an array that stands under a key at a path, where the first one has the given index. -/
def partsFrom (path : Path) (key : String) (index : Nat) : List Json → List Part
  | [] => []
  | item :: items =>
    ⟨path ++ [.key key, .index index], item⟩ :: partsFrom path key (index + 1) items

/-- What is listed under a key of the part. -/
def Part.listed (part : Part) (key : String) : List Part :=
  partsFrom part.path key 0 (part.json.itemsOf key)

/-- **In place**: the path of the part can be read back from its text, and leads from the document to
    its value. -/
structure Part.InPlace (document : Json) (part : Part) : Prop where
  plain : part.path.Plain
  reached : document.at? part.path = some part.json

/-- An item that is listed under a plain key of a part in place is in place. -/
theorem Part.InPlace.item {document json : Json} {root : Part} {key : String} {index : Nat}
    (h : root.InPlace document) (hkey : Step.isPlain (.key key))
    (hitem : (root.json.itemsOf key)[index]? = some json) :
    Part.InPlace document ⟨root.path ++ [.key key, .index index], json⟩ := by
  have harray : ∃ items, root.json.member? key = some (.array items) ∧ items[index]? = some json := by
    unfold itemsOf at hitem
    split at hitem
    · rename_i items hmember
      exact ⟨items, hmember, hitem⟩
    · simp at hitem
  obtain ⟨items, hmember, hitem⟩ := harray
  refine ⟨⟨h.plain.keyed.append_key key _, ?_⟩, ?_⟩
  · exact List.forall_mem_append.mpr
      ⟨h.plain.steps, List.forall_mem_cons.mpr ⟨hkey, List.forall_mem_singleton.mpr rfl⟩⟩
  · simp [at?_append, h.reached, at?, step?, hmember, hitem]

end Json

/-! ## Envelopes -/

namespace Introspection

open Json (Path Part)

/-- The steps from a document to its schema. -/
def Envelope.steps (envelope : Envelope) : Path :=
  envelope.keys.map .key

/-- A path inside the schema is written as it is seen from the document. -/
theorem pathText_eq (envelope : Envelope) {path : Path} (h : path.Keyed) :
    envelope.pathText path = Json.pathText (envelope.steps ++ path) := by
  cases path with
  | nil => cases envelope <;> rfl
  | cons step path =>
    obtain ⟨name, rfl⟩ := h step rfl
    apply String.toList_inj.mp
    cases envelope <;>
      simp [Envelope.pathText, Envelope.steps, Envelope.keys, Json.pathText, Json.tailText]

theorem plain_steps (envelope : Envelope) : envelope.steps.Plain := by
  constructor
  · cases envelope <;> simp [Path.Keyed, Envelope.steps, Envelope.keys]
  · cases envelope <;> decide

/-- The schema of a document is in place. -/
theorem inPlace_of_locate {document schema : Json} {envelope : Envelope}
    (h : locate document = .ok (envelope, schema)) :
    Part.InPlace document ⟨envelope.steps, schema⟩ := by
  refine ⟨plain_steps envelope, ?_⟩
  unfold locate at h
  repeat' split at h
  all_goals cases h
  · rename_i hdata _ hschema
    simp [Envelope.steps, Envelope.keys, Json.at?, Json.step?, hdata, hschema]
  · rename_i hschema
    simp [Envelope.steps, Envelope.keys, Json.at?, Json.step?, hschema]
  · rfl

end Introspection

end SchemaModel
