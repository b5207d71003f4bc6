import Mathlib.Data.List.Forall2
import Mathlib.Data.List.TakeWhile
import SchemaModel.Proofs.Scopes
import SchemaModel.Proofs.Updates

/-! # Texts of Overrides

    What the text of some overrides stands for.

    * **segments**: the parts of a text between commas, without blanks around them. Empty ones are left out.
    * **Gives** and **Faulty**: what a segment stands for, or else what is wrong with it, told from where it
      is cut in two.
    * **FirstFault**: the first segment of some that is faulty. Reading stops there.
    * **written**: overrides in the form of a text. The text is read as these overrides again. -/

namespace SchemaModel

/-! ## Blanks -/

namespace Blank

/-- **Tight**: with no blank at either end. -/
def Tight (cs : List Char) : Prop :=
  (∀ c, cs.head? = some c → isBlank c = false) ∧ ∀ c, cs.getLast? = some c → isBlank c = false

variable {cs : List Char}

/-- What is dropped at the end is blank. -/
theorem exists_behind (cs : List Char) :
    ∃ back, cs.dropWhile isBlank = trim cs ++ back ∧ ∀ c ∈ back, isBlank c := by
  refine ⟨((cs.dropWhile isBlank).reverse.takeWhile isBlank).reverse, ?_, fun c hc =>
    List.mem_takeWhile_imp (List.mem_reverse.mp hc)⟩
  rw [trim, ← List.reverse_append, List.takeWhile_append_dropWhile, List.reverse_reverse]

/-- The text that is left lies between blanks. -/
theorem exists_around (cs : List Char) :
    ∃ front back, cs = front ++ (trim cs ++ back) ∧ (∀ c ∈ front, isBlank c) ∧
      ∀ c ∈ back, isBlank c := by
  obtain ⟨back, hback, hblank⟩ := exists_behind cs
  refine ⟨cs.takeWhile isBlank, back, ?_, fun c hc => List.mem_takeWhile_imp hc, hblank⟩
  rw [← hback, List.takeWhile_append_dropWhile]

theorem mem_of_mem_trim {c : Char} (h : c ∈ trim cs) : c ∈ cs := by
  obtain ⟨front, back, hcs, -⟩ := exists_around cs
  rw [hcs]
  simp [h]

theorem dropWhile_of_head? (h : ∀ c, cs.head? = some c → isBlank c = false) :
    cs.dropWhile isBlank = cs := by
  cases cs with
  | nil => rfl
  | cons c cs => exact List.dropWhile_cons_of_neg (by simpa using h c rfl)

theorem head?_dropWhile {c : Char} (h : (cs.dropWhile isBlank).head? = some c) :
    isBlank c = false := by
  have hnot := List.head?_dropWhile_not isBlank cs
  rwa [h] at hnot

theorem tight_trim (cs : List Char) : Tight (trim cs) := by
  constructor
  · intro c hc
    -- what is dropped at the end leaves the first character alone
    obtain ⟨back, hback, -⟩ := exists_behind cs
    have hfirst : (cs.dropWhile isBlank).head? = some c := by
      rw [hback, List.head?_append, hc]
      rfl
    exact head?_dropWhile hfirst
  · intro c hc
    rw [trim, List.getLast?_reverse] at hc
    exact head?_dropWhile hc

theorem trim_of_tight (h : Tight cs) : trim cs = cs := by
  have hreverse : cs.reverse.dropWhile isBlank = cs.reverse :=
    dropWhile_of_head? fun c hc => h.2 c (by rwa [List.head?_reverse] at hc)
  rw [trim, dropWhile_of_head? h.1, hreverse, List.reverse_reverse]

end Blank

/-! ## Segments -/

theorem Separated.split_eq_splitOn (separator : Char) (cs : List Char) :
    Separated.split separator cs = cs.splitOn separator := by
  induction cs with
  | nil => rfl
  | cons c cs ih =>
    rw [Separated.split, List.splitOn_cons_eq_if_modifyHead, ih]
    by_cases hc : c = separator
    · simp [hc]
    · simp [hc]

/-- No part holds a separator. -/
theorem Separated.not_mem_of_mem_split {separator : Char} {cs part : List Char}
    (h : part ∈ Separated.split separator cs) : separator ∉ part := by
  induction cs generalizing part with
  | nil =>
    rw [Separated.split, List.mem_singleton] at h
    simp [h]
  | cons c cs ih =>
    unfold Separated.split at h
    by_cases hc : c = separator
    · rw [if_pos hc] at h
      rcases List.mem_cons.mp h with rfl | h
      · exact List.not_mem_nil
      · exact ih h
    · rw [if_neg hc] at h
      cases hparts : Separated.split separator cs with
      | nil => simp [hparts] at h
      | cons first parts =>
        rw [hparts, List.modifyHead_cons] at h
        rcases List.mem_cons.mp h with rfl | h
        · have hfirst := ih (hparts ▸ List.mem_cons_self)
          simpa [Ne.symm hc] using hfirst
        · exact ih (hparts ▸ List.mem_cons_of_mem _ h)

namespace Overrides

/-- Parts without the blanks around them, if anything is left of them then. -/
def filled (parts : List (List Char)) : List (List Char) :=
  (parts.map Blank.trim).filter fun part => !part.isEmpty

/-- **Segments**: the parts of a text between commas, without the blanks around them. Those that are
    empty are left out. -/
def segments (text : String) : List (List Char) :=
  filled (text.toList.splitOn ',')

/-- The segments of two texts with a comma between them. -/
theorem segments_append (first second : String) :
    segments (first ++ "," ++ second) = segments first ++ segments second := by
  have hcomma : (first ++ "," ++ second).toList = first.toList ++ ',' :: second.toList := by
    simp
  unfold segments
  rw [hcomma, List.splitOn_append_cons_self, filled, List.map_append, List.filter_append]
  rfl

theorem not_mem_of_mem_segments {text : String} {segment : List Char} (h : segment ∈ segments text) :
    ',' ∉ segment := by
  obtain ⟨part, hpart, rfl⟩ := List.mem_map.mp (List.mem_filter.mp h).1
  rw [← Separated.split_eq_splitOn] at hpart
  exact fun hmem => Separated.not_mem_of_mem_split hpart (Blank.mem_of_mem_trim hmem)

/-! ### What a Segment Stands For -/

/-- **Cut**: a segment at its first equals sign. -/
structure Cut (segment left right : List Char) : Prop where
  eq : segment = left ++ '=' :: right
  first : '=' ∉ left

/-- **Gives**: the name and the target that a segment stands for. The text of the target tells whether it
    is a value type. -/
structure Gives (segment : List Char) (entry : String × ScalarTarget) : Prop where
  cut : ∃ left right, Cut segment left right ∧ Blank.trim left = entry.1.toList ∧
    Blank.trim right = entry.2.text.toList
  name : entry.1.toList ≠ []
  target : entry.2.text.toList ≠ [] ∧ entry.2.text.toList ≠ ['!']
  valueType : entry.2.valueType ↔ entry.2.text.toList.getLast? = some '!'

/-- **Faulty**: what is wrong with a segment that stands for nothing. -/
inductive Faulty (segment : List Char) : OverrideFault → Prop
  | missingEquals : '=' ∉ segment → Faulty segment .missingEquals
  | emptyName {left right : List Char} :
      Cut segment left right → Blank.trim left = [] → Faulty segment .emptyName
  | emptyTarget {left right : List Char} :
      Cut segment left right → Blank.trim left ≠ [] →
      Blank.trim right = [] ∨ Blank.trim right = ['!'] → Faulty segment .emptyTarget

/-- A target is told by its text. -/
theorem text_ofText (text : String) : (ScalarTarget.ofText text).text = text := by
  unfold ScalarTarget.ofText ScalarTarget.text
  by_cases hbang : text.toList.getLast? = some '!'
  · rw [if_pos hbang]
    obtain ⟨front, hfront⟩ := List.getLast?_eq_some_iff.mp hbang
    rw [← String.toList_inj]
    simp [hfront]
  · rw [if_neg hbang]
    rfl

theorem valueType_ofText (text : String) :
    (ScalarTarget.ofText text).valueType ↔ text.toList.getLast? = some '!' := by
  unfold ScalarTarget.ofText
  by_cases hbang : text.toList.getLast? = some '!'
  · simp [hbang]
  · simp [hbang]

/-- A target that its text tells to be a value type or not is the one that is read from the text. -/
theorem ofText_text {target : ScalarTarget}
    (h : target.valueType ↔ target.text.toList.getLast? = some '!') :
    ScalarTarget.ofText target.text = target := by
  obtain ⟨name, valueType⟩ := target
  cases valueType with
  | true => simp [ScalarTarget.ofText, ScalarTarget.text]
  | false =>
    have hbang : name.toList.getLast? ≠ some '!' := fun hbang => by
      simpa using h.mpr hbang
    simp [ScalarTarget.ofText, ScalarTarget.text, hbang]

section

variable {segment left right : List Char}

/-- A segment with an equals sign is cut at the first one. -/
theorem Cut.parts (h : Cut segment left right) :
    segment.takeWhile (· ≠ '=') = left ∧ segment.dropWhile (· ≠ '=') = '=' :: right := by
  have hleft : ∀ c ∈ left, decide (c ≠ '=') = true := by
    intro c hc
    exact decide_eq_true fun heq => h.first (heq ▸ hc)
  rw [h.eq, List.takeWhile_append_of_pos hleft, List.dropWhile_append_of_pos hleft]
  simp

theorem dropWhile_eq_nil (h : '=' ∉ segment) : segment.dropWhile (· ≠ '=') = [] := by
  rw [List.dropWhile_eq_nil_iff]
  intro c hc
  exact decide_eq_true fun heq => h (heq ▸ hc)

theorem exists_cut (h : '=' ∈ segment) : ∃ left right, Cut segment left right := by
  obtain ⟨left, right, heq, hfirst⟩ := List.eq_append_cons_of_mem h
  exact ⟨left, right, heq, hfirst⟩

/-- A segment that is cut in two is read from its two sides. -/
theorem Cut.readPair_eq (h : Cut segment left right) :
    readPair segment =
      if Blank.trim left = [] then .error .emptyName
      else if Blank.trim right = [] ∨ Blank.trim right = ['!'] then .error .emptyTarget
      else .ok (String.ofList (Blank.trim left), .ofText (String.ofList (Blank.trim right))) := by
  obtain ⟨htake, hdrop⟩ := h.parts
  unfold readPair
  rw [hdrop, htake]
  simp

theorem readPair_of_not_mem (h : '=' ∉ segment) : readPair segment = .error .missingEquals := by
  unfold readPair
  rw [dropWhile_eq_nil h]

/-- A segment is read as what it gives. -/
theorem readPair_eq_ok {entry : String × ScalarTarget} :
    readPair segment = .ok entry ↔ Gives segment entry := by
  constructor
  · intro h
    by_cases hmem : '=' ∈ segment
    · obtain ⟨left, right, hcut⟩ := exists_cut hmem
      rw [hcut.readPair_eq] at h
      by_cases hname : Blank.trim left = []
      · simp [hname] at h
      · by_cases htarget : Blank.trim right = [] ∨ Blank.trim right = ['!']
        · simp [hname, htarget] at h
        · rw [if_neg hname, if_neg htarget] at h
          obtain rfl := Except.ok.inj h
          refine ⟨⟨left, right, hcut, ?_, ?_⟩, ?_, ?_, ?_⟩
          · simp
          · simp [text_ofText]
          · simpa using hname
          · simpa [text_ofText] using htarget
          · rw [text_ofText]
            exact valueType_ofText _
    · rw [readPair_of_not_mem hmem] at h
      cases h
  · intro h
    obtain ⟨⟨left, right, hcut, hleft, hright⟩, hname, htarget, hvalueType⟩ := h
    rw [hcut.readPair_eq, hleft, hright, if_neg hname, if_neg (not_or.mpr htarget),
      String.ofList_toList, String.ofList_toList, ofText_text hvalueType]

/-- A segment that cannot be read is faulty, in the way that is told. -/
theorem readPair_eq_error {fault : OverrideFault} :
    readPair segment = .error fault ↔ Faulty segment fault := by
  constructor
  · intro h
    by_cases hmem : '=' ∈ segment
    · obtain ⟨left, right, hcut⟩ := exists_cut hmem
      rw [hcut.readPair_eq] at h
      by_cases hname : Blank.trim left = []
      · rw [if_pos hname] at h
        obtain rfl := Except.error.inj h
        exact .emptyName hcut hname
      · by_cases htarget : Blank.trim right = [] ∨ Blank.trim right = ['!']
        · rw [if_neg hname, if_pos htarget] at h
          obtain rfl := Except.error.inj h
          exact .emptyTarget hcut hname htarget
        · simp [hname, htarget] at h
    · rw [readPair_of_not_mem hmem] at h
      obtain rfl := Except.error.inj h
      exact .missingEquals hmem
  · intro h
    cases h with
    | missingEquals hmem => exact readPair_of_not_mem hmem
    | emptyName hcut hname => rw [hcut.readPair_eq, if_pos hname]
    | emptyTarget hcut hname htarget => rw [hcut.readPair_eq, if_neg hname, if_pos htarget]

end

/-! ### Lists of Segments -/

/-- **First fault**: a faulty segment, behind others that are not. -/
def FirstFault (segments : List (List Char)) (segment : List Char) (fault : OverrideFault) : Prop :=
  ∃ front back, segments = front ++ segment :: back ∧
    (∀ earlier ∈ front, ∀ fault, ¬Faulty earlier fault) ∧ Faulty segment fault

section

variable {segment other : List Char} {rest parts : List (List Char)} {fault : OverrideFault}
  {entry : String × ScalarTarget} {entries overrides : Overrides}

theorem gives_or_faulty (segment : List Char) :
    (∃ entry, Gives segment entry) ∨ ∃ fault, Faulty segment fault := by
  cases h : readPair segment with
  | ok entry => exact .inl ⟨entry, readPair_eq_ok.mp h⟩
  | error fault => exact .inr ⟨fault, readPair_eq_error.mp h⟩

theorem Gives.not_faulty (h : Gives segment entry) : ¬Faulty segment fault := by
  intro hfault
  have herror := readPair_eq_error.mpr hfault
  rw [readPair_eq_ok.mpr h] at herror
  cases herror

/-- The first fault is that of the first segment, or the first one of the rest. -/
theorem firstFault_cons :
    FirstFault (other :: rest) segment fault ↔
      (segment = other ∧ Faulty segment fault) ∨
        (∀ fault, ¬Faulty other fault) ∧ FirstFault rest segment fault := by
  constructor
  · intro h
    obtain ⟨front, back, heq, hfront, hfault⟩ := h
    cases front with
    | nil => exact .inl ⟨(List.cons.inj heq).1.symm, hfault⟩
    | cons first front =>
      obtain ⟨rfl, hrest⟩ := List.cons.inj heq
      obtain ⟨hfirst, hfront⟩ := List.forall_mem_cons.mp hfront
      exact .inr ⟨hfirst, front, back, hrest, hfront, hfault⟩
  · intro h
    rcases h with ⟨rfl, hfault⟩ | ⟨hother, front, back, heq, hfront, hfault⟩
    · exact ⟨[], rest, rfl, List.forall_mem_nil _, hfault⟩
    · exact ⟨other :: front, back, by rw [heq, List.cons_append],
        List.forall_mem_cons.mpr ⟨hother, hfront⟩, hfault⟩

/-- Segments stand for entries all, or there is a first one that does not. -/
theorem entries_or_firstFault (segments : List (List Char)) :
    (∃ entries, List.Forall₂ Gives segments entries) ∨
      ∃ segment fault, FirstFault segments segment fault := by
  induction segments with
  | nil => exact .inl ⟨[], .nil⟩
  | cons other segments ih =>
    rcases gives_or_faulty other with ⟨entry, hgives⟩ | ⟨fault, hfault⟩
    · rcases ih with ⟨entries, hentries⟩ | ⟨segment, fault, hfirst⟩
      · exact .inl ⟨entry :: entries, .cons hgives hentries⟩
      · exact .inr ⟨segment, fault, firstFault_cons.mpr (.inr ⟨fun _ => hgives.not_faulty, hfirst⟩)⟩
    · exact .inr ⟨other, fault, firstFault_cons.mpr (.inl ⟨rfl, hfault⟩)⟩

/-! ### Reading Segments -/

/-- A part is passed over if nothing is left of it, and is a segment otherwise. -/
theorem filled_cons (part : List Char) (parts : List (List Char)) :
    filled (part :: parts) =
      if (Blank.trim part).isEmpty then filled parts else Blank.trim part :: filled parts := by
  unfold filled
  by_cases h : (Blank.trim part).isEmpty
  · simp [h]
  · simp [h]

/-- **Run**: the entries that the parts stand for are set one after the other. -/
theorem readPairs_of_gives (overrides : Overrides) (h : List.Forall₂ Gives (filled parts) entries) :
    readPairs overrides parts = .ok (update overrides entries) := by
  induction parts generalizing overrides entries with
  | nil =>
    cases h
    rfl
  | cons part parts ih =>
    rw [filled_cons] at h
    unfold readPairs
    by_cases hempty : (Blank.trim part).isEmpty
    · rw [if_pos hempty] at h
      rw [if_pos hempty]
      exact ih overrides h
    · rw [if_neg hempty] at h
      obtain ⟨entry, entries, hgives, hrest, rfl⟩ := List.forall₂_cons_left_iff.mp h
      rw [if_neg hempty, readPair_eq_ok.mpr hgives]
      exact ih _ hrest

/-- **Stop**: the first fault is told, with the segment that has it. -/
theorem readPairs_of_firstFault (overrides : Overrides)
    (h : FirstFault (filled parts) segment fault) :
    readPairs overrides parts = .error (.invalidOverride (String.ofList segment) fault) := by
  induction parts generalizing overrides with
  | nil =>
    obtain ⟨front, back, heq, -⟩ := h
    simp [filled] at heq
  | cons part parts ih =>
    rw [filled_cons] at h
    unfold readPairs
    by_cases hempty : (Blank.trim part).isEmpty
    · rw [if_pos hempty] at h
      rw [if_pos hempty]
      exact ih overrides h
    · rw [if_neg hempty] at h
      rcases firstFault_cons.mp h with ⟨rfl, hfault⟩ | ⟨hnone, hfirst⟩
      · rw [if_neg hempty, readPair_eq_error.mpr hfault]
      · -- the part stands for an entry, which changes nothing about the fault
        obtain ⟨entry, hgives⟩ := (gives_or_faulty (Blank.trim part)).resolve_right
          fun ⟨fault, hfault⟩ => hnone fault hfault
        rw [if_neg hempty, readPair_eq_ok.mpr hgives]
        exact ih _ hfirst

/-- A text is read as the entries that its segments stand for. -/
theorem read_of_gives {text : String} (h : List.Forall₂ Gives (segments text) entries) :
    read text = .ok (update [] entries) := by
  unfold read
  rw [Separated.split_eq_splitOn]
  exact readPairs_of_gives [] h

theorem read_of_firstFault {text : String} (h : FirstFault (segments text) segment fault) :
    read text = .error (.invalidOverride (String.ofList segment) fault) := by
  unfold read
  rw [Separated.split_eq_splitOn]
  exact readPairs_of_firstFault [] h

/-- What has been read comes from entries for the segments. -/
theorem exists_gives {text : String} (h : read text = .ok overrides) :
    ∃ entries, List.Forall₂ Gives (segments text) entries ∧ overrides = update [] entries := by
  rcases entries_or_firstFault (segments text) with ⟨entries, hentries⟩ | ⟨segment, fault, hfirst⟩
  · rw [read_of_gives hentries] at h
    exact ⟨entries, hentries, (Except.ok.inj h).symm⟩
  · rw [read_of_firstFault hfirst] at h
    cases h

theorem read_eq_ok {text : String} :
    read text = .ok overrides ↔
      ∃ entries, List.Forall₂ Gives (segments text) entries ∧ LastWins entries overrides := by
  constructor
  · intro h
    obtain ⟨entries, hentries, rfl⟩ := exists_gives h
    exact ⟨entries, hentries, lastWins_update entries⟩
  · intro h
    obtain ⟨entries, hentries, hwins⟩ := h
    rw [read_of_gives hentries, (lastWins_update entries).unique hwins]

theorem read_eq_error {text : String} {failure : Failure} :
    read text = .error failure ↔
      ∃ segment fault, FirstFault (segments text) segment fault ∧
        failure = .invalidOverride (String.ofList segment) fault := by
  constructor
  · intro h
    rcases entries_or_firstFault (segments text) with ⟨entries, hentries⟩ | ⟨segment, fault, hfirst⟩
    · rw [read_of_gives hentries] at h
      cases h
    · rw [read_of_firstFault hfirst] at h
      exact ⟨segment, fault, hfirst, (Except.error.inj h).symm⟩
  · intro h
    obtain ⟨segment, fault, hfirst, rfl⟩ := h
    exact read_of_firstFault hfirst

/-- Of two lists that are related item by item, an item of one is related to an item of the other. -/
theorem exists_related {α β : Type} {R : α → β → Prop} {xs : List α} {ys : List β} {x : α}
    (h : List.Forall₂ R xs ys) (hmem : x ∈ xs) : ∃ y ∈ ys, R x y := by
  induction h with
  | nil => cases hmem
  | cons hfirst _ ih =>
    rcases List.mem_cons.mp hmem with rfl | hmem
    · exact ⟨_, List.mem_cons_self, hfirst⟩
    · obtain ⟨y, hy, hrelated⟩ := ih hmem
      exact ⟨y, List.mem_cons_of_mem _ hy, hrelated⟩

/-- Where a segment is faulty, there is a first one. -/
theorem exists_firstFault (hmem : segment ∈ rest) (h : Faulty segment fault) :
    ∃ first fault, FirstFault rest first fault := by
  refine (entries_or_firstFault rest).resolve_left ?_
  intro hentries
  obtain ⟨entries, hentries⟩ := hentries
  obtain ⟨entry, -, hgives⟩ := exists_related hentries hmem
  exact hgives.not_faulty h

/-! ## Texts of Overrides -/

/-- Two texts with a comma between them are read as the entries of the first one, with those of the
    second one set on top of them. -/
theorem read_append {first second : String} {others : Overrides} (hfirst : read first = .ok overrides)
    (hsecond : read second = .ok others) :
    read (first ++ "," ++ second) = .ok (update overrides others) := by
  obtain ⟨entries, hentries, rfl⟩ := exists_gives hfirst
  obtain ⟨behind, hbehind, rfl⟩ := exists_gives hsecond
  have hall : List.Forall₂ Gives (segments (first ++ "," ++ second)) (entries ++ behind) := by
    rw [segments_append]
    exact List.rel_append hentries hbehind
  rw [read_of_gives hall, update_append, update_update]

/-- An entry in the form of a segment. -/
def writtenPair (entry : String × ScalarTarget) : List Char :=
  entry.1.toList ++ '=' :: entry.2.text.toList

/-- **Written**: overrides as the text of their entries, with commas between them. -/
def written (overrides : Overrides) : String :=
  String.intercalate "," (overrides.map fun entry => entry.1 ++ "=" ++ entry.2.text)

/-- **Writable**: an entry that is told by its segment, in any list of segments. -/
structure Writable (entry : String × ScalarTarget) : Prop where
  gives : Gives (writtenPair entry) entry
  tight : Blank.Tight (writtenPair entry)
  comma : ',' ∉ writtenPair entry

/-- An entry that some segment stands for can be written as one. -/
theorem Gives.writable (h : Gives segment entry) (hcomma : ',' ∉ segment) : Writable entry := by
  obtain ⟨left, right, hcut, hleft, hright⟩ := h.cut
  have hname : Blank.Tight entry.1.toList := hleft ▸ Blank.tight_trim left
  have htarget : Blank.Tight entry.2.text.toList := hright ▸ Blank.tight_trim right
  have hequals : '=' ∉ entry.1.toList := by
    rw [← hleft]
    intro hmem
    exact hcut.first (Blank.mem_of_mem_trim hmem)
  refine ⟨⟨⟨_, _, ⟨rfl, hequals⟩, Blank.trim_of_tight hname, Blank.trim_of_tight htarget⟩, h.name,
    h.target, h.valueType⟩, ⟨?_, ?_⟩, ?_⟩
  · -- the pair begins as its name does
    intro c hc
    rw [writtenPair, List.head?_append_of_ne_nil _ h.name] at hc
    exact hname.1 c hc
  · -- and it ends as its target does
    intro c hc
    rw [writtenPair, List.getLast?_append_of_ne_nil _ (List.cons_ne_nil _ _),
      List.getLast?_cons_of_ne_nil h.target.1] at hc
    exact htarget.2 c hc
  · -- both sides come from the segment
    intro hmem
    apply hcomma
    rw [writtenPair, ← hleft, ← hright] at hmem
    rw [hcut.eq]
    rcases List.mem_append.mp hmem with hmem | hmem
    · exact List.mem_append_left _ (Blank.mem_of_mem_trim hmem)
    · rcases List.mem_cons.mp hmem with heq | hmem
      · cases heq
      · exact List.mem_append_right _ (List.mem_cons_of_mem _ (Blank.mem_of_mem_trim hmem))

/-- Parts without blanks around them are segments, unless they are empty. -/
theorem filled_of_tight (h : ∀ part ∈ parts, Blank.Tight part ∧ part ≠ []) : filled parts = parts := by
  induction parts with
  | nil => rfl
  | cons part parts ih =>
    obtain ⟨⟨htight, hne⟩, hparts⟩ := List.forall_mem_cons.mp h
    rw [filled_cons, Blank.trim_of_tight htight, if_neg (by simpa using hne), ih hparts]

theorem segments_written (h : ∀ entry ∈ overrides, Writable entry) :
    segments (written overrides) = overrides.map writtenPair := by
  have htext : (written overrides).toList = [','].intercalate (overrides.map writtenPair) := by
    rw [written, String.toList_intercalate, List.map_map]
    congr 2
    funext entry
    simp [writtenPair]
  unfold segments
  rw [htext]
  by_cases hnil : overrides = []
  · -- the empty text has one part, which is empty
    subst hnil
    rfl
  · have hcommas : ∀ part ∈ overrides.map writtenPair, ',' ∉ part := by
      intro part hpart
      obtain ⟨entry, hentry, rfl⟩ := List.mem_map.mp hpart
      exact (h entry hentry).comma
    rw [List.splitOn_intercalate ',' hcommas (by simpa using hnil)]
    apply filled_of_tight
    intro part hpart
    obtain ⟨entry, hentry, rfl⟩ := List.mem_map.mp hpart
    exact ⟨(h entry hentry).tight, by simp [writtenPair]⟩

/-- What has been read can be written, and is then read again. -/
theorem read_written {text : String} (h : read text = .ok overrides) :
    read (written overrides) = .ok overrides := by
  obtain ⟨entries, hentries, rfl⟩ := exists_gives h
  have hwritable : ∀ entry ∈ update [] entries, Writable entry := by
    intro entry hentry
    have hmem := (mem_update hentry).resolve_right List.not_mem_nil
    have hflip : List.Forall₂ (flip Gives) entries (segments text) := hentries.flip
    obtain ⟨segment, hsegment, hgives⟩ := exists_related hflip hmem
    exact hgives.writable (not_mem_of_mem_segments hsegment)
  have hgives : List.Forall₂ Gives (segments (written (update [] entries))) (update [] entries) := by
    rw [segments_written hwritable, List.forall₂_map_left_iff, List.forall₂_same]
    exact fun entry hentry => (hwritable entry hentry).gives
  rw [read_of_gives hgives, update_of_nodup (lastWins_update entries).nodup, List.nil_append]

end

/-! ## Main Result -/

/-- **Overrides by their texts**: a text is refused if and only if one of its segments is faulty, and it
    is the first one that is told. Any other text is read as one entry for each name, in the order in
    which the names come up first and with the target that is given for them last. These entries are
    read again from the text that they are written as, and two texts with a comma between them are read
    as the entries of the first one updated by those of the second one. -/
theorem read_last_wins :
    (∀ text, (∃ failure, read text = .error failure) ↔
      ∃ segment ∈ segments text, ∃ fault, Faulty segment fault) ∧
    (∀ text failure, read text = .error failure ↔
      ∃ segment fault, FirstFault (segments text) segment fault ∧
        failure = .invalidOverride (String.ofList segment) fault) ∧
    (∀ text overrides, read text = .ok overrides ↔
      ∃ entries, List.Forall₂ Gives (segments text) entries ∧ LastWins entries overrides) ∧
    (∀ text overrides, read text = .ok overrides → read (written overrides) = .ok overrides) ∧
    ∀ first second overrides others, read first = .ok overrides → read second = .ok others →
      read (first ++ "," ++ second) = .ok (update overrides others) := by
  refine ⟨?_, fun text failure => read_eq_error, fun text overrides => read_eq_ok,
    fun text overrides => read_written, fun first second overrides others => read_append⟩
  intro text
  constructor
  · intro h
    obtain ⟨failure, h⟩ := h
    obtain ⟨segment, fault, ⟨front, back, hsegments, -, hfault⟩, -⟩ := read_eq_error.mp h
    exact ⟨segment, by simp [hsegments], fault, hfault⟩
  · intro h
    obtain ⟨segment, hmem, fault, hfault⟩ := h
    obtain ⟨first, fault, hfirst⟩ := exists_firstFault hmem hfault
    exact ⟨_, read_of_firstFault hfirst⟩

/-- Two names, the first of them given again at the end, with an empty part in between. -/
def dockText : String := " ID = Guid ,, When=Instant! ,ID=Long"

theorem read_last_wins_dockText :
    read dockText = .ok [("ID", ⟨"Long", false⟩), ("When", ⟨"Instant", true⟩)] ∧
      written [("ID", ⟨"Long", false⟩), ("When", ⟨"Instant", true⟩)] = "ID=Long,When=Instant!" ∧
      read "ID=Long,When=Instant!" =
        .ok [("ID", ⟨"Long", false⟩), ("When", ⟨"Instant", true⟩)] ∧
      read "When=Text" = .ok [("When", ⟨"Text", false⟩)] ∧
      read (dockText ++ "," ++ "When=Text") =
        .ok [("ID", ⟨"Long", false⟩), ("When", ⟨"Text", false⟩)] ∧
      Faulty ['=', 'F'] .emptyName ∧
      segments "ID=Guid,=F,ID" = [['I', 'D', '=', 'G', 'u', 'i', 'd'], ['=', 'F'], ['I', 'D']] ∧
      ∃ failure, read "ID=Guid,=F,ID" = .error failure := by
  obtain ⟨hrefused, -, -, hwritten, happended⟩ := read_last_wins
  have hdock : read dockText = .ok [("ID", ⟨"Long", false⟩), ("When", ⟨"Instant", true⟩)] :=
    toOption_eq_some.mp (by decide +kernel)
  have htext : written [("ID", ⟨"Long", false⟩), ("When", ⟨"Instant", true⟩)] =
      "ID=Long,When=Instant!" := by
    decide +kernel
  have hwhen : read "When=Text" = .ok [("When", ⟨"Text", false⟩)] :=
    toOption_eq_some.mp (by decide +kernel)
  have hfault : Faulty ['=', 'F'] .emptyName :=
    .emptyName ⟨(rfl : ['=', 'F'] = [] ++ '=' :: ['F']), List.not_mem_nil⟩ rfl
  have hsegments : segments "ID=Guid,=F,ID" =
      [['I', 'D', '=', 'G', 'u', 'i', 'd'], ['=', 'F'], ['I', 'D']] := by
    decide +kernel
  refine ⟨hdock, htext, htext ▸ hwritten _ _ hdock, hwhen, happended _ _ _ _ hdock hwhen, hfault,
    hsegments, (hrefused _).mpr ⟨['=', 'F'], ?_, _, hfault⟩⟩
  simp [hsegments]

end Overrides

end SchemaModel
