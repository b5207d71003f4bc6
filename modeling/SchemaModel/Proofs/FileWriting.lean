import Mathlib.Data.List.Infix
import SchemaModel.CommandLine.FileSystem
import SchemaModel.Proofs.Scopes

/-! # Written Files

    What is written to a file is read back from it, and every other file stays as it is.

    * **Put**: a location holds what was put there last, and no other location is touched. A file that
      is put into a directory makes no other directory.
    * **Walks**: a path that leads somewhere leads there behind such a file, too.
    * **Written**: a text is in the file at a path, and all else is as before. -/

namespace SchemaModel.CommandLine.FileSystem

variable {system : FileSystem} {directory location target place : Location} {name path : String}
  {contents : ByteArray}

/-! ## Directories -/

theorem hasDirectory_iff : system.hasDirectory location = true ↔
    location <+: system.home ∨ ∃ entry ∈ system.files, location <+: entry.1 ∧ location ≠ entry.1 := by
  simp [hasDirectory, List.isPrefixOf_iff_prefix]

/-- Above a directory there are directories. -/
theorem hasDirectory_of_prefix (h : system.hasDirectory directory = true)
    (habove : location <+: directory) : system.hasDirectory location = true := by
  rw [hasDirectory_iff] at h ⊢
  rcases h with hhome | ⟨entry, hentry, hwithin, hne⟩
  · exact .inl (habove.trans hhome)
  · refine .inr ⟨entry, hentry, habove.trans hwithin, fun heq => hne ?_⟩
    exact hwithin.eq_of_length_le (heq ▸ habove.length_le)

/-! ## Put -/

@[simp] theorem home_put : (system.put target contents).home = system.home := rfl

theorem mem_files_put {entry : Location × ByteArray} :
    entry ∈ (system.put target contents).files ↔
      entry ∈ system.files ∧ entry.1 ≠ target ∨ entry = (target, contents) := by
  simp [put]

/-- A location holds what was put there. -/
@[simp] theorem contents?_put_self :
    (system.put target contents).contents? target = some contents := by
  have hnone : (system.files.filter (·.1 ≠ target)).lookup target = none := by
    rw [List.lookup_eq_none_iff]
    intro entry hentry
    have hne := (List.mem_filter.mp hentry).2
    rw [decide_eq_true_iff] at hne
    simpa using Ne.symm hne
  rw [contents?, put, List.lookup_append, hnone, List.lookup_cons_self]
  rfl

/-- What is filtered out for another key is not looked up. -/
theorem lookup_filter_of_ne (h : location ≠ target) (files : List (Location × ByteArray)) :
    (files.filter (·.1 ≠ target)).lookup location = files.lookup location := by
  induction files with
  | nil => rfl
  | cons entry files ih =>
    obtain ⟨other, held⟩ := entry
    by_cases hother : other = target
    · have hne : (location == other) = false := by simpa [hother] using h
      rw [List.filter_cons_of_neg (by simpa using hother), List.lookup_cons, hne, ih]
    · rw [List.filter_cons_of_pos (by simpa using hother), List.lookup_cons, List.lookup_cons, ih]

/-- The other locations hold what they held. -/
theorem contents?_put_of_ne (h : location ≠ target) :
    (system.put target contents).contents? location = system.contents? location := by
  have hne : (location == target) = false := by simpa using h
  rw [contents?, put, List.lookup_append, lookup_filter_of_ne h, List.lookup_cons, hne]
  exact Option.or_none

/-- A file that is put into a directory makes no other directory, and takes none away. -/
theorem hasDirectory_put (h : system.hasDirectory directory = true) (location : Location) :
    (system.put (directory ++ [name]) contents).hasDirectory location =
      system.hasDirectory location := by
  rw [Bool.eq_iff_iff]
  constructor
  · intro hput
    rw [hasDirectory_iff] at hput
    rcases hput with hhome | ⟨entry, hentry, hwithin, hne⟩
    · exact hasDirectory_iff.mpr (.inl hhome)
    rcases mem_files_put.mp hentry with ⟨hold, -⟩ | rfl
    · exact hasDirectory_iff.mpr (.inr ⟨entry, hold, hwithin, hne⟩)
    · -- what lies above the new file is its directory, or lies above that
      rcases List.prefix_concat_iff.mp hwithin with heq | habove
      · exact absurd heq hne
      · exact hasDirectory_of_prefix h habove
  · intro hold
    rw [hasDirectory_iff] at hold ⊢
    rcases hold with hhome | ⟨entry, hentry, hwithin, hne⟩
    · exact .inl hhome
    by_cases htarget : entry.1 = directory ++ [name]
    · exact .inr ⟨_, mem_files_put.mpr (.inr rfl), htarget ▸ hwithin, htarget ▸ hne⟩
    · exact .inr ⟨entry, mem_files_put.mpr (.inl ⟨hentry, htarget⟩), hwithin, hne⟩

/-! ## Walks -/

theorem entry_eq_ok : system.entry directory name = .ok location ↔
    location = directory ++ [name] ∧
      (system.hasDirectory location = true ∨ (system.contents? location).isSome = true) := by
  rw [entry]
  split
  · rename_i hthere
    rw [Bool.or_eq_true] at hthere
    constructor
    · rintro ⟨⟩
      exact ⟨rfl, hthere⟩
    · rintro ⟨rfl, -⟩
      rfl
  · rename_i hmissing
    constructor
    · rintro ⟨⟩
    · rintro ⟨rfl, hthere⟩
      exact absurd ((Bool.or_eq_true _ _).mpr hthere) hmissing

/-- A step stays where it is, goes up, or enters what is there. -/
theorem step_eq_ok {part : String} : system.step place part = .ok location ↔
    system.hasDirectory place = true ∧
      if Path.isIdle part then location = place
      else if part = ".." then location = place.dropLast
      else part.utf8ByteSize ≤ nameLimit ∧ system.entry place part = .ok location := by
  rw [step]
  cases hplace : system.hasDirectory place with
  | false => simp
  | true =>
    by_cases hidle : Path.isIdle part
    · simp [hidle, eq_comm]
    by_cases habove : part = ".."
    · simp [habove, eq_comm, show Path.isIdle ".." = false by decide]
    by_cases hlong : nameLimit < part.utf8ByteSize
    · simp [hidle, habove, hlong, Nat.not_le.mpr hlong]
    · simp [hidle, habove, hlong, Nat.le_of_not_lt hlong]

/-- Behind a new file, a step leads where it led. -/
theorem step_put (h : system.hasDirectory directory = true) {part : String}
    (hstep : system.step place part = .ok location) :
    (system.put (directory ++ [name]) contents).step place part = .ok location := by
  obtain ⟨hplace, hpart⟩ := step_eq_ok.mp hstep
  refine step_eq_ok.mpr ⟨(hasDirectory_put h place).trans hplace, ?_⟩
  by_cases hidle : Path.isIdle part
  · rwa [if_pos hidle] at hpart ⊢
  rw [if_neg hidle] at hpart ⊢
  by_cases habove : part = ".."
  · rwa [if_pos habove] at hpart ⊢
  · -- a file or directory that is entered is still there
    rw [if_neg habove] at hpart ⊢
    obtain ⟨hlocation, hthere⟩ := entry_eq_ok.mp hpart.2
    refine ⟨hpart.1, entry_eq_ok.mpr ⟨hlocation, ?_⟩⟩
    rw [hasDirectory_put h]
    by_cases htarget : location = directory ++ [name]
    · exact .inr (by rw [htarget, contents?_put_self]; rfl)
    · rwa [contents?_put_of_ne htarget]

/-- Behind a new file, a walk leads where it led. -/
theorem walk_put (h : system.hasDirectory directory = true) {parts : List String}
    (hwalk : system.walk place parts = .ok location) :
    (system.put (directory ++ [name]) contents).walk place parts = .ok location := by
  induction parts generalizing place with
  | nil => exact hwalk
  | cons part parts ih =>
    rw [walk, List.foldlM_cons] at hwalk ⊢
    obtain ⟨next, hstep, hrest⟩ := bind_eq_ok.mp hwalk
    exact bind_eq_ok.mpr ⟨next, step_put h hstep, ih hrest⟩

theorem walk_concat {parts : List String} (hwalk : system.walk place parts = .ok directory) :
    system.walk place (parts ++ [name]) = system.step directory name := by
  rw [walk, List.foldlM_append, ← walk, hwalk]
  exact bind_pure (system.step directory name)

/-! ## Written Texts -/

/-- The bytes of a text are read as the text. -/
theorem fromUTF8?_toUTF8 (text : String) : String.fromUTF8? text.toUTF8 = some text :=
  dif_pos text.isValidUTF8

theorem writeAt_eq_ok {written : FileSystem} :
    system.writeAt directory name contents = .ok written ↔
      name.utf8ByteSize ≤ nameLimit ∧ system.hasDirectory (directory ++ [name]) = false ∧
        written = system.put (directory ++ [name]) contents := by
  rw [writeAt]
  by_cases hlong : nameLimit < name.utf8ByteSize
  · simp [hlong, Nat.not_le.mpr hlong]
  · cases hthere : system.hasDirectory (directory ++ [name]) with
    | true => simp [hlong]
    | false => simp [hlong, Nat.le_of_not_lt hlong, eq_comm]

/-- The last part of a path without a slash behind it is the first one that is found from the end. -/
theorem eq_concat_of_dropWhile {parts front : List String}
    (h : parts.reverse.dropWhile (· = "") = name :: front) (hslash : parts.getLast? ≠ some "") :
    parts = front.reverse ++ [name] := by
  cases hreverse : parts.reverse with
  | nil =>
    rw [hreverse] at h
    cases h
  | cons last others =>
    have hparts : parts = others.reverse ++ [last] := by
      rw [← List.reverse_reverse parts, hreverse, List.reverse_cons]
    have hne : last ≠ "" := by
      rintro rfl
      exact hslash (by rw [hparts, List.getLast?_concat])
    -- nothing is dropped
    rw [hreverse, List.dropWhile_cons_of_neg (by simpa using hne)] at h
    obtain ⟨rfl, rfl⟩ := List.cons.inj h
    exact hparts

/-- A file that is written lies in a directory, under the last part of its path. -/
theorem exists_of_write {written : FileSystem} (h : system.write path contents = .ok written) :
    ∃ directory name parts, usableParts path = .ok (parts ++ [name]) ∧
      system.walk (system.start path) parts = .ok directory ∧
      system.hasDirectory directory = true ∧ Path.isIdle name = false ∧ name ≠ ".." ∧
      name.utf8ByteSize ≤ nameLimit ∧ written = system.put (directory ++ [name]) contents := by
  obtain ⟨parts, hparts, h⟩ := bind_eq_ok.mp h
  split at h
  · cases h
  rename_i name front hfront
  obtain ⟨directory, hwalk, h⟩ := bind_eq_ok.mp h
  split at h
  · -- a path that ends in a point or two leads to a directory
    obtain ⟨_, -, h⟩ := bind_eq_ok.mp h
    cases h
  rename_i hname
  split at h
  · cases h
  rename_i hdirectory
  split at h
  · cases h
  rename_i hslash
  -- what is left is a name in a directory that is there
  obtain ⟨hshort, -, rfl⟩ := writeAt_eq_ok.mp h
  have hlast := eq_concat_of_dropWhile hfront hslash
  rw [Bool.or_eq_true, not_or, decide_eq_true_iff] at hname
  exact ⟨directory, name, front.reverse, hlast ▸ hparts, hwalk, by simpa using hdirectory,
    by simpa using hname.1, hname.2, hshort, rfl⟩

/-- **Written**: the file at a path holds a text. All other files are as they were before, and so are
    the directories. -/
structure Written (before after : FileSystem) (path text : String) : Prop where
  held : after.readText path = .ok text
  others : ∃ location, after.locate path = .ok location ∧
    ∀ other, other ≠ location → after.contents? other = before.contents? other
  directories : ∀ location, after.hasDirectory location = before.hasDirectory location
  home : after.home = before.home

/-- What is written is read back, and nothing else is touched. -/
theorem written_of_write {text : String} {after : FileSystem}
    (h : system.write path text.toUTF8 = .ok after) : Written system after path text := by
  obtain ⟨directory, name, parts, hparts, hwalk, hdirectory, hidle, habove, hshort, rfl⟩ :=
    exists_of_write h
  -- the way to the directory is still there, and the last step finds the file
  have hstep : (system.put (directory ++ [name]) text.toUTF8).step directory name =
      .ok (directory ++ [name]) := by
    have hthere : ((system.put (directory ++ [name]) text.toUTF8).contents?
        (directory ++ [name])).isSome = true := by
      rw [contents?_put_self]
      rfl
    refine step_eq_ok.mpr ⟨(hasDirectory_put hdirectory _).trans hdirectory, ?_⟩
    rw [if_neg (by simp [hidle]), if_neg habove]
    exact ⟨hshort, entry_eq_ok.mpr ⟨rfl, .inr hthere⟩⟩
  have hlocate : (system.put (directory ++ [name]) text.toUTF8).locate path =
      .ok (directory ++ [name]) := by
    rw [locate, hparts]
    exact (walk_concat (walk_put hdirectory hwalk)).trans hstep
  have hread : (system.put (directory ++ [name]) text.toUTF8).read path = .ok text.toUTF8 := by
    refine bind_eq_ok.mpr ⟨_, hlocate, ?_⟩
    rw [contents?_put_self]
    rfl
  have hheld : (system.put (directory ++ [name]) text.toUTF8).readText path = .ok text := by
    refine bind_eq_ok.mpr ⟨_, hread, ?_⟩
    rw [fromUTF8?_toUTF8]
    rfl
  exact ⟨hheld, ⟨_, hlocate, fun other hother => contents?_put_of_ne hother⟩,
    hasDirectory_put hdirectory, rfl⟩

end SchemaModel.CommandLine.FileSystem
