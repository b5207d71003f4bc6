import Mathlib.Data.List.Induction
import Mathlib.Data.List.Nodup
import SchemaModel.Proofs.Overriding

/-! # Updates

    Entries with names, of which one is set after the other.

    * **update**: entries that are set one after the other on top of earlier ones.
    * **LastWins**: one entry for each name, in the order in which the names come up first, and with what
      the last entry of the name says. Setting entries in their order keeps this.
    * **update_update**: to set some pairs on top of others is to set the entries that are left of
      these pairs. -/

namespace SchemaModel

/-! ## Setting Entries -/

section

variable {α : Type} {entries others pairs : List (String × α)} {key name : String} {value : α}

/-- **Update**: the entries with others set on top of them, one after the other. -/
def update (entries others : List (String × α)) : List (String × α) :=
  others.foldl (fun entries entry => setEntry entry.1 entry.2 entries) entries

@[simp] theorem update_nil (entries : List (String × α)) : update entries [] = entries := rfl

@[simp] theorem update_cons (entries : List (String × α)) (entry : String × α)
    (others : List (String × α)) :
    update entries (entry :: others) = update (setEntry entry.1 entry.2 entries) others := rfl

theorem update_append (entries others pairs : List (String × α)) :
    update entries (others ++ pairs) = update (update entries others) pairs :=
  List.foldl_append

/-- A key that is set goes to the end, unless it is there already. -/
theorem names_setEntry (key : String) (value : α) (entries : List (String × α)) :
    (setEntry key value entries).map Prod.fst =
      if key ∈ entries.map Prod.fst then entries.map Prod.fst
      else entries.map Prod.fst ++ [key] := by
  induction entries with
  | nil => rfl
  | cons entry entries ih =>
    obtain ⟨first, old⟩ := entry
    unfold setEntry
    by_cases hfirst : first = key
    · simp [hfirst]
    · rw [if_neg hfirst]
      simp only [List.map_cons, ih]
      by_cases hmem : key ∈ entries.map Prod.fst
      · rw [if_pos hmem, if_pos (List.mem_cons_of_mem _ hmem)]
      · rw [if_neg hmem, if_neg (by simpa [Ne.symm hfirst] using hmem), List.cons_append]

theorem mem_names_setEntry {other : String} :
    key ∈ (setEntry other value entries).map Prod.fst ↔ key = other ∨ key ∈ entries.map Prod.fst := by
  rw [names_setEntry]
  by_cases h : other ∈ entries.map Prod.fst
  · rw [if_pos h]
    constructor
    · exact .inr
    · intro hkey
      rcases hkey with rfl | hmem
      · exact h
      · exact hmem
  · rw [if_neg h, List.mem_append, List.mem_singleton, or_comm]

/-- An entry with a new key goes to the end. -/
theorem setEntry_of_not_mem (hnew : key ∉ entries.map Prod.fst) (value : α) :
    setEntry key value entries = entries ++ [(key, value)] := by
  induction entries with
  | nil => rfl
  | cons entry entries ih =>
    obtain ⟨hne, hnew⟩ : key ≠ entry.1 ∧ key ∉ entries.map Prod.fst := by simpa using hnew
    simp [setEntry, Ne.symm hne, ih hnew]

theorem lookup_of_not_mem (hnew : key ∉ entries.map Prod.fst) : entries.lookup key = none := by
  refine List.lookup_eq_none_iff.mpr ?_
  intro entry hentry
  have hne : key ≠ entry.1 := by
    intro heq
    exact hnew (heq ▸ List.mem_map_of_mem hentry)
  simpa using hne

theorem mem_setEntry {entry : String × α} (h : entry ∈ setEntry key value entries) :
    entry = (key, value) ∨ entry ∈ entries := by
  induction entries with
  | nil => exact .inl (List.mem_singleton.mp h)
  | cons other entries ih =>
    obtain ⟨first, old⟩ := other
    unfold setEntry at h
    by_cases hfirst : first = key
    · rw [if_pos hfirst] at h
      rcases List.mem_cons.mp h with heq | hmem
      · exact .inl heq
      · exact .inr (List.mem_cons_of_mem _ hmem)
    · rw [if_neg hfirst] at h
      rcases List.mem_cons.mp h with heq | hmem
      · exact .inr (heq ▸ List.mem_cons_self)
      · exact (ih hmem).imp_right (List.mem_cons_of_mem _)

theorem mem_update {entry : String × α} (h : entry ∈ update entries others) :
    entry ∈ others ∨ entry ∈ entries := by
  induction others generalizing entries with
  | nil => exact .inr h
  | cons other others ih =>
    rcases ih h with hmem | hmem
    · exact .inl (List.mem_cons_of_mem _ hmem)
    · rcases mem_setEntry hmem with heq | hmem
      · exact .inl (heq ▸ List.mem_cons_self)
      · exact .inr hmem

/-! ### Entries in Another Order -/

/-- Of two values that are set for one key, the later one stays. -/
theorem setEntry_setEntry (key : String) (value old : α) (entries : List (String × α)) :
    setEntry key value (setEntry key old entries) = setEntry key value entries := by
  induction entries with
  | nil => simp [setEntry]
  | cons entry entries ih =>
    obtain ⟨first, other⟩ := entry
    by_cases hfirst : first = key
    · simp [setEntry, hfirst]
    · simp [setEntry, hfirst, ih]

/-- A key that is there already can be set before another one. -/
theorem setEntry_comm {other : String} (hne : other ≠ key) (hmem : key ∈ entries.map Prod.fst)
    (value old : α) :
    setEntry key value (setEntry other old entries) =
      setEntry other old (setEntry key value entries) := by
  induction entries with
  | nil => cases hmem
  | cons entry entries ih =>
    obtain ⟨first, target⟩ := entry
    by_cases hkey : first = key
    · subst hkey
      simp [setEntry, Ne.symm hne]
    · have hmem : key ∈ entries.map Prod.fst := by simpa [Ne.symm hkey] using hmem
      by_cases hother : first = other
      · subst hother
        simp [setEntry, hkey]
      · simp [setEntry, hkey, hother, ih hmem]

/-- A key that is there already can be set before others that are not the same. -/
theorem setEntry_update (hnone : key ∉ others.map Prod.fst) (hmem : key ∈ entries.map Prod.fst)
    (value : α) :
    setEntry key value (update entries others) = update (setEntry key value entries) others := by
  induction others generalizing entries with
  | nil => rfl
  | cons other others ih =>
    obtain ⟨hne, hnone⟩ : key ≠ other.1 ∧ key ∉ others.map Prod.fst := by simpa using hnone
    have hstays : key ∈ (setEntry other.1 other.2 entries).map Prod.fst :=
      mem_names_setEntry.mpr (.inr hmem)
    rw [update_cons, update_cons, ih hnone hstays, setEntry_comm (Ne.symm hne) hmem]

/-- An entry can be set among the others before these are set. -/
theorem update_setEntry (hnodup : (others.map Prod.fst).Nodup) (key : String) (value : α) :
    update entries (setEntry key value others) = setEntry key value (update entries others) := by
  induction others generalizing entries with
  | nil => rfl
  | cons other others ih =>
    obtain ⟨first, old⟩ := other
    obtain ⟨hfirst, hnodup⟩ := List.nodup_cons.mp hnodup
    by_cases hkey : first = key
    · -- the entry is set in its own place, and no other one has its key
      subst hkey
      have hthere : first ∈ (setEntry first old entries).map Prod.fst :=
        mem_names_setEntry.mpr (.inl rfl)
      have hset : setEntry first value ((first, old) :: others) = (first, value) :: others := by
        simp [setEntry]
      rw [hset, update_cons, update_cons, setEntry_update hfirst hthere, setEntry_setEntry]
    · have hset : setEntry key value ((first, old) :: others) =
          (first, old) :: setEntry key value others := by
        simp [setEntry, hkey]
      rw [hset, update_cons, update_cons, ih hnodup]

/-- Entries with new keys go to the end. -/
theorem update_of_nodup (h : ((entries ++ others).map Prod.fst).Nodup) :
    update entries others = entries ++ others := by
  induction others generalizing entries with
  | nil => simp
  | cons other others ih =>
    obtain ⟨key, value⟩ := other
    have hnew : key ∉ entries.map Prod.fst := by
      rw [List.map_append, List.nodup_append] at h
      intro hmem
      exact h.2.2 key hmem key (by simp) rfl
    rw [update_cons, setEntry_of_not_mem hnew, ih (by simpa using h), List.append_assoc]
    rfl

/-! ### The Last Entry of a Name -/

/-- A name behind some others is new among them, or it is not one more. -/
theorem eraseDups_concat (names : List String) (name : String) :
    (names ++ [name]).eraseDups =
      if name ∈ names then names.eraseDups else names.eraseDups ++ [name] := by
  rw [List.eraseDups_append]
  by_cases h : name ∈ names
  · simp [List.removeAll, h]
  · simp [List.removeAll, h, List.eraseDups_cons]

theorem nodup_eraseDups (names : List String) : names.eraseDups.Nodup := by
  induction names using List.reverseRecOn with
  | nil => simp
  | append_singleton names name ih =>
    rw [eraseDups_concat]
    by_cases h : name ∈ names
    · rwa [if_pos h]
    · rw [if_neg h, List.nodup_append]
      refine ⟨ih, List.nodup_singleton name, fun other hother _ hname heq => h ?_⟩
      rw [List.mem_singleton] at hname
      rw [← hname, ← heq]
      exact List.mem_eraseDups.mp hother

/-- **Last one wins**: one entry for each name of some pairs, in the order in which the names come up
    first, each with what the last pair of the name says. -/
structure LastWins (pairs entries : List (String × α)) : Prop where
  names : entries.map Prod.fst = (pairs.map Prod.fst).eraseDups
  /-- A name is looked up as in the pairs from the end on. -/
  targets : ∀ name, entries.lookup name = pairs.reverse.lookup name

namespace LastWins

theorem nil : LastWins ([] : List (String × α)) [] := ⟨rfl, fun _ => rfl⟩

theorem nodup (h : LastWins pairs entries) : (entries.map Prod.fst).Nodup :=
  h.names ▸ nodup_eraseDups _

/-- **Step**: one more pair is set as an entry. -/
theorem set (h : LastWins pairs entries) (key : String) (value : α) :
    LastWins (pairs ++ [(key, value)]) (setEntry key value entries) where
  names := by
    have hmem : key ∈ entries.map Prod.fst ↔ key ∈ pairs.map Prod.fst := by
      rw [h.names, List.mem_eraseDups]
    rw [names_setEntry, List.map_append, List.map_singleton, eraseDups_concat]
    by_cases hkey : key ∈ entries.map Prod.fst
    · rw [if_pos hkey, if_pos (hmem.mp hkey), h.names]
    · rw [if_neg hkey, if_neg (mt hmem.mpr hkey), h.names]
  targets name := by
    rw [lookup_setEntry, h.targets, List.reverse_append, List.reverse_singleton,
      List.singleton_append, List.lookup_cons]
    by_cases hname : name = key
    · simp [hname]
    · simp [hname, beq_false_of_ne hname]

/-- **Run**: pairs are set as entries in their order. -/
theorem update (h : LastWins pairs entries) (others : List (String × α)) :
    LastWins (pairs ++ others) (update entries others) := by
  induction others generalizing pairs entries with
  | nil => simpa using h
  | cons other others ih => simpa using ih (h.set other.1 other.2)

/-- There is only one such list of entries. -/
theorem unique (h : LastWins pairs entries) (hothers : LastWins pairs others) :
    entries = others := by
  have hnames := h.names.trans hothers.names.symm
  have htargets : ∀ name, entries.lookup name = others.lookup name := fun name =>
    (h.targets name).trans (hothers.targets name).symm
  have hnodup := h.nodup
  clear h hothers
  induction entries generalizing others with
  | nil => exact (List.map_eq_nil_iff.mp hnames.symm).symm
  | cons entry entries ih =>
    obtain ⟨other, others, rfl⟩ : ∃ other rest, others = other :: rest := by
      cases others with
      | nil => cases hnames
      | cons other rest => exact ⟨other, rest, rfl⟩
    obtain ⟨name, value⟩ := entry
    obtain ⟨name', value'⟩ := other
    obtain ⟨rfl, hrest⟩ : name = name' ∧ entries.map Prod.fst = others.map Prod.fst := by
      simpa using hnames
    obtain ⟨hnew, hnodup⟩ := List.nodup_cons.mp hnodup
    have hvalue : value = value' := by simpa using htargets name
    refine hvalue ▸ congrArg _ (ih hrest (fun key => ?_) hnodup)
    have hkey := htargets key
    rw [List.lookup_cons, List.lookup_cons] at hkey
    by_cases h : key = name
    · -- the first name comes up in neither of the rests
      subst h
      rw [lookup_of_not_mem hnew, lookup_of_not_mem (hrest ▸ hnew)]
    · simpa [beq_false_of_ne h] using hkey

end LastWins

/-- The entries of some pairs. -/
theorem lastWins_update (pairs : List (String × α)) : LastWins pairs (update [] pairs) :=
  LastWins.nil.update pairs

/-- Setting pairs is setting the entries of these pairs. -/
theorem update_update (entries pairs : List (String × α)) :
    update entries (update [] pairs) = update entries pairs := by
  induction pairs using List.reverseRecOn with
  | nil => rfl
  | append_singleton pairs pair ih =>
    have hset : ∀ entries : List (String × α),
        update entries (pairs ++ [pair]) = setEntry pair.1 pair.2 (update entries pairs) :=
      fun entries => update_append entries pairs [pair]
    rw [hset, hset, update_setEntry (lastWins_update pairs).nodup, ih]

end

end SchemaModel
