import Mathlib.Data.List.TakeWhile
import SchemaModel.Position

/-! # Positions by Walking

    The look-up in the table of lines gives what is found by walking over the characters of a text.

    * **past**: the position behind some characters that begin at a position.
    * **walk**: the position of a byte offset, found by passing over one character after the other.
    * **Look-up**: the table of a text gives the positions of a walk from line 1, column 1.
    * **Blanks**: a stretch of a text in which every character but the line feeds is replaced by a
      space. What stands behind it stays on its line and in its column. -/

namespace SchemaModel

/-! ## Walks -/

namespace LineCol

/-- The position behind a character that stands at `p`. -/
def past (p : LineCol) (c : Char) : LineCol :=
  if c = '\n' then ⟨p.line + 1, 1⟩ else ⟨p.line, p.column + 1⟩

/-- **Walk**: the position of a byte offset in a text that begins at `p`. An offset past the end counts
    as the end, and one inside a character as the first column of its line. -/
def walk (p : LineCol) : List Char → Nat → LineCol
  | _, 0 => p
  | [], _ + 1 => p
  | c :: cs, n + 1 =>
    if n + 1 < c.utf8Size then ⟨p.line, 1⟩ else (p.past c).walk cs (n + 1 - c.utf8Size)

section

variable {p : LineCol} {cs ds : List Char} {n : Nat}

@[simp] theorem walk_zero (p : LineCol) (cs : List Char) : p.walk cs 0 = p := by
  unfold walk
  rfl

@[simp] theorem walk_nil (p : LineCol) (n : Nat) : p.walk [] n = p := by
  cases n <;> rfl

/-- Inside a character. -/
theorem walk_cons_of_lt {c : Char} (hpos : 0 < n) (h : n < c.utf8Size) :
    p.walk (c :: cs) n = ⟨p.line, 1⟩ := by
  obtain ⟨m, rfl⟩ := Nat.exists_eq_add_of_lt hpos
  rw [Nat.zero_add] at h
  simp [walk, h]

/-- Behind a character. -/
theorem walk_cons_add (p : LineCol) (c : Char) (cs : List Char) (n : Nat) :
    p.walk (c :: cs) (c.utf8Size + n) = (p.past c).walk cs n := by
  have hpos := c.utf8Size_pos
  obtain ⟨m, hm⟩ : ∃ m, c.utf8Size + n = m + 1 := ⟨c.utf8Size + n - 1, by omega⟩
  have hrest : m + 1 - c.utf8Size = n := by omega
  rw [hm, walk, if_neg (by omega), hrest]

/-- The walk over a first part goes on behind it. -/
theorem walk_append_add (p : LineCol) (cs ds : List Char) (n : Nat) :
    p.walk (cs ++ ds) (byteLength cs + n) = (cs.foldl past p).walk ds n := by
  induction cs generalizing p with
  | nil => simp
  | cons c cs ih =>
    rw [List.cons_append, byteLength_cons, Nat.add_assoc, walk_cons_add, ih, List.foldl_cons]

/-- No later part has a bearing on the walk inside the first one. -/
theorem walk_append_of_le (h : n ≤ byteLength cs) (ds : List Char) :
    p.walk (cs ++ ds) n = p.walk cs n := by
  induction cs generalizing p n with
  | nil =>
    obtain rfl : n = 0 := by simpa using h
    simp
  | cons c cs ih =>
    rw [List.cons_append]
    by_cases hlt : n < c.utf8Size
    · rcases Nat.eq_zero_or_pos n with rfl | hpos
      · simp
      · rw [walk_cons_of_lt hpos hlt, walk_cons_of_lt hpos hlt]
    · obtain ⟨m, rfl⟩ := Nat.exists_eq_add_of_le (Nat.not_lt.mp hlt)
      rw [walk_cons_add, walk_cons_add, ih (by rw [byteLength_cons] at h; omega)]

/-- The end of a text is not passed. -/
theorem walk_min (p : LineCol) (cs : List Char) (n : Nat) :
    p.walk cs (min n (byteLength cs)) = p.walk cs n := by
  rcases Nat.le_total n (byteLength cs) with h | h
  · rw [Nat.min_eq_left h]
  · obtain ⟨m, rfl⟩ := Nat.exists_eq_add_of_le h
    have hend := walk_append_add p cs [] 0
    have hpast := walk_append_add p cs [] m
    rw [List.append_nil, walk_nil] at hend hpast
    rw [Nat.min_eq_right h, hpast, ← hend, Nat.add_zero]

/-- On one line, a walk counts characters. -/
theorem walk_of_line (h : '\n' ∉ cs) (hn : n ≤ byteLength cs) :
    p.walk cs n = ⟨p.line, ((charsWithin? n cs).map (p.column + ·)).getD 1⟩ := by
  induction cs generalizing p n with
  | nil =>
    obtain rfl : n = 0 := by simpa using hn
    simp [charsWithin?]
  | cons c cs ih =>
    obtain ⟨hc, hcs⟩ := not_or.mp (mt List.mem_cons.mpr h)
    cases n with
    | zero => simp [charsWithin?]
    | succ n =>
      have hpast : p.past c = ⟨p.line, p.column + 1⟩ := if_neg (Ne.symm hc)
      unfold walk charsWithin?
      by_cases hlt : n + 1 < c.utf8Size
      · simp [hlt, Nat.not_le.mpr hlt]
      · rw [byteLength_cons] at hn
        rw [if_neg hlt, if_pos (Nat.not_lt.mp hlt), ih hcs (by omega), hpast]
        simp [Function.comp_def, Nat.add_right_comm, Nat.add_assoc]

/-- Behind a line feed, the walk goes on in the first column of the next line. -/
theorem walk_append_feed (h : '\n' ∉ cs) (n : Nat) :
    p.walk (cs ++ '\n' :: ds) (byteLength cs + (1 + n)) = walk ⟨p.line + 1, 1⟩ ds n := by
  have hline : (cs.foldl past p).line = p.line := by
    induction cs generalizing p with
    | nil => rfl
    | cons c cs ih =>
      obtain ⟨hc, hcs⟩ := not_or.mp (mt List.mem_cons.mpr h)
      rw [List.foldl_cons, ih hcs, past, if_neg (Ne.symm hc)]
  have hfeed : (cs.foldl past p).past '\n' = ⟨p.line + 1, 1⟩ := by
    rw [past, if_pos rfl, hline]
  rw [walk_append_add, ← hfeed]
  exact walk_cons_add _ '\n' ds n

end

end LineCol

/-! ## Lines of a Text -/

/-- A text without line feeds is one line. -/
theorem linesFrom_of_line {cs : List Char} (h : '\n' ∉ cs) (start : Nat) :
    linesFrom start cs = [⟨start, cs⟩] := by
  induction cs generalizing start with
  | nil => rfl
  | cons c cs ih =>
    obtain ⟨hc, hcs⟩ := not_or.mp (mt List.mem_cons.mpr h)
    simp [linesFrom, Ne.symm hc, ih hcs, extendFirst]

/-- The first line of a text with others behind it. -/
theorem linesFrom_append_feed {cs : List Char} (h : '\n' ∉ cs) (start : Nat) (ds : List Char) :
    linesFrom start (cs ++ '\n' :: ds) =
      ⟨start, cs⟩ :: linesFrom (start + (byteLength cs + 1)) ds := by
  induction cs generalizing start with
  | nil => rfl
  | cons c cs ih =>
    obtain ⟨hc, hcs⟩ := not_or.mp (mt List.mem_cons.mpr h)
    simp [linesFrom, Ne.symm hc, ih hcs, extendFirst, Nat.add_assoc]

/-- **By lines**: what holds of one line, and in front of it of a line with a line feed, holds of every
    text. -/
theorem lineInduction {motive : List Char → Prop} (line : ∀ cs, '\n' ∉ cs → motive cs)
    (feed : ∀ first ds, '\n' ∉ first → motive ds → motive (first ++ '\n' :: ds))
    (cs : List Char) : motive cs := by
  induction hn : cs.length using Nat.strongRecOn generalizing cs with
  | ind n ih =>
    by_cases h : '\n' ∈ cs
    · obtain ⟨first, ds, rfl, hfirst⟩ := List.eq_append_cons_of_mem h
      refine feed first ds hfirst (ih ds.length ?_ ds rfl)
      rw [← hn, List.length_append, List.length_cons]
      omega
    · exact line cs h

theorem start_le_of_mem_linesFrom {start : Nat} {cs : List Char} {l : Line}
    (h : l ∈ linesFrom start cs) : start ≤ l.start := by
  induction cs using lineInduction generalizing start with
  | line cs hline =>
    rw [linesFrom_of_line hline, List.mem_singleton] at h
    exact Nat.le_of_eq (congrArg Line.start h).symm
  | feed first ds hfirst ih =>
    rw [linesFrom_append_feed hfirst] at h
    rcases List.mem_cons.mp h with rfl | h
    · exact Nat.le_refl start
    · exact Nat.le_trans (Nat.le_add_right _ _) (ih h)

/-! ## Look-Ups -/

/-- The lines that are begun at an offset inside a text: the last of them holds the offset, and a walk
    counts as many lines and the same characters. -/
theorem begun_linesFrom (start line : Nat) {cs : List Char} {n : Nat} (hn : n ≤ byteLength cs) :
    ∃ last, ((linesFrom start cs).takeWhile (·.start ≤ start + n)).getLast? = some last ∧
      LineCol.walk ⟨line + 1, 1⟩ cs n =
        ⟨line + ((linesFrom start cs).takeWhile (·.start ≤ start + n)).length,
          (charsWithin? (start + n - last.start) last.text).getD 0 + 1⟩ := by
  have hcolumn : ∀ found : Option Nat, (found.map (1 + ·)).getD 1 = found.getD 0 + 1 := by
    rintro (_ | k) <;> simp [Nat.add_comm]
  induction cs using lineInduction generalizing start line n with
  | line cs hline =>
    refine ⟨⟨start, cs⟩, by simp [linesFrom_of_line hline], ?_⟩
    rw [LineCol.walk_of_line hline hn, linesFrom_of_line hline]
    simp [hcolumn]
  | feed first ds hfirst ih =>
    rw [linesFrom_append_feed hfirst, List.takeWhile_cons_of_pos (by simp)]
    by_cases hle : n ≤ byteLength first
    · -- no other line is begun on the first one
      have hnone : (linesFrom (start + (byteLength first + 1)) ds).takeWhile
          (·.start ≤ start + n) = [] := by
        refine List.eq_nil_iff_forall_not_mem.mpr fun l hl => ?_
        have hstart := start_le_of_mem_linesFrom ((List.takeWhile_sublist _).subset hl)
        have hbegun : l.start ≤ start + n := by simpa using List.mem_takeWhile_imp hl
        omega
      refine ⟨⟨start, first⟩, by simp [hnone], ?_⟩
      rw [LineCol.walk_append_of_le hle, LineCol.walk_of_line hfirst hle, hnone]
      simp [hcolumn]
    · obtain ⟨m, rfl⟩ : ∃ m, n = byteLength first + (1 + m) :=
        ⟨n - (byteLength first + 1), by omega⟩
      have hm : m ≤ byteLength ds := by
        have hfeed : ('\n' : Char).utf8Size = 1 := by decide
        rw [byteLength_append, byteLength_cons, hfeed] at hn
        omega
      obtain ⟨last, hlast, hwalk⟩ :=
        ih (start + (byteLength first + 1)) (line + 1) hm
      have hoffset : start + (byteLength first + 1) + m = start + (byteLength first + (1 + m)) := by
        omega
      rw [hoffset] at hlast hwalk
      refine ⟨last, ?_, ?_⟩
      · rw [List.getLast?_cons, hlast, Option.getD_some]
      · rw [LineCol.walk_append_feed hfirst, hwalk, List.length_cons]
        simp only [Nat.add_assoc, Nat.add_comm 1]

/-- **Look-up**: the table of a text gives the positions of a walk over it. -/
theorem position_ofText (cs : List Char) (offset : Nat) :
    (LineTable.ofText cs).position offset = LineCol.walk ⟨1, 1⟩ cs offset := by
  obtain ⟨last, hlast, hwalk⟩ := begun_linesFrom 0 0 (Nat.min_le_right offset (byteLength cs))
  simp only [Nat.zero_add, LineCol.walk_min] at hlast hwalk
  have hgetLastD : ((LineTable.ofText cs).begun (min offset (byteLength cs))).getLastD ⟨0, []⟩ =
      last := by
    rw [List.getLastD_eq_getLast?]
    exact congrArg (·.getD ⟨0, []⟩) hlast
  rw [hwalk, ← hgetLastD]
  rfl

/-! ## Blanks -/

/-- A space in the place of any character but a line feed. -/
def blank (c : Char) : Char :=
  if c = '\n' then c else ' '

/-- **Blanks**: every character but the line feeds is replaced by a space. -/
def blanked (cs : List Char) : List Char := cs.map blank

/-- The byte offset in a text that begins with `cs` of what lies at `n` behind `blanked cs`, or in
    it. -/
def unblankedOffset : (cs : List Char) → (n : Nat) → Nat
  | [], n => n
  | _ :: _, 0 => 0
  | c :: cs, n + 1 => c.utf8Size + unblankedOffset cs n

section

variable {cs ds : List Char} {n : Nat}

theorem utf8Size_blank (c : Char) : (blank c).utf8Size = 1 := by
  unfold blank
  split
  · subst c
    decide
  · decide

theorem byteLength_blanked (cs : List Char) : byteLength (blanked cs) = cs.length := by
  induction cs with
  | nil => rfl
  | cons c cs ih =>
    have hcons : blanked (c :: cs) = blank c :: blanked cs := rfl
    rw [hcons, byteLength_cons, utf8Size_blank, ih, List.length_cons, Nat.add_comm]

/-- Behind the characters that are replaced. -/
theorem unblankedOffset_add (cs : List Char) (n : Nat) :
    unblankedOffset cs (cs.length + n) = byteLength cs + n := by
  induction cs with
  | nil => rfl
  | cons c cs ih =>
    rw [List.length_cons, Nat.add_right_comm, unblankedOffset, ih, byteLength_cons, Nat.add_assoc]

theorem LineCol.past_blank (p : LineCol) (c : Char) : p.past (blank c) = p.past c := by
  by_cases h : c = '\n' <;> simp [LineCol.past, blank, h]

/-- A walk over blanks comes to the same positions. -/
theorem LineCol.walk_blanked (p : LineCol) (cs ds : List Char) (n : Nat) :
    p.walk (blanked cs ++ ds) n = p.walk (cs ++ ds) (unblankedOffset cs n) := by
  induction cs generalizing p n with
  | nil => rfl
  | cons c cs ih =>
    cases n with
    | zero => rw [unblankedOffset, walk_zero, walk_zero]
    | succ n =>
      have hstep := p.walk_cons_add (blank c) (blanked cs ++ ds) n
      rw [utf8Size_blank, past_blank, ih, Nat.add_comm] at hstep
      rw [unblankedOffset, List.cons_append, walk_cons_add]
      exact hstep

end

/-- The byte offset in `front ++ cs ++ back` of what lies at `offset` in
    `front ++ blanked cs ++ back`. -/
def restoredOffset (front cs : List Char) (offset : Nat) : Nat :=
  if offset ≤ byteLength front then offset
  else byteLength front + unblankedOffset cs (offset - byteLength front)

theorem restoredOffset_of_le {front : List Char} {offset : Nat} (h : offset ≤ byteLength front)
    (cs : List Char) : restoredOffset front cs offset = offset :=
  if_pos h

/-- What stands behind the blanks stands behind what they replace. -/
theorem restoredOffset_behind {cs : List Char} (hne : cs ≠ []) (front : List Char) (n : Nat) :
    restoredOffset front cs (byteLength front + cs.length + n) =
      byteLength front + byteLength cs + n := by
  have hpos := List.length_pos_iff.mpr hne
  rw [restoredOffset, if_neg (by omega), Nat.add_assoc, Nat.add_sub_cancel_left, unblankedOffset_add,
    Nat.add_assoc]

/-- **Blanks move nothing**: in a text with some characters replaced by blanks, everything stands on its
    line and in its column. -/
theorem position_blanked (front cs back : List Char) (offset : Nat) :
    (LineTable.ofText (front ++ (cs ++ back))).position (restoredOffset front cs offset) =
      (LineTable.ofText (front ++ (blanked cs ++ back))).position offset := by
  rw [position_ofText, position_ofText]
  unfold restoredOffset
  split
  · rename_i hle
    rw [LineCol.walk_append_of_le hle, LineCol.walk_append_of_le hle]
  · rename_i hlt
    obtain ⟨n, rfl⟩ := Nat.exists_eq_add_of_le (Nat.le_of_not_le hlt)
    rw [Nat.add_sub_cancel_left, LineCol.walk_append_add, LineCol.walk_append_add,
      LineCol.walk_blanked]

end SchemaModel
