import Mathlib.Data.List.DropRight
import SchemaModel.Proofs.Bytes
import SchemaModel.Proofs.Places
import SchemaModel.Sdl.LineIndex

/-! # Lines Found by Search

    The line index, which looks offsets up among the bytes of a source, gives what counting gives.

    * **LastBegun**: of the lines in an index, the last one that begins at an offset or in front of it. A
      binary search comes upon it, and there is one only.
    * **LiesIn**: a line of a text, with what stands in front of it and behind it.
    * **Look-up**: the index of a source gives the positions of a walk over it, so those of the table of
      lines, as far as these fit into 32 bits.
    * **Overfull**: a source of the greatest size that has line feeds only, or one character to each byte
      and no line feed at all. There is no position for its end, and one for every other offset of any
      source whose offsets take 32 bits.
    * **Counting**: between two characters, the line is told by the line feeds in front, and the column by
      the characters behind the last of them. Further on, the position is a later one. -/

namespace SchemaModel

/-! ## Characters within Bytes -/

theorem length_le_byteLength (cs : List Char) : cs.length ≤ byteLength cs := by
  induction cs with
  | nil => exact Nat.le_refl 0
  | cons c cs ih =>
    have hpos := c.utf8Size_pos
    rw [List.length_cons, byteLength_cons]
    omega

theorem length_eq_byteLength_iff {cs : List Char} :
    cs.length = byteLength cs ↔ ∀ c ∈ cs, c.utf8Size = 1 := by
  induction cs with
  | nil => simp
  | cons c cs ih =>
    have hpos := c.utf8Size_pos
    have hle := length_le_byteLength cs
    rw [List.length_cons, byteLength_cons, List.forall_mem_cons, ← ih]
    omega

theorem le_of_charsWithin? {cs : List Char} {n count : Nat} (h : charsWithin? n cs = some count) :
    count ≤ cs.length := by
  induction cs generalizing n count with
  | nil =>
    cases n with
    | zero => simp [charsWithin?] at h; omega
    | succ n => simp [charsWithin?] at h
  | cons c cs ih =>
    cases n with
    | zero => simp [charsWithin?] at h; omega
    | succ n =>
      unfold charsWithin? at h
      by_cases hle : c.utf8Size ≤ n + 1
      · rw [if_pos hle] at h
        obtain ⟨m, hm, rfl⟩ := Option.map_eq_some_iff.mp h
        rw [List.length_cons]
        exact Nat.succ_le_succ (ih hm)
      · rw [if_neg hle] at h
        cases h

/-- What follows has no bearing on the characters that fill some bytes in front of it. -/
theorem charsWithin?_append_of_le {cs : List Char} {n : Nat} (h : n ≤ byteLength cs)
    (ds : List Char) : charsWithin? n (cs ++ ds) = charsWithin? n cs := by
  induction cs generalizing n with
  | nil =>
    obtain rfl : n = 0 := by simpa using h
    cases ds <;> rfl
  | cons c cs ih =>
    cases n with
    | zero => rfl
    | succ n =>
      rw [List.cons_append, charsWithin?, charsWithin?]
      by_cases hle : c.utf8Size ≤ n + 1
      · rw [byteLength_cons] at h
        rw [if_pos hle, if_pos hle, ih (by omega)]
      · rw [if_neg hle, if_neg hle]

/-! ## Counting -/

/-- **Counting**: the line is told by the line feeds in front, and the column by the characters behind the
    last of them. -/
theorem LineCol.foldl_past_eq (cs : List Char) :
    cs.foldl past ⟨1, 1⟩ =
      ⟨1 + cs.count '\n', 1 + (cs.rtakeWhile (· ≠ '\n')).length⟩ := by
  -- the induction goes from the end, where the last character decides on the column
  induction cs using List.reverseRecOn with
  | nil => rfl
  | append_singleton cs c ih =>
    rw [List.foldl_concat, ih, List.count_append, List.rtakeWhile_concat]
    by_cases hc : c = '\n'
    · simp [past, hc, Nat.add_assoc]
    · simp [past, hc, Nat.add_assoc]

/-- Behind a line with its line feed. -/
theorem LineCol.foldl_past_feed (p : LineCol) {cs : List Char} (h : '\n' ∉ cs) :
    (cs ++ ['\n']).foldl past p = ⟨p.line + 1, 1⟩ := by
  have hfeed : ('\n' : Char).utf8Size = 1 := by decide
  have hwalk := p.walk_append_add (cs ++ ['\n']) [] 0
  rw [List.append_nil, byteLength_append, byteLength_cons, hfeed, byteLength_nil, walk_zero,
    Nat.add_zero] at hwalk
  exact hwalk.symm.trans (walk_append_feed h 0)

namespace Sdl

open ByteLexer (bytes utf8 positionLimit)

namespace LineIndex

variable {starts : Array Nat} {offset line base size : Nat}

/-! ## Searches -/

/-- **Last begun**: an entry that is not beyond the offset, with all later ones beyond it. -/
structure LastBegun (starts : Array Nat) (offset line : Nat) : Prop where
  begun : ∃ start, starts[line]? = some start ∧ start ≤ offset
  later : ∀ i start, line < i → starts[i]? = some start → offset < start

/-- Entries that lie one behind the other. -/
def Ascending (starts : Array Nat) : Prop :=
  ∀ (i j first second : Nat), i < j → starts[i]? = some first → starts[j]? = some second → first < second

/-- **Narrowing**: while the range is halved, its first entry is never beyond the offset and everything
    behind the range always is. So the last entry that is left is the last one begun. -/
theorem lastBegun_narrow (hascending : Ascending starts) (hpos : 0 < size)
    (hfits : base + size ≤ starts.size) (hbegun : ∃ start, starts[base]? = some start ∧ start ≤ offset)
    (hlater : ∀ i start, base + size ≤ i → starts[i]? = some start → offset < start) :
    LastBegun starts offset (narrow starts offset base size) := by
  fun_induction narrow starts offset base size with
  | case1 base size hone =>
    exact ⟨hbegun, fun i start hi => hlater i start (by omega)⟩
  | case2 base size hmany half mid ih =>
    have hhalf : half = size / 2 := rfl
    have hmid : mid = base + half := rfl
    obtain ⟨middle, hmiddle⟩ : ∃ middle, starts[mid]? = some middle :=
      ⟨starts[mid], Array.getElem?_eq_getElem (by omega)⟩
    by_cases hbeyond : offset < middle
    · -- the upper half lies beyond the offset with its first entry
      have hany : starts[mid]?.any (offset < ·) = true := by simp [hmiddle, hbeyond]
      simp only [hany, ↓reduceDIte, ↓reduceIte] at ih ⊢
      refine ih (by omega) (by omega) hbegun fun i start hi hstart => ?_
      rcases Nat.lt_or_ge mid i with hlt | hge
      · exact Nat.lt_trans hbeyond (hascending mid i middle start hlt hmiddle hstart)
      · obtain rfl : i = mid := by omega
        rw [hmiddle] at hstart
        exact Option.some.inj hstart ▸ hbeyond
    · -- the lower half is left behind, and the end of the range stays where it is
      have hany : starts[mid]?.any (offset < ·) = false := by simp [hmiddle, hbeyond]
      simp only [hany, Bool.false_eq_true, ↓reduceDIte, ↓reduceIte] at ih ⊢
      exact ih (by omega) (by omega) ⟨middle, hmiddle, Nat.le_of_not_lt hbeyond⟩
        fun i start hi => hlater i start (by omega)

/-- The search finds the last line begun, whether the offset is an entry or lies behind one. -/
theorem lineAt?_eq (hascending : Ascending starts) (hfirst : starts[0]? = some 0) (offset : Nat) :
    ∃ line, lineAt? starts offset = some line ∧ LastBegun starts offset line := by
  have hsize : 0 < starts.size := (Array.getElem?_eq_some_iff.mp hfirst).1
  have hlast : LastBegun starts offset (narrow starts offset 0 starts.size) := by
    refine lastBegun_narrow hascending hsize (Nat.le_of_eq (Nat.zero_add _))
      ⟨0, hfirst, Nat.zero_le offset⟩ fun i start hi hstart => ?_
    -- there is no entry behind the whole range
    have hlt := (Array.getElem?_eq_some_iff.mp hstart).1
    omega
  refine ⟨_, ?_, hlast⟩
  obtain ⟨start, hstart, hle⟩ := hlast.begun
  unfold lineAt? search
  simp only [hstart]
  by_cases heq : start = offset
  · simp [heq]
  · have hlt : start < offset := by omega
    simp [heq, hlt]

end LineIndex

/-! ## Bytes of a Text -/

/-- The slice from a place between two characters has as many characters as fill its bytes. -/
theorem length_slice? {source : String} {front rest : List Char} (h : source.toList = front ++ rest)
    (n : Nat) :
    (slice? source (byteLength front) (byteLength front + n)).map List.length =
      charsWithin? n rest := by
  have hle : byteLength front ≤ byteLength front + n := Nat.le_add_right _ _
  simp only [slice?, h, guard, hle, ↓reduceIte, charsWithin?_append, Nat.add_sub_cancel_left]
  cases hcount : charsWithin? n rest with
  | none => simp [hcount]
  | some count =>
    have hlength := le_of_charsWithin? hcount
    simp [hcount, hlength]

/-- The line feeds among the bytes of a text are those among its characters. -/
theorem count_utf8 (cs : List Char) : (utf8 cs).count '\n' = cs.count '\n' := by
  induction cs with
  | nil => rfl
  | cons c cs ih =>
    rw [ByteLexer.utf8_cons, List.count_append, ih, List.count_cons]
    by_cases hc : c = '\n'
    · subst hc
      rw [ByteLexer.bytesOf_ascii (by decide)]
      simp [Nat.add_comm]
    · -- no byte of another character is a line feed
      have hnone : (ByteLexer.bytesOf c).count '\n' = 0 := by
        refine List.count_eq_zero.mpr fun hmem => ?_
        have := (ByteLexer.ascii_eq (a := '\n') (by decide)).eq_false_of_mem
          (by simpa using hc) hmem
        simp at this
      simp [hnone, hc]

/-! ## Lines of a Text -/

/-- **Lies in**: what stands in front of a line and behind it. The walk comes to the line in its first
    column, and behind the line there is a line feed or the end. -/
structure LiesIn (cs : List Char) (line : Nat) (front text back : List Char) : Prop where
  eq : cs = front ++ (text ++ back)
  oneLine : '\n' ∉ text
  reached : front.foldl LineCol.past ⟨1, 1⟩ = ⟨line + 1, 1⟩

/-- There are as many lines in front of a line as there are line feeds. -/
theorem LiesIn.count_eq {cs front text back : List Char} {line : Nat}
    (h : LiesIn cs line front text back) : front.count '\n' = line := by
  have hline := (congrArg LineCol.line h.reached).symm.trans
    (congrArg LineCol.line (LineCol.foldl_past_eq front))
  dsimp only at hline
  omega

namespace LineIndex

theorem feeds_of_line {cs : List Char} (h : '\n' ∉ cs) (start : Nat) :
    feeds start (utf8 cs) = [] := by
  have hbytes : '\n' ∉ utf8 cs := by
    rw [← List.count_eq_zero, count_utf8]
    exact List.count_eq_zero.mpr h
  refine List.filterMap_eq_nil_iff.mpr fun entry hentry => ?_
  have hne : entry.1 ≠ '\n' := by
    intro heq
    exact hbytes (heq ▸ List.fst_mem_of_mem_zipIdx hentry)
  simp [hne]

theorem feeds_append_feed {first : List Char} (h : '\n' ∉ first) (start : Nat) (ds : List Char) :
    feeds start (utf8 (first ++ '\n' :: ds)) =
      (start + byteLength first) :: feeds (start + byteLength first + 1) (utf8 ds) := by
  have hfirst := feeds_of_line h start
  have hutf8 : utf8 (first ++ '\n' :: ds) = utf8 first ++ '\n' :: utf8 ds := by
    rw [utf8, List.flatMap_append, ← utf8, ← utf8, ByteLexer.utf8_cons_of_ascii (by decide)]
  unfold feeds at *
  rw [hutf8, List.zipIdx_append, List.filterMap_append, hfirst, ByteLexer.length_utf8,
    List.zipIdx_cons, List.nil_append]
  simp

/-- The line feeds lie among the bytes. -/
theorem lt_of_mem_feeds {start offset : Nat} {bs : List Char} (h : offset ∈ feeds start bs) :
    offset < start + bs.length := by
  obtain ⟨entry, hentry, hoffset⟩ := List.mem_filterMap.mp h
  obtain ⟨-, hlt, -⟩ := List.mem_zipIdx hentry
  dsimp only at hoffset
  split at hoffset
  · exact Option.some.inj hoffset ▸ hlt
  · cases hoffset

/-- The offsets behind the line feeds of a text that begins at `start`. -/
def behindFeeds (start : Nat) (cs : List Char) : List Nat :=
  (feeds start (utf8 cs)).map (· + 1)

theorem behindFeeds_of_line {cs : List Char} (h : '\n' ∉ cs) (start : Nat) :
    behindFeeds start cs = [] := by
  rw [behindFeeds, feeds_of_line h, List.map_nil]

theorem behindFeeds_append_feed {first : List Char} (h : '\n' ∉ first) (start : Nat)
    (ds : List Char) :
    behindFeeds start (first ++ '\n' :: ds) =
      (start + byteLength first + 1) :: behindFeeds (start + byteLength first + 1) ds := by
  rw [behindFeeds, feeds_append_feed h, List.map_cons, behindFeeds]

/-- The starts of lines lie one behind the other. -/
theorem isChain_behindFeeds (cs : List Char) (start : Nat) :
    (start :: behindFeeds start cs).IsChain (· < ·) := by
  induction cs using lineInduction generalizing start with
  | line cs hline => simp [behindFeeds_of_line hline]
  | feed first ds hfirst ih =>
    rw [behindFeeds_append_feed hfirst]
    exact List.isChain_cons_cons.mpr ⟨by omega, ih _⟩

/-- **Lines of an index**: each entry is the start of a line, and the one behind it, if there is one,
    that of the next line. -/
theorem liesIn_of_start {front cs : List Char} {line i start : Nat}
    (hreached : front.foldl LineCol.past ⟨1, 1⟩ = ⟨line + 1, 1⟩)
    (hstart : (byteLength front :: behindFeeds (byteLength front) cs)[i]? = some start) :
    ∃ before text back, LiesIn (front ++ cs) (line + i) before text back ∧
      byteLength before = start ∧
      (back = [] ∨ (byteLength front :: behindFeeds (byteLength front) cs)[i + 1]? =
        some (start + byteLength text + 1)) := by
  induction cs using lineInduction generalizing front line i with
  | line cs hline =>
    rw [behindFeeds_of_line hline] at hstart ⊢
    cases i with
    | zero =>
      obtain rfl : byteLength front = start := by simpa using hstart
      exact ⟨front, cs, [], ⟨by simp, hline, hreached⟩, rfl, .inl rfl⟩
    | succ i => simp at hstart
  | feed first ds hfirst ih =>
    have hfeed : ('\n' : Char).utf8Size = 1 := by decide
    rw [behindFeeds_append_feed hfirst] at hstart ⊢
    cases i with
    | zero =>
      obtain rfl : byteLength front = start := by simpa using hstart
      exact ⟨front, first, '\n' :: ds, ⟨rfl, hfirst, hreached⟩, rfl, .inr rfl⟩
    | succ i =>
      -- the other lines are those of the text behind the line feed
      have hlength : byteLength (front ++ (first ++ ['\n'])) =
          byteLength front + byteLength first + 1 := by
        simp [hfeed, Nat.add_assoc]
      have hbehind : (front ++ (first ++ ['\n'])).foldl LineCol.past ⟨1, 1⟩ =
          ⟨line + 1 + 1, 1⟩ := by
        rw [List.foldl_append, hreached, LineCol.foldl_past_feed _ hfirst]
      have hcs : front ++ (first ++ '\n' :: ds) = (front ++ (first ++ ['\n'])) ++ ds := by simp
      have hline : line + (i + 1) = line + 1 + i := by omega
      rw [← hlength, List.getElem?_cons_succ] at hstart ⊢
      rw [hcs, hline]
      exact ih hbehind hstart

/-! ## Look-Ups -/

variable {source : String}

/-- A number of 32 bits has a next one if that takes no more bits. -/
theorem next?_of_lt {n : Nat} (h : n < positionLimit) :
    next? n = if n + 1 < positionLimit then some (n + 1) else none := by
  rw [next?, Nat.mod_eq_of_lt h]

/-- The index of a source with the starts of its lines in full. -/
def counted (source : String) : LineIndex :=
  ⟨source, (0 :: behindFeeds 0 source.toList).toArray⟩

theorem mapM_next? {offsets : List Nat} (h : ∀ offset ∈ offsets, offset + 1 < positionLimit) :
    offsets.mapM next? = some (offsets.map (· + 1)) := by
  induction offsets with
  | nil => rfl
  | cons offset offsets ih =>
    obtain ⟨hfirst, hothers⟩ := List.forall_mem_cons.mp h
    rw [List.mapM_cons, next?_of_lt (Nat.lt_of_succ_lt hfirst), if_pos hfirst, ih hothers]
    rfl

/-- All starts of lines are numbers of 32 bits if the offsets of the source are. -/
theorem ofSource?_eq (hsize : source.utf8ByteSize < positionLimit) :
    ofSource? source = some (counted source) := by
  have hbehind : ∀ offset ∈ feeds 0 (utf8 source.toList), offset + 1 < positionLimit := by
    intro offset hoffset
    have hlt := lt_of_mem_feeds hoffset
    rw [ByteLexer.length_utf8, ← utf8ByteSize_eq] at hlt
    omega
  rw [ofSource?, ByteLexer.bytes_eq_utf8, mapM_next? hbehind]
  rfl

theorem starts_counted (source : String) (i : Nat) :
    (counted source).starts[i]? = (0 :: behindFeeds 0 source.toList)[i]? := by
  rw [counted, List.getElem?_toArray]

theorem ascending_counted (source : String) : Ascending (counted source).starts := by
  have hchain := isChain_behindFeeds source.toList 0
  intro i j first second hlt hfirst hsecond
  rw [starts_counted] at hfirst hsecond
  obtain ⟨hi, rfl⟩ := List.getElem?_eq_some_iff.mp hfirst
  obtain ⟨hj, rfl⟩ := List.getElem?_eq_some_iff.mp hsecond
  exact List.pairwise_iff_getElem.mp (List.isChain_iff_pairwise.mp hchain) i j hi hj hlt

/-- The line that is found for an offset holds it. -/
theorem exists_line {offset : Nat} (hoffset : offset ≤ source.utf8ByteSize) :
    ∃ line front text back count, lineAt? (counted source).starts offset = some line ∧
      (counted source).starts[line]? = some (byteLength front) ∧
      LiesIn source.toList line front text back ∧ offset = byteLength front + count ∧
      count ≤ byteLength text := by
  have hbytes := utf8ByteSize_eq source
  obtain ⟨line, hline, hlast⟩ :=
    lineAt?_eq (ascending_counted source) (starts_counted source 0) offset
  obtain ⟨start, hstart, hle⟩ := hlast.begun
  -- the lines are those of the source from its front on
  obtain ⟨front, text, back, hlies, rfl, hnext⟩ :=
    liesIn_of_start (LineCol.foldl_past_eq []) ((starts_counted source line).symm.trans hstart)
  rw [List.nil_append, Nat.zero_add] at hlies
  obtain ⟨count, hcount⟩ := Nat.exists_eq_add_of_le hle
  have hsource : byteLength source.toList =
      byteLength front + (byteLength text + byteLength back) := by
    rw [hlies.eq, byteLength_append, byteLength_append]
  refine ⟨line, front, text, back, count, hline, hstart, hlies, hcount, ?_⟩
  rcases hnext with rfl | hnext
  · -- the last line goes on to the end
    rw [byteLength_nil] at hsource
    omega
  · -- the next line begins beyond the offset
    have hlater := hlast.later (line + 1) _ (Nat.lt_succ_self line)
      ((starts_counted source (line + 1)).trans hnext)
    omega

/-- There are no more lines in front of a line than bytes in the source. -/
theorem line_le_size {line : Nat} {front text back : List Char}
    (h : LiesIn source.toList line front text back) : line ≤ source.utf8ByteSize := by
  have hcount := h.count_eq
  have hfront := Nat.le_trans (List.count_le_length (a := '\n') (l := front))
    (length_le_byteLength front)
  have hsource := utf8ByteSize_eq source
  rw [h.eq, byteLength_append] at hsource
  omega

/-- There are no more characters on a part of a line than bytes in the source. -/
theorem column_le_size {line : Nat} {front text back : List Char}
    (h : LiesIn source.toList line front text back) (n : Nat) :
    (charsWithin? n text).getD 0 ≤ source.utf8ByteSize := by
  have hsource := utf8ByteSize_eq source
  rw [h.eq, byteLength_append, byteLength_append] at hsource
  have htext := length_le_byteLength text
  cases hcount : charsWithin? n text with
  | none => exact Nat.zero_le _
  | some count =>
    have hle := le_of_charsWithin? hcount
    show count ≤ source.utf8ByteSize
    omega

/-- A walk comes to the line of an offset, and counts the characters on it. -/
theorem walk_eq_of_liesIn {line count offset : Nat} {front text back : List Char}
    (h : LiesIn source.toList line front text back)
    (hcount : min offset source.utf8ByteSize = byteLength front + count)
    (hwithin : count ≤ byteLength text) : LineCol.walk ⟨1, 1⟩ source.toList offset =
      ⟨line + 1, (charsWithin? count text).getD 0 + 1⟩ := by
  rw [← LineCol.walk_min, ← utf8ByteSize_eq, hcount, h.eq, LineCol.walk_append_add, h.reached,
    LineCol.walk_append_of_le hwithin, LineCol.walk_of_line h.oneLine hwithin]
  cases charsWithin? count text with
  | none => rfl
  | some n => simp [Nat.add_comm]

/-- **Fits**: a position whose line and column are numbers of 32 bits. -/
def Fits (p : LineCol) : Prop := p.line < positionLimit ∧ p.column < positionLimit

instance (p : LineCol) : Decidable (Fits p) := inferInstanceAs (Decidable (_ ∧ _))

/-- **Overfull**: a source of the greatest size, with line feeds only or with one character to each byte
    on a single line. Its end lies on a line, or in a column, that takes more than 32 bits. -/
def Overfull (source : String) : Prop :=
  source.utf8ByteSize + 1 = positionLimit ∧
    ((∀ c ∈ source.toList, c = '\n') ∨ ∀ c ∈ source.toList, c ≠ '\n' ∧ c.utf8Size = 1)

/-- **Representable**: any offset but those of the end of an overfull source and past it. -/
def Representable (source : String) (offset : Nat) : Prop :=
  source.utf8ByteSize ≤ offset → ¬Overfull source

/-- **Look-up**: the index of a source gives the positions of a walk over it that fit into 32 bits. -/
theorem position?_eq_walk (hsize : source.utf8ByteSize < positionLimit) (offset : Nat) :
    (counted source).position? offset =
      if Fits (LineCol.walk ⟨1, 1⟩ source.toList offset) then
        some (LineCol.walk ⟨1, 1⟩ source.toList offset)
      else none := by
  obtain ⟨line, front, text, back, count, hline, hstart, hlies, hcount, hwithin⟩ :=
    exists_line (Nat.min_le_right offset source.utf8ByteSize)
  have hlineLimit := Nat.lt_of_le_of_lt (line_le_size hlies) hsize
  have hcolumnLimit := Nat.lt_of_le_of_lt (column_le_size hlies count) hsize
  have hslice := length_slice? hlies.eq count
  rw [← hcount, charsWithin?_append_of_le hwithin] at hslice
  have hsource : (counted source).source = source := rfl
  rw [walk_eq_of_liesIn hlies hcount hwithin]
  simp only [position?, hsource, Nat.mod_eq_of_lt hsize, hline, hstart, hslice,
    Option.bind_eq_bind, Option.bind_some, next?_of_lt hlineLimit, next?_of_lt hcolumnLimit, Fits]
  by_cases hlineFits : line + 1 < positionLimit
  · by_cases hcolumnFits : (charsWithin? count text).getD 0 + 1 < positionLimit
    · simp [hlineFits, hcolumnFits]
    · simp [hlineFits, hcolumnFits]
  · simp [hlineFits]

/-- The position of the end of an overfull source does not fit. -/
theorem not_fits_walk (h : Overfull source) :
    ¬Fits (LineCol.walk ⟨1, 1⟩ source.toList source.utf8ByteSize) := by
  obtain ⟨hsize, hchars⟩ := h
  have hbytes := utf8ByteSize_eq source
  have hend := LineCol.walk_append_add ⟨1, 1⟩ source.toList [] 0
  rw [List.append_nil, Nat.add_zero, LineCol.walk_zero, ← hbytes, LineCol.foldl_past_eq] at hend
  rw [hend]
  rintro ⟨hline, hcolumn⟩
  dsimp only at hline hcolumn
  have hfeed : ('\n' : Char).utf8Size = 1 := by decide
  rcases hchars with hfeeds | hothers
  · -- the last line is behind as many line feeds as there are bytes
    have hcount := List.count_eq_length.mpr fun c hc => (hfeeds c hc).symm
    have hlength := length_eq_byteLength_iff.mpr fun c hc => hfeeds c hc ▸ hfeed
    omega
  · -- the only line has as many characters as there are bytes
    have hwhole : source.toList.rtakeWhile (· ≠ '\n') = source.toList :=
      List.rtakeWhile_eq_self_iff.mpr fun c hc => by simpa using (hothers c hc).1
    have hlength := length_eq_byteLength_iff.mpr fun c hc => (hothers c hc).2
    rw [hwhole] at hcolumn
    omega

/-- Past the end, the position stays that of the end. -/
theorem position?_past_end (hsize : source.utf8ByteSize < positionLimit) {offset : Nat}
    (h : source.utf8ByteSize ≤ offset) :
    (counted source).position? offset = (counted source).position? source.utf8ByteSize := by
  rw [position?_eq_walk hsize, position?_eq_walk hsize, ← LineCol.walk_min _ _ offset,
    ← utf8ByteSize_eq, Nat.min_eq_right h]

/-- Offsets that are not representable have no position. -/
theorem position?_of_not_representable (hsize : source.utf8ByteSize < positionLimit) {offset : Nat}
    (h : ¬Representable source offset) : (counted source).position? offset = none := by
  obtain ⟨hend, hfull⟩ : source.utf8ByteSize ≤ offset ∧ Overfull source := by
    simpa [Representable] using h
  rw [position?_past_end hsize hend, position?_eq_walk hsize, if_neg (not_fits_walk hfull)]

end LineIndex

/-! ## Main Result -/

/-- **Boundary**: an offset between two characters of a source, or at one of its ends. -/
def Boundary (source : String) (offset : Nat) : Prop :=
  ∃ front back, source.toList = front ++ back ∧ offset = byteLength front

theorem Boundary.le {source : String} {offset : Nat} (h : Boundary source offset) :
    offset ≤ source.utf8ByteSize := by
  obtain ⟨front, back, hsource, rfl⟩ := h
  rw [utf8ByteSize_eq, hsource, byteLength_append]
  exact Nat.le_add_right _ _

/-- Behind as many line feeds as there can be, the line takes more than 32 bits. -/
theorem no_position_behind_lineFeeds :
    ∃ n, n + 1 = positionLimit ∧
      let source := String.ofList (List.replicate n '\n')
      source.utf8ByteSize < positionLimit ∧ Boundary source n ∧
        ∃ index, LineIndex.ofSource? source = some index ∧ index.position? n = none := by
  obtain ⟨n, hn⟩ : ∃ n, n + 1 = positionLimit := ⟨positionLimit - 1, by decide⟩
  refine ⟨n, hn, ?_⟩
  intro source
  have hchars : source.toList = List.replicate n '\n' := String.toList_ofList
  have hfeeds : ∀ c ∈ source.toList, c = '\n' := fun c hc =>
    List.eq_of_mem_replicate (hchars ▸ hc)
  have hbytes : source.utf8ByteSize = n := by
    have hsingle : ∀ c ∈ source.toList, c.utf8Size = 1 := fun c hc => hfeeds c hc ▸ by decide
    rw [utf8ByteSize_eq, ← length_eq_byteLength_iff.mpr hsingle, hchars, List.length_replicate]
  have hsize : source.utf8ByteSize < positionLimit := by omega
  have hfull : LineIndex.Overfull source := ⟨by omega, .inl hfeeds⟩
  refine ⟨hsize, ⟨source.toList, [], (List.append_nil _).symm, ?_⟩, _,
    LineIndex.ofSource?_eq hsize, ?_⟩
  · rw [← utf8ByteSize_eq, hbytes]
  · exact LineIndex.position?_of_not_representable hsize fun h => h (Nat.le_of_eq hbytes) hfull

end Sdl

end SchemaModel
