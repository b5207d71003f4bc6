import Mathlib.Data.List.Forall2
import Mathlib.Data.List.TakeWhile
import SchemaModel.Sdl.StringLiteral

/-! # The Layout of Block Strings

    What a block string stands for depends on its lines, and not on how they are laid out.

    * **Line ends**: a carriage return, a line feed, or both in this order. The lines of a text stay the
      same when a line feed takes the place of each.
    * **Indentation**: characters put in front of every line behind the first one are common to all of
      these, and taken away again.
    * **Restored quotes**: three quotes stand for each three of them with a backslash in front.
    * **Block values**: the lines between the blank ones at either end, without the indentation that
      they have in common. -/

namespace SchemaModel.Sdl

/-! ## Line Ends -/

/-- Does a line end behind `c` in front of `cs`? A carriage return leaves that to a line feed behind
    it. -/
def endsLine (c : Char) (cs : List Char) : Bool :=
  c = '\n' || (c = '\r' && cs.head? ≠ some '\n')

/-- **Line feeds only**: a carriage return with a line feed behind it gives way to that, and any other one
    is replaced by a line feed. -/
def feedsOnly : List Char → List Char
  | [] => []
  | c :: cs =>
    if endsLine c cs then '\n' :: feedsOnly cs
    else if c = '\r' then feedsOnly cs
    else c :: feedsOnly cs

/-- The lines of a text, whatever ends them. -/
def textLines (cs : List Char) : List (List Char) := (feedsOnly cs).splitOn '\n'

/-- **Indented**: `pad` is put in front of every line but the first. -/
def indentLater (pad : List Char) : List Char → List Char
  | [] => []
  | c :: cs =>
    if endsLine c cs then c :: (pad ++ indentLater pad cs) else c :: indentLater pad cs

section

variable {c : Char} {cs ds pad line : List Char}

theorem endsLine_feed (cs : List Char) : endsLine '\n' cs := by
  simp [endsLine]

theorem endsLine_return : endsLine '\r' cs ↔ cs.head? ≠ some '\n' := by
  simp [endsLine]

theorem endsLine_of_other (hfeed : c ≠ '\n') (hreturn : c ≠ '\r') (cs : List Char) :
    endsLine c cs = false := by
  simp [endsLine, hfeed, hreturn]

/-- Whether a line ends behind a character depends on the next line feed only. -/
theorem endsLine_congr (h : ds.head? = some '\n' ↔ cs.head? = some '\n') (c : Char) :
    endsLine c ds = endsLine c cs := by
  simp only [endsLine, ne_eq, h]

theorem splitLines_nil : splitLines [] = [[]] := rfl

/-- The lines of a text, character by character. -/
theorem splitLines_cons (c : Char) (cs : List Char) : splitLines (c :: cs) =
    if endsLine c cs then [] :: splitLines cs
    else if c = '\r' then splitLines cs
    else (splitLines cs).modifyHead (c :: ·) := by
  by_cases hpair : c = '\r' ∧ cs.head? = some '\n'
  · obtain ⟨rfl, hhead⟩ := hpair
    obtain ⟨ds, rfl⟩ := List.head?_eq_some_iff.mp hhead
    simp [endsLine, splitLines]
  · have hstep : splitLines (c :: cs) = if c = '\n' || c = '\r' then [] :: splitLines cs
        else (splitLines cs).modifyHead (c :: ·) := by
      rw [splitLines]
      rintro ds rfl rfl
      exact hpair ⟨rfl, rfl⟩
    rw [hstep]
    by_cases hfeed : c = '\n'
    · simp [endsLine, hfeed]
    · by_cases hreturn : c = '\r'
      · simp [endsLine, hreturn, not_and.mp hpair hreturn]
      · simp [endsLine, hfeed, hreturn]

/-- The lines of a text are those that line feeds end, when there are no other line ends. -/
theorem splitLines_eq (cs : List Char) : splitLines cs = textLines cs := by
  unfold textLines List.splitOn
  induction cs with
  | nil => rfl
  | cons c cs ih =>
    rw [splitLines_cons, feedsOnly, ih]
    split
    · rw [List.splitOnP_cons_eq_if_modifyHead, if_pos (by simp)]
    · split
      · rfl
      · rename_i hends hreturn
        have hfeed : (c == '\n') = false := by
          refine beq_eq_false_iff_ne.mpr ?_
          rintro rfl
          exact hends (endsLine_feed cs)
        rw [List.splitOnP_cons_eq_if_modifyHead, if_neg (by simp [hfeed])]

theorem return_not_mem_feedsOnly (cs : List Char) : '\r' ∉ feedsOnly cs := by
  induction cs with
  | nil => exact List.not_mem_nil
  | cons c cs ih =>
    rw [feedsOnly]
    split
    · simpa using ih
    · split
      · exact ih
      · rename_i hreturn
        exact not_or.mpr ⟨Ne.symm hreturn, ih⟩ ∘ List.mem_cons.mp

theorem feedsOnly_of_not_mem (h : '\r' ∉ cs) : feedsOnly cs = cs := by
  induction cs with
  | nil => rfl
  | cons c cs ih =>
    obtain ⟨hc, hcs⟩ := not_or.mp (mt List.mem_cons.mpr h)
    rw [feedsOnly, ih hcs]
    by_cases hfeed : c = '\n'
    · simp [endsLine, hfeed]
    · simp [endsLine_of_other hfeed (Ne.symm hc), Ne.symm hc]

/-- Line feeds in the place of the line ends leave the lines as they are. -/
theorem textLines_feedsOnly (cs : List Char) : textLines (feedsOnly cs) = textLines cs := by
  rw [textLines, feedsOnly_of_not_mem (return_not_mem_feedsOnly cs), textLines]

theorem splitLines_ne_nil (cs : List Char) : splitLines cs ≠ [] := by
  rw [splitLines_eq]
  exact List.splitOn_ne_nil _ _

/-- The first line is what the text begins with. -/
theorem prefix_of_splitLines {first : List Char} {others : List (List Char)}
    (h : splitLines cs = first :: others) : first <+: cs := by
  induction cs generalizing first others with
  | nil =>
    obtain ⟨rfl, -⟩ : [] = first ∧ [] = others := by simpa [splitLines_nil] using h
    exact List.nil_prefix
  | cons c cs ih =>
    rw [splitLines_cons] at h
    split at h
    · obtain ⟨rfl, -⟩ := List.cons.inj h
      exact List.nil_prefix
    · rename_i hends
      split at h
      · -- the line ends at the line feed behind the carriage return
        rename_i hreturn
        subst hreturn
        obtain ⟨ds, rfl⟩ := List.head?_eq_some_iff.mp (not_not.mp (mt endsLine_return.mpr hends))
        rw [splitLines_cons, if_pos (endsLine_feed ds)] at h
        obtain ⟨rfl, -⟩ := List.cons.inj h
        exact List.nil_prefix
      · obtain ⟨first', others', hcs⟩ := List.exists_cons_of_ne_nil (splitLines_ne_nil cs)
        rw [hcs] at h
        obtain ⟨rfl, -⟩ := List.cons.inj h
        exact (List.prefix_append_right_inj [c]).mpr (ih hcs)

/-- No line of a text holds a line end. -/
theorem not_mem_of_mem_splitLines (h : line ∈ splitLines cs) : '\n' ∉ line ∧ '\r' ∉ line := by
  induction cs generalizing line with
  | nil =>
    obtain rfl : line = [] := by simpa [splitLines_nil] using h
    simp
  | cons c cs ih =>
    rw [splitLines_cons] at h
    split at h
    · rcases List.mem_cons.mp h with rfl | h
      · simp
      · exact ih h
    · rename_i hends
      split at h
      · exact ih h
      · rename_i hreturn
        obtain ⟨first, others, hcs⟩ := List.exists_cons_of_ne_nil (splitLines_ne_nil cs)
        have hfeed : c ≠ '\n' := by
          rintro rfl
          exact hends (endsLine_feed cs)
        rw [hcs, List.modifyHead_cons] at h
        rw [hcs] at ih
        rcases List.mem_cons.mp h with rfl | h
        · have hfirst := ih List.mem_cons_self
          simpa [Ne.symm hfeed, Ne.symm hreturn] using hfirst
        · exact ih (List.mem_cons_of_mem _ h)

/-- What is put in front of a text stands in front of its first line. -/
theorem splitLines_append (hpad : ∀ c ∈ pad, isIndent c) (cs : List Char) :
    splitLines (pad ++ cs) = (splitLines cs).modifyHead (pad ++ ·) := by
  induction pad with
  | nil =>
    rw [List.nil_append]
    cases splitLines cs <;> rfl
  | cons c pad ih =>
    obtain ⟨hc, hpad⟩ := List.forall_mem_cons.mp hpad
    have hother : c ≠ '\n' ∧ c ≠ '\r' := by
      constructor <;> rintro rfl <;> cases hc
    rw [List.cons_append, splitLines_cons, endsLine_of_other hother.1 hother.2, if_neg (by simp),
      if_neg hother.2, ih hpad]
    simp [Function.comp_def]

theorem endsLine_indentLater (c : Char) (pad cs : List Char) :
    endsLine c (indentLater pad cs) = endsLine c cs := by
  have hhead : (indentLater pad cs).head? = cs.head? := by
    cases cs with
    | nil => rfl
    | cons d ds =>
      rw [indentLater]
      split <;> rfl
  exact endsLine_congr (by rw [hhead]) c

/-- Indentation behind a line end does not make it another one. -/
theorem endsLine_indented (hpad : ∀ c ∈ pad, isIndent c) (h : endsLine c cs) :
    endsLine c (pad ++ indentLater pad cs) := by
  cases pad with
  | nil => rwa [List.nil_append, endsLine_indentLater]
  | cons d pad =>
    by_cases hfeed : c = '\n'
    · rw [hfeed]
      exact endsLine_feed _
    · obtain rfl : c = '\r' := by
        by_contra hreturn
        rw [endsLine_of_other hfeed hreturn] at h
        cases h
      refine endsLine_return.mpr fun hd => ?_
      obtain rfl : d = '\n' := by simpa using hd
      cases hpad _ List.mem_cons_self

/-- Every line but the first is indented. -/
theorem splitLines_indentLater (hpad : ∀ c ∈ pad, isIndent c) {first : List Char}
    {others : List (List Char)} (h : splitLines cs = first :: others) :
    splitLines (indentLater pad cs) = first :: others.map (pad ++ ·) := by
  induction cs generalizing first others with
  | nil =>
    obtain ⟨rfl, rfl⟩ : [] = first ∧ [] = others := by simpa [splitLines_nil] using h
    rfl
  | cons c cs ih =>
    obtain ⟨first', others', hcs⟩ := List.exists_cons_of_ne_nil (splitLines_ne_nil cs)
    rw [splitLines_cons] at h
    rw [indentLater]
    split at h
    · rename_i hends
      obtain ⟨rfl, rfl⟩ := List.cons.inj h
      rw [if_pos hends, splitLines_cons, if_pos (endsLine_indented hpad hends), splitLines_append hpad,
        ih hcs, hcs]
      rfl
    · rename_i hends
      rw [if_neg hends, splitLines_cons, endsLine_indentLater, if_neg hends]
      split at h
      · rename_i hreturn
        rw [if_pos hreturn]
        exact ih h
      · rename_i hreturn
        rw [hcs] at h
        obtain ⟨rfl, rfl⟩ := List.cons.inj h
        rw [if_neg hreturn, ih hcs]
        rfl

/-! ## Quotes -/

/-- The text begins with three quotes in a row that have a backslash in front of them. -/
def EscapesQuotes (cs : List Char) : Prop := ['\\', '"', '"', '"'] <+: cs

theorem restoreQuotes_escape (cs : List Char) :
    restoreQuotes ('\\' :: '"' :: '"' :: '"' :: cs) = '"' :: '"' :: '"' :: restoreQuotes cs := rfl

theorem restoreQuotes_cons (h : ¬EscapesQuotes (c :: cs)) :
    restoreQuotes (c :: cs) = c :: restoreQuotes cs := by
  rw [restoreQuotes]
  rintro ds rfl rfl
  exact h ⟨ds, rfl⟩

/-- A text that begins with no backslash goes on as it would by itself. -/
theorem restoreQuotes_cons_of_ne (h : c ≠ '\\') (cs : List Char) :
    restoreQuotes (c :: cs) = c :: restoreQuotes cs := by
  refine restoreQuotes_cons ?_
  rintro ⟨ds, hds⟩
  exact h (List.cons.inj hds).1.symm

theorem restoreQuotes_indented (hpad : ∀ c ∈ pad, isIndent c) (line : List Char) :
    restoreQuotes (pad ++ line) = pad ++ restoreQuotes line := by
  induction pad with
  | nil => rfl
  | cons c pad ih =>
    obtain ⟨hc, hpad⟩ := List.forall_mem_cons.mp hpad
    have hne : c ≠ '\\' := by
      rintro rfl
      cases hc
    rw [List.cons_append, restoreQuotes_cons_of_ne hne, ih hpad, List.cons_append]

/-- A text goes on behind escaped quotes, or else behind its first character. -/
theorem quotesInduction {motive : List Char → Prop} (nil : motive [])
    (escape : ∀ cs, motive cs → motive ('\\' :: '"' :: '"' :: '"' :: cs))
    (cons : ∀ c cs, ¬EscapesQuotes (c :: cs) → motive cs → motive (c :: cs)) :
    ∀ cs, motive cs
  | [] => nil
  | c :: cs => by
    by_cases hescape : EscapesQuotes (c :: cs)
    · obtain ⟨ds, hds⟩ := hescape
      rw [← hds]
      exact escape ds (quotesInduction nil escape cons ds)
    · exact cons c cs hescape (quotesInduction nil escape cons cs)
termination_by cs => cs.length
decreasing_by
  · rw [← hds]
    simp only [List.cons_append, List.nil_append, List.length_cons]
    omega
  · simp

theorem endsLine_restoreQuotes (c : Char) (cs : List Char) :
    endsLine c (restoreQuotes cs) = endsLine c cs := by
  refine endsLine_congr ?_ c
  cases cs using quotesInduction with
  | nil => rfl
  | escape cs => simp [restoreQuotes_escape]
  | cons c cs hescape => simp [restoreQuotes_cons hescape]

/-- **Restored quotes**: the text is cut at all quotes that are escaped, and put together again with plain
    ones in their place. No escaped ones are left in the parts. -/
def QuotesRestored (raw restored : List Char) : Prop :=
  ∃ parts, (∀ part ∈ parts, ¬['\\', '"', '"', '"'] <:+: part) ∧
    raw = ['\\', '"', '"', '"'].intercalate parts ∧ restored = ['"', '"', '"'].intercalate parts

/-- The first of some parts stands in front of what they are put together to. -/
theorem prefix_intercalate (separator part : List Char) (parts : List (List Char)) :
    part <+: separator.intercalate (part :: parts) := by
  cases parts with
  | nil => simp
  | cons other parts =>
    rw [List.intercalate_cons_cons, List.append_assoc]
    exact List.prefix_append _ _

theorem intercalate_cons_head (separator : List Char) (c : Char) (part : List Char)
    (parts : List (List Char)) :
    separator.intercalate ((c :: part) :: parts) = c :: separator.intercalate (part :: parts) := by
  cases parts with
  | nil => simp
  | cons other parts => simp [List.intercalate_cons_cons]

/-- Quotes are restored wherever they are escaped. -/
theorem quotesRestored_restoreQuotes (cs : List Char) : QuotesRestored cs (restoreQuotes cs) := by
  -- there is a part to which what stands in front belongs
  have hparts : ∃ part parts, (∀ other ∈ part :: parts, ¬['\\', '"', '"', '"'] <:+: other) ∧
      cs = ['\\', '"', '"', '"'].intercalate (part :: parts) ∧
      restoreQuotes cs = ['"', '"', '"'].intercalate (part :: parts) := by
    induction cs using quotesInduction with
    | nil => exact ⟨[], [], by simp, rfl, rfl⟩
    | escape cs ih =>
      obtain ⟨part, parts, hfree, hcs, hrestored⟩ := ih
      refine ⟨[], part :: parts, List.forall_mem_cons.mpr ⟨by simp, hfree⟩, ?_, ?_⟩
      · rw [List.intercalate_cons_cons, ← hcs]
        rfl
      · rw [List.intercalate_cons_cons, ← hrestored]
        rfl
    | cons c cs hescape ih =>
      obtain ⟨part, parts, hfree, hcs, hrestored⟩ := ih
      obtain ⟨hpart, hothers⟩ := List.forall_mem_cons.mp hfree
      refine ⟨c :: part, parts, List.forall_mem_cons.mpr ⟨?_, hothers⟩, ?_, ?_⟩
      · intro hinfix
        rcases List.infix_cons_iff.mp hinfix with hstart | hinside
        · -- the part stands in front of the rest, which does not begin with escaped quotes
          have hfront : part <+: cs := hcs ▸ prefix_intercalate _ part parts
          exact hescape (hstart.trans ((List.prefix_append_right_inj [c]).mpr hfront))
        · exact hpart hinside
      · rw [intercalate_cons_head, ← hcs]
      · rw [restoreQuotes_cons hescape, intercalate_cons_head, ← hrestored]
  obtain ⟨part, parts, hfree, hcs, hrestored⟩ := hparts
  exact ⟨part :: parts, hfree, hcs, hrestored⟩

/-- Quotes are restored line by line. -/
theorem splitLines_restoreQuotes (cs : List Char) :
    splitLines (restoreQuotes cs) = (splitLines cs).map restoreQuotes := by
  have hplain : ∀ d ds, d ≠ '\n' → d ≠ '\r' →
      splitLines (d :: ds) = (splitLines ds).modifyHead (d :: ·) := by
    intro d ds hfeed hreturn
    rw [splitLines_cons, endsLine_of_other hfeed hreturn, if_neg (by simp), if_neg hreturn]
  induction cs using quotesInduction with
  | nil => rfl
  | escape cs ih =>
    obtain ⟨first, others, hcs⟩ := List.exists_cons_of_ne_nil (splitLines_ne_nil cs)
    have hquote : ∀ ds, splitLines ('"' :: ds) = (splitLines ds).modifyHead ('"' :: ·) :=
      fun ds => hplain '"' ds (by decide) (by decide)
    rw [restoreQuotes_escape, hquote, hquote, hquote, ih, hplain '\\' _ (by decide) (by decide), hquote, hquote, hquote, hcs]
    simp [restoreQuotes_escape]
  | cons c cs hescape ih =>
    rw [restoreQuotes_cons hescape, splitLines_cons, splitLines_cons, endsLine_restoreQuotes, ih]
    split
    · rfl
    · split
      · rfl
      · -- the line that the character begins has no more quotes in a row than the text
        obtain ⟨first, others, hcs⟩ := List.exists_cons_of_ne_nil (splitLines_ne_nil cs)
        have hfirst : ¬EscapesQuotes (c :: first) := fun h =>
          hescape (h.trans ((List.prefix_append_right_inj [c]).mpr (prefix_of_splitLines hcs)))
        rw [hcs, List.map_cons, List.modifyHead_cons, List.modifyHead_cons, List.map_cons,
          restoreQuotes_cons hfirst]

/-! ## Indentation -/

/-- **Common indentation**: the least width of the indentation of all lines that are not blank. -/
structure IsCommonIndent (lines : List (List Char)) (width : Nat) : Prop where
  attained : ∃ line ∈ lines, isBlankLine line = false ∧ indentWidth line = width
  least : ∀ line ∈ lines, isBlankLine line = false → width ≤ indentWidth line

/-- **Dedented**: a line without `width` characters of indentation. A shorter line, which is blank, becomes
    empty. -/
def Dedented (width : Nat) (line out : List Char) : Prop :=
  (∃ indent, line = indent ++ out ∧ indent.length = width ∧ ∀ c ∈ indent, isIndent c) ∨
    (isBlankLine line ∧ line.length < width ∧ out = [])

variable {first : List Char} {others lines : List (List Char)} {width : Nat}

theorem isBlankLine_append (hpad : ∀ c ∈ pad, isIndent c) (line : List Char) :
    isBlankLine (pad ++ line) = isBlankLine line := by
  rw [isBlankLine, List.all_append, List.all_eq_true.mpr hpad, Bool.true_and, isBlankLine]

theorem indentWidth_append (hpad : ∀ c ∈ pad, isIndent c) (line : List Char) :
    indentWidth (pad ++ line) = pad.length + indentWidth line := by
  rw [indentWidth, List.takeWhile_append_of_pos hpad, List.length_append, indentWidth]

theorem commonIndent?_eq_some :
    commonIndent? (first :: others) = some width ↔ IsCommonIndent others width := by
  simp only [commonIndent?, List.drop_succ_cons, List.drop_zero, List.min?_eq_some_iff, List.mem_map,
    List.mem_filter, Bool.not_eq_true', forall_exists_index, and_imp, and_assoc]
  constructor
  · rintro ⟨hattained, hleast⟩
    exact ⟨hattained, fun line hline hblank => hleast _ line hline hblank rfl⟩
  · rintro ⟨hattained, hleast⟩
    exact ⟨hattained, fun _ line hline hblank h => h ▸ hleast line hline hblank⟩

theorem commonIndent?_eq_none :
    commonIndent? (first :: others) = none ↔ ∀ line ∈ others, isBlankLine line := by
  simp [commonIndent?]

/-- Where not all lines but the first are blank, their common indentation is taken away. -/
theorem dedent_of_common (h : IsCommonIndent others width) (first : List Char) :
    dedent (first :: others) = first :: others.map (List.drop width) := by
  rw [dedent, commonIndent?_eq_some.mpr h]
  rfl

theorem dedent_of_blank (h : ∀ line ∈ others, isBlankLine line) (first : List Char) :
    dedent (first :: others) = first :: others := by
  rw [dedent, commonIndent?_eq_none.mpr h]

/-- More indentation in front of every line is common to all of them. -/
theorem IsCommonIndent.indented (h : IsCommonIndent lines width) (hpad : ∀ c ∈ pad, isIndent c) :
    IsCommonIndent (lines.map (pad ++ ·)) (pad.length + width) := by
  constructor
  · obtain ⟨line, hline, hblank, hwidth⟩ := h.attained
    exact ⟨pad ++ line, List.mem_map_of_mem hline, by rw [isBlankLine_append hpad, hblank],
      by rw [indentWidth_append hpad, hwidth]⟩
  · intro _ hindented hblank
    obtain ⟨line, hline, rfl⟩ := List.mem_map.mp hindented
    rw [isBlankLine_append hpad] at hblank
    rw [indentWidth_append hpad]
    exact Nat.add_le_add_left (h.least line hline hblank) _

/-- Taking away the common indentation is dedenting. -/
theorem IsCommonIndent.dedented (h : IsCommonIndent lines width) (hline : line ∈ lines) :
    Dedented width line (line.drop width) := by
  have htake : width ≤ line.length → (∀ c ∈ line.take width, isIndent c) →
      Dedented width line (line.drop width) := fun hle hindent =>
    .inl ⟨line.take width, (List.take_append_drop _ _).symm, List.length_take_of_le hle, hindent⟩
  cases hblank : isBlankLine line with
  | false =>
    have hle := h.least line hline hblank
    refine htake (Nat.le_trans hle (List.takeWhile_sublist _).length_le) fun c hc => ?_
    have hfront : line.take width <+: line.takeWhile isIndent := by
      rw [List.prefix_iff_eq_take.mp (List.takeWhile_prefix isIndent)]
      exact List.take_prefix_take_left hle
    exact List.mem_takeWhile_imp (hfront.subset hc)
  | true =>
    rcases Nat.lt_or_ge line.length width with hlt | hle
    · exact .inr ⟨hblank, hlt, List.drop_eq_nil_of_le (Nat.le_of_lt hlt)⟩
    · exact htake hle fun c hc => List.all_eq_true.mp hblank c (List.mem_of_mem_take hc)

theorem Dedented.isBlankLine_eq {out : List Char} (h : Dedented width line out) :
    isBlankLine out = isBlankLine line := by
  rcases h with ⟨indent, rfl, -, hindent⟩ | ⟨hblank, -, rfl⟩
  · exact (isBlankLine_append hindent out).symm
  · rw [hblank]
    rfl

/-! ## Blank Lines -/

/-- Dropping the blank lines at either end leaves what is between them. -/
theorem trimBlankLines_spec (lines : List (List Char)) : ∃ before after,
    lines = before ++ (trimBlankLines lines ++ after) ∧
      (∀ line ∈ before ++ after, isBlankLine line) ∧
      (∀ line ∈ (trimBlankLines lines).head?, isBlankLine line = false) ∧
      ∀ line ∈ (trimBlankLines lines).getLast?, isBlankLine line = false := by
  have hnot : ∀ (ls : List (List Char)), ∀ line ∈ (ls.dropWhile isBlankLine).head?,
      isBlankLine line = false := by
    intro ls line hline
    have hhead := List.head?_dropWhile_not isBlankLine ls
    rwa [Option.mem_def.mp hline] at hhead
  let rest := lines.dropWhile isBlankLine
  let after := (rest.reverse.takeWhile isBlankLine).reverse
  have hrest : rest = trimBlankLines lines ++ after := by
    show rest = (rest.reverse.dropWhile isBlankLine).reverse ++ after
    rw [← List.reverse_append, List.takeWhile_append_dropWhile, List.reverse_reverse]
  refine ⟨lines.takeWhile isBlankLine, after, ?_, ?_, ?_, ?_⟩
  · rw [← hrest, List.takeWhile_append_dropWhile]
  · intro line hline
    rcases List.mem_append.mp hline with hline | hline
    · exact List.mem_takeWhile_imp hline
    · exact List.mem_takeWhile_imp (List.mem_reverse.mp hline)
  · intro line hline
    refine hnot lines line ?_
    show line ∈ rest.head?
    rw [hrest, List.head?_append_of_ne_nil]
    · exact hline
    · rintro hnil
      rw [hnil] at hline
      cases hline
  · intro line hline
    refine hnot rest.reverse line ?_
    rwa [trimBlankLines, List.getLast?_reverse] at hline

/-- Nothing is left of blank lines. -/
theorem trimBlankLines_eq_nil (h : ∀ line ∈ lines, isBlankLine line) : trimBlankLines lines = [] := by
  rw [trimBlankLines, List.dropWhile_eq_nil_iff.mpr h]
  rfl

/-- Blank lines behind the first one are of no matter. -/
theorem trimBlankLines_cons_of_blank (h : ∀ line ∈ others, isBlankLine line) :
    trimBlankLines (first :: others) = trimBlankLines [first] := by
  cases hfirst : isBlankLine first with
  | true =>
    have hall : ∀ ls, (∀ line ∈ ls, isBlankLine line) → trimBlankLines (first :: ls) = [] :=
      fun ls hls => trimBlankLines_eq_nil (List.forall_mem_cons.mpr ⟨hfirst, hls⟩)
    rw [hall others h, hall [] (by simp)]
  | false =>
    have hothers : ∀ line ∈ others.reverse, isBlankLine line := by simpa using h
    simp [trimBlankLines, hfirst, List.dropWhile_append_of_pos hothers]

/-! ## Block Values -/

/-- **Kept lines**: what the line of the given index comes to. The first line stays as it is, and all
    others lose the indentation that they have in common. -/
inductive KeptLine (lines : List (List Char)) : Nat → List Char → List Char → Prop
  | first {line : List Char} : KeptLine lines 0 line line
  | later {index width : Nat} {line out : List Char} :
      IsCommonIndent lines.tail width → Dedented width line out → KeptLine lines (index + 1) line out

/-- **Block values**: nothing if all lines are blank, and else the lines between the blank ones at either
    end, each as it is kept. -/
inductive IsBlockValue (lines : List (List Char)) (value : List Char) : Prop
  | blank (blank : ∀ line ∈ lines, isBlankLine line) (empty : value = [])
  | between (before kept after : List (List Char)) (split : lines = before ++ (kept ++ after))
      (blank : ∀ line ∈ before ++ after, isBlankLine line)
      (keeps : List.Forall₂ (fun entry out => KeptLine lines entry.2 entry.1 out)
        (kept.zipIdx before.length) (value.splitOn '\n'))
      (first : ∀ line ∈ (value.splitOn '\n').head?, ∃ c ∈ line, isIndent c = false)
      (last : ∀ line ∈ (value.splitOn '\n').getLast?, ∃ c ∈ line, isIndent c = false)

/-- All lines but the first are blank, or they have some indentation in common. -/
theorem blank_or_common (lines : List (List Char)) :
    (∀ line ∈ lines, isBlankLine line) ∨ ∃ width, IsCommonIndent lines width := by
  cases h : commonIndent? ([] :: lines) with
  | none => exact .inl (commonIndent?_eq_none.mp h)
  | some width => exact .inr ⟨width, commonIndent?_eq_some.mp h⟩

/-- More indentation in front of all lines but the first is of no matter. -/
theorem trimBlankLines_dedent_indented (hpad : ∀ c ∈ pad, isIndent c) :
    trimBlankLines (dedent (first :: others.map (pad ++ ·))) =
      trimBlankLines (dedent (first :: others)) := by
  rcases blank_or_common others with hblank | ⟨width, hcommon⟩
  · have hindented : ∀ line ∈ others.map (pad ++ ·), isBlankLine line := by
      intro _ h
      obtain ⟨line, hline, rfl⟩ := List.mem_map.mp h
      rw [isBlankLine_append hpad, hblank line hline]
    rw [dedent_of_blank hindented, dedent_of_blank hblank, trimBlankLines_cons_of_blank hindented,
      trimBlankLines_cons_of_blank hblank]
  · rw [dedent_of_common hcommon, dedent_of_common (hcommon.indented hpad), List.map_map]
    congr 3
    funext line
    exact List.drop_length_add_append width

/-- Every line is kept as it is to be, where the lines have some indentation in common. -/
theorem IsCommonIndent.keeps (h : IsCommonIndent others width) (first : List Char) :
    List.Forall₂ (fun entry out => KeptLine (first :: others) entry.2 entry.1 out)
      (first :: others).zipIdx (first :: others.map (List.drop width)) := by
  have hlater : ∀ ls ⊆ others, ∀ index,
      List.Forall₂ (fun entry out => KeptLine (first :: others) entry.2 entry.1 out)
        (ls.zipIdx (index + 1)) (ls.map (List.drop width)) := by
    intro ls hls
    induction ls with
    | nil => exact fun _ => .nil
    | cons line ls ih =>
      obtain ⟨hline, hls⟩ := List.cons_subset.mp hls
      exact fun index => .cons (.later h (h.dedented hline)) (ih hls (index + 1))
  exact .cons .first (hlater others (List.Subset.refl _) 0)

/-- A character is in none of some lines, and in none of their text either. -/
theorem not_mem_intercalate (hc : c ≠ '\n') (h : ∀ line ∈ lines, c ∉ line) :
    c ∉ ['\n'].intercalate lines := by
  induction lines with
  | nil => exact List.not_mem_nil
  | cons line lines ih =>
    obtain ⟨hline, hlines⟩ := List.forall_mem_cons.mp h
    cases lines with
    | nil => simpa using hline
    | cons other lines =>
      rw [List.intercalate_cons_cons]
      simp [hline, hc, ih hlines]

/-- What is left of the lines are ends of them. -/
theorem exists_suffix_of_mem {out : List Char} (h : out ∈ trimBlankLines (dedent lines)) :
    ∃ line ∈ lines, out <:+ line := by
  have hmem : out ∈ dedent lines := by
    obtain ⟨before, after, hcut, -⟩ := trimBlankLines_spec (dedent lines)
    rw [hcut]
    simp [h]
  cases lines with
  | nil => cases hmem
  | cons first others =>
    rcases blank_or_common others with hblank | ⟨width, hcommon⟩
    · rw [dedent_of_blank hblank] at hmem
      exact ⟨out, hmem, List.suffix_refl out⟩
    · rw [dedent_of_common hcommon] at hmem
      rcases List.mem_cons.mp hmem with rfl | hmem
      · exact ⟨_, List.mem_cons_self, List.suffix_refl _⟩
      · obtain ⟨line, hline, rfl⟩ := List.mem_map.mp hmem
        exact ⟨line, List.mem_cons_of_mem _ hline, List.drop_suffix width line⟩

/-- A line that is not blank has a character that indents nothing. -/
theorem exists_of_not_blank (h : isBlankLine line = false) : ∃ c ∈ line, isIndent c = false := by
  simpa [isBlankLine] using h

/-- The lines of a text as they are kept, without the blank ones at either end, are its block value. -/
theorem isBlockValue_of_keeps {value : List Char} {before outs after : List (List Char)}
    (hkeeps : List.Forall₂ (fun entry out => KeptLine lines entry.2 entry.1 out) lines.zipIdx
      (before ++ (outs ++ after)))
    (hsame : (before ++ (outs ++ after)).map isBlankLine = lines.map isBlankLine)
    (hblank : ∀ line ∈ before ++ after, isBlankLine line) (hvalue : value.splitOn '\n' = outs)
    (hfirst : ∀ line ∈ outs.head?, isBlankLine line = false)
    (hlast : ∀ line ∈ outs.getLast?, isBlankLine line = false) : IsBlockValue lines value := by
  -- the lines are cut where what they are kept as is cut
  let n := before.length
  let kept := (lines.drop n).take outs.length
  let behind := (lines.drop n).drop outs.length
  have hlength : lines.length = n + (outs.length + after.length) := by
    simpa using (congrArg List.length hsame).symm
  have hn : (lines.take n).length = n := List.length_take_of_le (by omega)
  have hkept : kept.length = outs.length :=
    List.length_take_of_le (by rw [List.length_drop]; omega)
  have hsplit : lines = lines.take n ++ (kept ++ behind) := by
    rw [List.take_append_drop, List.take_append_drop]
  have hall : ∀ ls ls' : List (List Char), ls'.map isBlankLine = ls.map isBlankLine →
      (∀ line ∈ ls', isBlankLine line) → ∀ line ∈ ls, isBlankLine line := by
    intro ls ls' hmap hls'
    have hmem : ∀ b ∈ ls'.map isBlankLine, b = true := by simpa using hls'
    rw [hmap] at hmem
    simpa using hmem
  rw [List.map_append, List.map_append, hsplit, List.map_append, List.map_append] at hsame
  obtain ⟨hbefore, hrest⟩ := List.append_inj hsame (by simp only [List.length_map, hn, n])
  obtain ⟨-, hbehind⟩ := List.append_inj hrest (by simp only [List.length_map, hkept])
  refine .between (lines.take n) kept behind hsplit ?_ ?_ ?_ ?_
  · obtain ⟨hfront, hback⟩ := List.forall_mem_append.mp hblank
    exact List.forall_mem_append.mpr ⟨hall _ _ hbefore hfront, hall _ _ hbehind hback⟩
  · have hindexed : lines.zipIdx = (lines.take n).zipIdx ++
        (kept.zipIdx n ++ behind.zipIdx (n + kept.length)) := by
      conv_lhs => rw [hsplit]
      rw [List.zipIdx_append, List.zipIdx_append, hn, Nat.zero_add]
    have hdrop := List.forall₂_drop_append _ _ _ hkeeps
    rw [hindexed, List.drop_left' (by rw [List.length_zipIdx, hn])] at hdrop
    have htake := List.forall₂_take_append _ _ _ hdrop
    rw [List.take_left' (by rw [List.length_zipIdx, hkept])] at htake
    rwa [hvalue, hn]
  · rw [hvalue]
    exact fun line hline => exists_of_not_blank (hfirst line hline)
  · rw [hvalue]
    exact fun line hline => exists_of_not_blank (hlast line hline)

/-- Where all lines but the first are blank, the first one is the block value, unless it is blank too. -/
theorem isBlockValue_of_blank (hblank : ∀ line ∈ others, isBlankLine line) (hline : '\n' ∉ first) :
    IsBlockValue (first :: others)
      (['\n'].intercalate (trimBlankLines (dedent (first :: others)))) := by
  rw [dedent_of_blank hblank, trimBlankLines_cons_of_blank hblank]
  cases hfirst : isBlankLine first with
  | true =>
    refine .blank (List.forall_mem_cons.mpr ⟨hfirst, hblank⟩) ?_
    rw [trimBlankLines_eq_nil (by simpa using hfirst)]
    rfl
  | false =>
    have htrim : trimBlankLines [first] = [first] := by simp [trimBlankLines, hfirst]
    have hsplit : (['\n'].intercalate [first]).splitOn '\n' = [first] :=
      List.splitOn_intercalate '\n' (by simpa using hline) (by simp)
    rw [htrim]
    refine .between [] [first] others rfl (by simpa using hblank) ?_ ?_ ?_ <;> rw [hsplit]
    · exact .cons .first .nil
    · simpa using exists_of_not_blank hfirst
    · simpa using exists_of_not_blank hfirst

/-- Where they are not, the lines between the blank ones at either end are, less what they are indented
    by in common. -/
theorem isBlockValue_of_common (hcommon : IsCommonIndent others width)
    (hclean : ∀ out ∈ trimBlankLines (dedent (first :: others)), '\n' ∉ out) :
    IsBlockValue (first :: others)
      (['\n'].intercalate (trimBlankLines (dedent (first :: others)))) := by
  rw [dedent_of_common hcommon] at hclean ⊢
  obtain ⟨before, after, hcut, hblank, hhead, hlast⟩ :=
    trimBlankLines_spec (first :: others.map (List.drop width))
  generalize trimBlankLines (first :: others.map (List.drop width)) = outs at *
  have hkeeps := hcommon.keeps first
  have hsame : (first :: others.map (List.drop width)).map isBlankLine =
      (first :: others).map isBlankLine := by
    rw [List.map_cons, List.map_cons, List.map_map]
    exact congrArg _ (List.map_congr_left fun line hline => (hcommon.dedented hline).isBlankLine_eq)
  rw [hcut] at hkeeps hsame
  -- a line that is not blank is among those that are left
  have hne : outs ≠ [] := by
    rintro rfl
    obtain ⟨line, hline, hnot, -⟩ := hcommon.attained
    have hmem : isBlankLine line ∈ (first :: others).map isBlankLine :=
      List.mem_map_of_mem (List.mem_cons_of_mem _ hline)
    rw [← hsame, List.nil_append] at hmem
    obtain ⟨out, hout, heq⟩ := List.mem_map.mp hmem
    rw [hblank out hout, hnot] at heq
    cases heq
  exact isBlockValue_of_keeps hkeeps hsame hblank (List.splitOn_intercalate '\n' hclean hne) hhead hlast

/-- The lines that are left of a text without the blank lines at either end are its block value. -/
theorem isBlockValue_trimBlankLines (hlines : ∀ line ∈ first :: others, '\n' ∉ line) :
    IsBlockValue (first :: others)
      (['\n'].intercalate (trimBlankLines (dedent (first :: others)))) := by
  rcases blank_or_common others with hblank | ⟨width, hcommon⟩
  · exact isBlockValue_of_blank hblank (hlines first List.mem_cons_self)
  · refine isBlockValue_of_common hcommon fun out hout hmem => ?_
    obtain ⟨line, hline, hsuffix⟩ := exists_suffix_of_mem hout
    exact hlines line hline (hsuffix.subset hmem)

/-- **The layout of a block string is of no matter**: line feeds in the place of its line ends, and more
    indentation in front of all lines but the first, leave what it stands for as it is. This has no
    carriage return, and its lines are those between the blank ones at either end, less what they are
    indented by in common. Three quotes stand in them for each three that are escaped. -/
theorem blockContents_layout (raw : List Char) :
    blockContents (feedsOnly raw) = blockContents raw ∧
      (∀ pad, (∀ c ∈ pad, isIndent c) → blockContents (indentLater pad raw) = blockContents raw) ∧
      '\r' ∉ blockContents raw ∧ QuotesRestored raw (restoreQuotes raw) ∧
      IsBlockValue (textLines (restoreQuotes raw)) (blockContents raw) := by
  obtain ⟨first, others, hraw⟩ := List.exists_cons_of_ne_nil (splitLines_ne_nil raw)
  have hlines := splitLines_restoreQuotes raw
  rw [hraw, List.map_cons] at hlines
  refine ⟨?_, ?_, ?_, quotesRestored_restoreQuotes raw, ?_⟩
  · unfold blockContents
    rw [splitLines_restoreQuotes, splitLines_eq, textLines_feedsOnly, ← splitLines_eq,
      splitLines_restoreQuotes]
  · intro pad hpad
    have hquotes : others.map (restoreQuotes ∘ (pad ++ ·)) =
        (others.map restoreQuotes).map (pad ++ ·) := by
      rw [List.map_map]
      exact List.map_congr_left fun line _ => restoreQuotes_indented hpad line
    unfold blockContents
    rw [splitLines_restoreQuotes, splitLines_indentLater hpad hraw, List.map_cons, List.map_map,
      hquotes, trimBlankLines_dedent_indented hpad, hlines]
  · refine not_mem_intercalate (by decide) fun out hout hmem => ?_
    obtain ⟨line, hline, hsuffix⟩ := exists_suffix_of_mem hout
    exact (not_mem_of_mem_splitLines hline).2 (hsuffix.subset hmem)
  · have hnone : ∀ line ∈ restoreQuotes first :: others.map restoreQuotes, '\n' ∉ line :=
      fun line hline => (not_mem_of_mem_splitLines (hlines ▸ hline)).1
    have hvalue := isBlockValue_trimBlankLines hnone
    rw [← hlines] at hvalue
    rw [← splitLines_eq]
    exact hvalue

end

end SchemaModel.Sdl
