import SchemaModel.Proofs.Tiling

/-! # Strings and Line Ends

    A quoted string is to end on the line that it begins on.

    * **Runs**: what stands between quotes: plain characters, and backslashes with the character behind
      each of them, whatever it is.
    * **Openings**: the places of a source at which the lexer begins a quoted string.
    * **On the line**: a string that is closed on its line is a token without line ends, and one that is
      not is malformed and stops on its line. This holds of a string unless a backslash takes the line end
      with it. -/

namespace SchemaModel.Sdl

/-! ## Runs -/

/-- **Runs**: plain characters, and backslashes with the character behind each of them. -/
inductive QuotedRun : List Char → Prop
  | nil : QuotedRun []
  | plain {c : Char} {run : List Char} : isPlain c → QuotedRun run → QuotedRun (c :: run)
  | pair {c : Char} {run : List Char} : QuotedRun run → QuotedRun ('\\' :: c :: run)

/-- There is no line end in the text. -/
def OneLine (cs : List Char) : Prop := ∀ c ∈ cs, isLineEnd c = false

/-- The characters up to the first line end. -/
def lineOf (cs : List Char) : List Char := cs.takeWhile fun c => !isLineEnd c

/-- A quote closes the string on its line. -/
def ClosedOnLine (cs : List Char) : Prop :=
  ∃ run back, cs = run ++ '"' :: back ∧ QuotedRun run ∧ OneLine run

/-- A backslash in the string takes the end of its line with it. -/
def TakesLineEnd (cs : List Char) : Prop :=
  ∃ run c back, cs = run ++ '\\' :: c :: back ∧ QuotedRun run ∧ OneLine run ∧ isLineEnd c

section

variable {cs run : List Char} {c : Char}

theorem isPlain_iff : isPlain c ↔ c ≠ '"' ∧ c ≠ '\\' ∧ isLineEnd c = false := by
  simp [isPlain, and_assoc]

theorem oneLine_cons : OneLine (c :: cs) ↔ isLineEnd c = false ∧ OneLine cs := by
  simp [OneLine]

theorem oneLine_lineOf (cs : List Char) : OneLine (lineOf cs) := by
  intro c hc
  simpa using List.mem_takeWhile_imp hc

theorem lineOf_cons (h : isLineEnd c = false) (cs : List Char) : lineOf (c :: cs) = c :: lineOf cs :=
  List.takeWhile_cons_of_pos (by simp [h])

theorem lineOf_append (h : OneLine run) (cs : List Char) : lineOf (run ++ cs) = run ++ lineOf cs :=
  List.takeWhile_append_of_pos fun c hc => by simp [h c hc]

/-- A line end is taken behind a plain character if it is taken in what follows. -/
theorem TakesLineEnd.plain (h : TakesLineEnd cs) (hc : isPlain c) : TakesLineEnd (c :: cs) := by
  obtain ⟨run, d, back, rfl, hrun, hline, hd⟩ := h
  exact ⟨c :: run, d, back, rfl, .plain hc hrun, oneLine_cons.mpr ⟨(isPlain_iff.mp hc).2.2, hline⟩, hd⟩

/-- A line end is taken behind a pair if it is taken in what follows, or in the pair itself. -/
theorem takesLineEnd_pair (h : isLineEnd c ∨ TakesLineEnd cs) : TakesLineEnd ('\\' :: c :: cs) := by
  cases hc : isLineEnd c with
  | true => exact ⟨[], c, cs, rfl, .nil, by simp [OneLine], hc⟩
  | false =>
    obtain ⟨run, d, back, rfl, hrun, hline, hd⟩ := h.resolve_left (by simp [hc])
    exact ⟨'\\' :: c :: run, d, back, rfl, .pair hrun,
      oneLine_cons.mpr ⟨by decide, oneLine_cons.mpr ⟨hc, hline⟩⟩, hd⟩

/-! ## Scans of Strings -/

/-- What the scan of a string takes by itself is plain. -/
theorem isPlain_of_other (hend : c = '\\' → cs = [] → False)
    (hpair : ∀ d ds, c = '\\' → cs = d :: ds → False) (hquote : c = '"' → False)
    (hline : isLineEnd c = false) : isPlain c := by
  refine isPlain_iff.mpr ⟨hquote, ?_, hline⟩
  intro hc
  cases cs with
  | nil => exact hend hc rfl
  | cons d ds => exact hpair d ds hc rfl

/-- A run is taken as it stands. -/
theorem QuotedRun.quoted_append (h : QuotedRun run) (rest : List Char) :
    Scan.quoted (run ++ rest) = (Scan.quoted rest).after run := by
  induction h with
  | nil => rfl
  | @plain c run hc _ ih =>
    have hplain : [c].all isPlain := by simpa using hc
    have hstep := quoted_plain hplain (run ++ rest)
    rw [ih, Scan.after_after] at hstep
    exact hstep
  | @pair c run _ ih =>
    show (Scan.quoted (run ++ rest)).after ['\\', c] = _
    rw [ih, Scan.after_after]
    rfl

/-- A string is a run up to a quote, or it is unterminated. -/
theorem quoted_cases (cs : List Char) :
    (∃ run back, cs = run ++ '"' :: back ∧ QuotedRun run ∧
        Scan.quoted cs = .taken (run ++ ['"']) back) ∨
      (Scan.quoted cs).fault = some .unterminatedString := by
  fun_induction Scan.quoted cs with
  | case1 => exact .inr rfl
  | case2 => exact .inr rfl
  | case3 c cs ih =>
    refine ih.imp ?_ id
    rintro ⟨run, back, rfl, hrun, hquoted⟩
    exact ⟨'\\' :: c :: run, back, rfl, .pair hrun, by rw [hquoted]; rfl⟩
  | case4 cs => exact .inl ⟨[], cs, rfl, .nil, rfl⟩
  | case5 => exact .inr rfl
  | case6 c cs hend hbackslash hquote hline ih =>
    refine ih.imp ?_ id
    rintro ⟨run, back, rfl, hrun, hquoted⟩
    have hplain := isPlain_of_other hend hbackslash hquote (by simpa using hline)
    exact ⟨c :: run, back, rfl, .plain hplain hrun, by rw [hquoted]; rfl⟩

/-- A string whose line end no backslash takes does not go on behind it. -/
theorem quoted_prefix_lineOf (h : ¬TakesLineEnd cs) : (Scan.quoted cs).text <+: lineOf cs := by
  fun_induction Scan.quoted cs with
  | case1 => exact List.nil_prefix
  | case2 => exact List.prefix_rfl
  | case3 c cs ih =>
    obtain ⟨hc, hcs⟩ := not_or.mp (mt takesLineEnd_pair h)
    rw [lineOf_cons (by decide), lineOf_cons (by simpa using hc)]
    exact List.prefix_append_right_inj ['\\', c] |>.mpr (ih hcs)
  | case4 cs =>
    rw [lineOf_cons (by decide)]
    exact List.prefix_append ['"'] (lineOf cs)
  | case5 => exact List.nil_prefix
  | case6 c cs hend hbackslash hquote hline ih =>
    have hplain := isPlain_of_other hend hbackslash hquote (by simpa using hline)
    rw [lineOf_cons (by simpa using hline)]
    exact (List.prefix_append_right_inj [c]).mpr (ih fun htakes => h (htakes.plain hplain))

/-- A string whose line end a backslash takes goes on behind it. -/
theorem TakesLineEnd.quoted_text (h : TakesLineEnd cs) :
    ∃ c more, (Scan.quoted cs).text = lineOf cs ++ c :: more ∧ isLineEnd c := by
  obtain ⟨run, c, back, rfl, hrun, hline, hc⟩ := h
  have htext : (Scan.quoted (run ++ '\\' :: c :: back)).text =
      run ++ '\\' :: c :: (Scan.quoted back).text := by
    rw [hrun.quoted_append]
    simp [Scan.quoted, Scan.after]
  have hlineOf : lineOf (run ++ '\\' :: c :: back) = run ++ ['\\'] := by
    rw [lineOf_append hline, lineOf_cons (by decide), lineOf, List.takeWhile_cons_of_neg (by simp [hc])]
  exact ⟨c, (Scan.quoted back).text, by rw [htext, hlineOf, List.append_assoc]; rfl, hc⟩

/-- The scan of a string has no line end exactly if no backslash takes one. -/
theorem oneLine_quoted_iff : OneLine (Scan.quoted cs).text ↔ ¬TakesLineEnd cs := by
  constructor
  · intro hline htakes
    obtain ⟨c, more, htext, hc⟩ := htakes.quoted_text
    have hnot := hline c (by rw [htext]; simp)
    rw [hc] at hnot
    cases hnot
  · intro h c hc
    exact oneLine_lineOf cs c ((quoted_prefix_lineOf h).subset hc)

/-- A string that is closed on its line is taken up to the quote. -/
theorem ClosedOnLine.quoted_eq (h : ClosedOnLine cs) : ∃ run back,
    Scan.quoted cs = .taken (run ++ ['"']) back ∧ OneLine (run ++ ['"']) := by
  obtain ⟨run, back, rfl, hrun, hline⟩ := h
  refine ⟨run, back, hrun.quoted_append _, ?_⟩
  intro c hc
  rcases List.mem_append.mp hc with hc | hc
  · exact hline c hc
  · obtain rfl := List.mem_singleton.mp hc
    decide

/-- A string that is not closed on its line, and does not go on behind it, is unterminated. -/
theorem fault_quoted (hopen : ¬ClosedOnLine cs) (htakes : ¬TakesLineEnd cs) :
    (Scan.quoted cs).fault = some .unterminatedString := by
  refine (quoted_cases cs).resolve_left ?_
  rintro ⟨run, back, hsplit, hrun, hquoted⟩
  have hline := oneLine_quoted_iff.mpr htakes
  rw [hquoted] at hline
  exact hopen ⟨run, back, hsplit, hrun, fun c hc => hline c (List.mem_append_left _ hc)⟩

/-! ## Openings -/

/-- **Openings**: the lexeme begins with a quote in front of `cs`, and it is no block string. -/
structure Opens (source : String) (l : Lexeme) (front cs : List Char) : Prop where
  mem : l ∈ lexemes source
  split : source.toList = front ++ '"' :: cs
  start : l.span.start = byteLength front
  single : ¬['"', '"'] <+: cs

variable {source : String} {l : Lexeme} {front : List Char}

/-- A lexeme that opens a string is what the scan of the string takes. -/
theorem Opens.eq_ofScan (h : Opens source l front cs) :
    l = .ofScan (byteLength front) .string ((Scan.quoted cs).after ['"']) := by
  have hquoted : scanLexeme '"' cs = (.string, (Scan.quoted cs).after ['"']) :=
    scanLexeme_quoted fun body hbody => h.single ⟨body, hbody.symm⟩
  rw [eq_ofScan_of_mem h.mem h.split h.start, hquoted]

/-- Only a quote begins a string. -/
theorem quote_of_scanLexeme (h : (scanLexeme c cs).1 = .string) : c = '"' := by
  rcases scanLexeme_cases c cs with ⟨mark, heq⟩ | ⟨body, hquote, heq⟩ | ⟨hquote, heq⟩ | ⟨-, heq⟩ |
    ⟨-, heq⟩ | heq <;> rw [heq] at h
  · cases h
  · exact hquote
  · exact hquote
  · dsimp only [numberKind] at h
    split at h <;> cases h
  · have hname := isName_wordKind (Scan.run isNamePart (c :: cs)).text
    dsimp only at h
    rw [h] at hname
    cases hname
  · cases h

/-- Every string token opens where a quote stands. -/
theorem exists_opens {token : Token} (htoken : .token token ∈ lexemes source)
    (hkind : token.kind = .string) : ∃ front cs, Opens source (.token token) front cs := by
  obtain ⟨front, d, ds, text, rest, hsource, hscan, -, hspan, -⟩ := exists_scan_of_token htoken
  have hstring : (scanLexeme d ds).1 = .string := by rw [hscan, hkind]
  obtain rfl : d = '"' := quote_of_scanLexeme hstring
  refine ⟨front, ds, htoken, hsource, by rw [Lexeme.span, hspan], ?_⟩
  rintro ⟨body, rfl⟩
  cases hstring

/-! ## Strings on Their Lines -/

/-- **On the line**: a string that is closed on its line is a token without line ends, and one that is
    not is malformed and stops on its line. -/
structure KeepsLine (l : Lexeme) (front cs : List Char) : Prop where
  closed : ClosedOnLine cs → ∃ token, l = .token token ∧ token.kind = .string ∧
    OneLine token.text.toList
  unclosed : ¬ClosedOnLine cs → ∃ span text, l = .malformed .unterminatedString span text ∧
    span.stop ≤ byteLength front + (1 + byteLength (lineOf cs))

/-- All strings of a source keep to their lines, and no string token has a line end in its text. -/
structure KeepsLines (source : String) : Prop where
  tokens : ∀ token, .token token ∈ lexemes source → token.kind = .string →
    OneLine token.text.toList
  strings : ∀ l front cs, Opens source l front cs → KeepsLine l front cs

/-- The text of a string with its opening quote has a line end exactly if the rest of it has. -/
theorem Opens.oneLine_text_iff (h : Opens source l front cs) : OneLine l.text ↔ ¬TakesLineEnd cs := by
  have hquote : isLineEnd '"' = false := by decide
  rw [h.eq_ofScan, text_ofScan, ← oneLine_quoted_iff]
  exact oneLine_cons.trans (and_iff_right hquote)

/-- The bytes of a string: those of its opening quote and of what the scan takes behind it. -/
theorem Opens.stop_eq (h : Opens source l front cs) :
    l.span.stop = byteLength front + (1 + byteLength (Scan.quoted cs).text) := by
  rw [h.eq_ofScan, span_ofScan]
  rfl

/-- A string keeps to its line exactly if no backslash takes the end of the line with it. -/
theorem Opens.keepsLine_iff (h : Opens source l front cs) : KeepsLine l front cs ↔ ¬TakesLineEnd cs := by
  have hl := h.eq_ofScan
  have hstop := h.stop_eq
  constructor
  · intro hkeeps htakes
    have hopen : ¬ClosedOnLine cs := by
      intro hclosed
      obtain ⟨run, back, hquoted, hline⟩ := hclosed.quoted_eq
      exact oneLine_quoted_iff.mp (by rw [hquoted]; exact hline) htakes
    obtain ⟨span, text, rfl, hle⟩ := hkeeps.unclosed hopen
    -- the string goes on behind the line end, at which it would have to stop
    obtain ⟨c, more, htext, -⟩ := htakes.quoted_text
    have hpos := c.utf8Size_pos
    rw [htext, byteLength_append, byteLength_cons, Lexeme.span] at hstop
    omega
  · intro htakes
    constructor
    · intro hclosed
      obtain ⟨run, back, hquoted, -⟩ := hclosed.quoted_eq
      have htext : OneLine l.text := h.oneLine_text_iff.mpr htakes
      rw [hquoted] at hl
      rw [hl] at htext
      exact ⟨_, hl, rfl, htext⟩
    · intro hopen
      have hfault := fault_quoted hopen htakes
      obtain ⟨more, hmore⟩ := quoted_prefix_lineOf htakes
      have hlength := congrArg byteLength hmore
      rw [byteLength_append] at hlength
      have hmalformed : l = .malformed .unterminatedString l.span (String.ofList l.text) := by
        rw [hl, span_ofScan, text_ofScan]
        simp only [Lexeme.ofScan, Scan.after, hfault]
      exact ⟨l.span, String.ofList l.text, hmalformed, by omega⟩

/-- **Strings keep to their lines**, each of them exactly if no backslash takes the end of the line with
    it. All strings of a source do, and no string token has a line end in its text, exactly if no string
    of the source has such a backslash. -/
theorem keepsLines_iff (source : String) :
    (∀ l front cs, Opens source l front cs → (KeepsLine l front cs ↔ ¬TakesLineEnd cs)) ∧
      (KeepsLines source ↔ ∀ l front cs, Opens source l front cs → ¬TakesLineEnd cs) := by
  refine ⟨fun l front cs hopens => hopens.keepsLine_iff, ?_, ?_⟩
  · intro hkeeps l front cs hopens
    exact hopens.keepsLine_iff.mp (hkeeps.strings l front cs hopens)
  · intro hnone
    constructor
    · intro token htoken hkind
      obtain ⟨front, cs, hopens⟩ := exists_opens htoken hkind
      exact hopens.oneLine_text_iff.mpr (hnone _ front cs hopens)
    · intro l front cs hopens
      exact hopens.keepsLine_iff.mpr (hnone l front cs hopens)

end

/-- A string with a backslash at the end of its line, and the closing quote on the next one. -/
def brokenString : String := "\"a\\\nb\""

/-- The string is a token over two lines. -/
theorem brokenString_over_line : ¬KeepsLines brokenString := by
  intro hkeeps
  have htoken : .token ⟨.string, ⟨0, 6⟩, brokenString⟩ ∈ lexemes brokenString := by decide +kernel
  have hline := hkeeps.tokens _ htoken rfl '\n' (by decide)
  cases hline

end SchemaModel.Sdl
