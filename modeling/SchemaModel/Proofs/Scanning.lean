import SchemaModel.Sdl.Grammar

/-! # Scanning Again

    Which characters make up which lexeme, wherever in a source they stand.

    * **Apart**: input that neither a name nor a number in front of it goes on with.
    * **Local scans**: a lexeme is scanned again as it was, malformed or not, in front of any other
      input that begins alike, and in front of any input that is apart unless its fault depends on
      what is behind it.
    * **Strings**: what a string is quoted as is scanned as one lexeme, which stands for it. -/

namespace SchemaModel.Sdl

/-! ## Separators -/

/-- Characters that may stand right behind a name or a number. -/
def separators : List Char :=
  [' ', '\t', '\r', '\n', ',', '\ufeff', '#', ':', '(', ')', ']', '}', '!']

/-- **Apart**: the input is empty or begins with a separator. -/
def Apart (rest : List Char) : Prop :=
  ∀ c ∈ rest.head?, c ∈ separators

theorem apart_cons {c : Char} (h : c ∈ separators) (rest : List Char) : Apart (c :: rest) := by
  intro d hd
  obtain rfl : c = d := by simpa using hd
  exact h

/-- Does the fault of a lexeme in front of this input stay the same if anything that is apart takes
    the place of the input? A string that is not closed takes up whatever comes, and a malformed
    number may end well without the characters that it runs on into. -/
def LexicalFault.Firm (rest : List Char) : LexicalFault → Prop
  | .unexpectedCharacter _ => True
  | .unterminatedString | .unterminatedBlockString => False
  | _ => Apart rest

/-- Input is not apart if something that is no separator begins it. -/
theorem not_apart {p : Char → Bool} (hseparators : ∀ c ∈ separators, p c = false) {c : Char}
    (hc : p c) (rest : List Char) : ¬Apart (c :: rest) := fun hapart =>
  absurd (hseparators c (hapart c rfl)) (by simp [hc])

/-! ## Local Scans -/

namespace Scan

/-- The same scan with other input left. -/
def leaving (scan : Scan) (other : List Char) : Scan := { scan with rest := other }

/-- **Firm**: a scan that is not at fault, or whose fault stays the same where anything that is apart
    stands behind it. -/
def Firm (scan : Scan) : Prop :=
  ∀ fault ∈ scan.fault, fault.Firm scan.rest

/-- **Fits**: input that may stand behind what a scan has taken. It begins like what the scan has
    left or, if the scan is firm, it is apart. -/
def Fits (scan : Scan) (other : List Char) : Prop :=
  other.head? = scan.rest.head? ∨ (scan.Firm ∧ Apart other)

theorem firm_of_none {scan : Scan} (h : scan.fault = none) : scan.Firm := by simp [Firm, h]

/-- Input that fits does not go on with characters that the scan has not gone on with, unless these
    are separators. -/
theorem Fits.head {scan : Scan} {other : List Char} (h : scan.Fits other) {p : Char → Bool}
    (hseparators : ∀ c ∈ separators, p c = false) (hrest : ∀ c ∈ scan.rest.head?, p c = false) :
    ∀ c ∈ other.head?, p c = false := by
  rcases h with hhead | ⟨-, hapart⟩
  · rwa [hhead]
  · exact fun c hc => hseparators c (hapart c hc)

/-- What the scan takes from an input is the front of it, and it takes the same from any other input
    that has this front and fits behind it. -/
structure LocalAt (scan : List Char → Scan) (cs : List Char) : Prop where
  front : cs = (scan cs).text ++ (scan cs).rest
  again : ∀ other, (scan cs).Fits other →
    scan ((scan cs).text ++ other) = (scan cs).leaving other

/-- **Local**: what the scan takes does not depend on what comes behind it. -/
def Local (scan : List Char → Scan) : Prop :=
  ∀ cs, LocalAt scan cs

theorem fits_after {scan : Scan} {front other : List Char} :
    (scan.after front).Fits other ↔ scan.Fits other := Iff.rfl

theorem andThen_of_fault {scan : Scan} {fault : LexicalFault} (h : scan.fault = some fault)
    (next : List Char → Scan) : scan.andThen next = scan := by
  simp only [andThen, h]

theorem andThen_of_none {scan : Scan} (h : scan.fault = none) (next : List Char → Scan) :
    scan.andThen next = (next scan.rest).after scan.text := by
  simp only [andThen, h]

theorem Local.andThen {scan next : List Char → Scan} (h : Local scan) (hnext : Local next) :
    Local fun cs => (scan cs).andThen next := by
  intro cs
  obtain ⟨hfront, hagain⟩ := h cs
  cases hfault : (scan cs).fault with
  | some fault =>
    have hstop : (scan cs).andThen next = scan cs := andThen_of_fault hfault next
    constructor
    · rwa [hstop]
    · intro other hother
      rw [hstop] at hother ⊢
      rw [hagain other hother]
      exact andThen_of_fault (by exact hfault) next
  | none =>
    obtain ⟨hmiddle, hnextAgain⟩ := hnext (scan cs).rest
    have hgo : (scan cs).andThen next = (next (scan cs).rest).after (scan cs).text :=
      andThen_of_none hfault next
    constructor
    · rw [hgo]
      show cs = (scan cs).text ++ (next (scan cs).rest).text ++ (next (scan cs).rest).rest
      rw [List.append_assoc, ← hmiddle]
      exact hfront
    · intro other hother
      rw [hgo] at hother ⊢
      -- the first scan goes on with what the second one takes, or with the rest if that is nothing
      have hfits : (scan cs).Fits ((next (scan cs).rest).text ++ other) := by
        cases htext : (next (scan cs).rest).text with
        | nil =>
          rw [htext, List.nil_append] at hmiddle
          rcases hother with hhead | ⟨-, hapart⟩
          · exact .inl (hhead.trans (congrArg List.head? hmiddle.symm))
          · exact .inr ⟨firm_of_none hfault, hapart⟩
        | cons c tail =>
          rw [htext] at hmiddle
          exact .inl (congrArg List.head? hmiddle).symm
      show (scan ((scan cs).text ++ (next (scan cs).rest).text ++ other)).andThen next = _
      rw [List.append_assoc, hagain _ hfits, andThen_of_none (by exact hfault)]
      show (next ((next (scan cs).rest).text ++ other)).after (scan cs).text = _
      rw [hnextAgain other (fits_after.mp hother)]
      rfl

/-- A scan that takes a run of characters is local, if no separator is among them. -/
theorem local_run {p : Char → Bool} (hseparators : ∀ c ∈ separators, p c = false) :
    Local (run p) := by
  intro cs
  refine ⟨List.takeWhile_append_dropWhile.symm, fun other hother => ?_⟩
  have hstop : ∀ c ∈ (cs.dropWhile p).head?, p c = false := by
    intro c hc
    have hnot := List.head?_dropWhile_not p cs
    rw [Option.mem_def.mp hc] at hnot
    simpa using hnot
  have hother := hother.head hseparators hstop
  -- the run ends with the text there too
  have hnone : other.takeWhile p = [] ∧ other.dropWhile p = other := by
    cases other with
    | nil => exact ⟨rfl, rfl⟩
    | cons c other => simp [hother c rfl]
  have hall : ∀ c ∈ cs.takeWhile p, p c = true := List.all_eq_true.mp List.all_takeWhile
  show run p (cs.takeWhile p ++ other) = _
  unfold run
  rw [List.takeWhile_append_of_pos hall, List.dropWhile_append_of_pos hall, hnone.1, hnone.2,
    List.append_nil]
  rfl

theorem not_any_head? {p : Char → Bool} {cs : List Char} :
    ¬cs.head?.any p = true ↔ ∀ c ∈ cs.head?, p c = false := by
  cases cs <;> simp

/-- There are digits if the first character is one. -/
theorem digits_eq (missing : LexicalFault) (cs : List Char) :
    digits missing cs =
      if (cs.head?.any Char.isDigit) then run Char.isDigit cs else stuck missing cs := by
  unfold digits
  cases cs with
  | nil => rfl
  | cons c cs => cases hc : c.isDigit <;> simp [hc]

theorem local_digits (missing : LexicalFault) : Local (digits missing) := by
  intro cs
  obtain ⟨hfront, hagain⟩ := local_run (p := Char.isDigit) (by simp [separators]) cs
  by_cases hdigit : cs.head?.any Char.isDigit
  · have hrun : digits missing cs = run Char.isDigit cs := by rw [digits_eq, if_pos hdigit]
    refine ⟨by rwa [hrun], fun other hother => ?_⟩
    rw [hrun] at hother ⊢
    rw [digits_eq, if_pos, hagain other hother]
    cases cs with
    | nil => simp at hdigit
    | cons c cs =>
      have hc : c.isDigit := by simpa using hdigit
      simp [run, taken, hc]
  · have hstuck : digits missing cs = stuck missing cs := by rw [digits_eq, if_neg hdigit]
    refine ⟨by rw [hstuck]; rfl, fun other hother => ?_⟩
    rw [hstuck] at hother ⊢
    have hnone : ∀ c ∈ other.head?, c.isDigit = false :=
      hother.head (by simp [separators]) (not_any_head?.mp hdigit)
    show digits missing other = _
    rw [digits_eq, if_neg (not_any_head?.mpr hnone)]
    rfl

theorem local_nothing : Local (taken []) := fun _ => ⟨rfl, fun _ _ => rfl⟩

/-- Characters that are taken in front of a local scan are taken again. -/
theorem localAt_after {scan next : List Char → Scan} (front : List Char) {cs : List Char}
    (hscan : ∀ ds, scan (front ++ ds) = (next ds).after front) (hnext : LocalAt next cs) :
    LocalAt scan (front ++ cs) := by
  obtain ⟨hfront, hagain⟩ := hnext
  constructor
  · rw [hscan]
    show front ++ cs = front ++ (next cs).text ++ (next cs).rest
    rw [List.append_assoc, ← hfront]
  · intro other hother
    rw [hscan] at hother ⊢
    show scan (front ++ (next cs).text ++ other) = _
    rw [List.append_assoc, hscan, hagain other (fits_after.mp hother)]
    rfl

theorem localAt_cons {scan next : List Char → Scan} {c : Char}
    (hscan : ∀ ds, scan (c :: ds) = (next ds).after [c]) (hnext : Local next) (cs : List Char) :
    LocalAt scan (c :: cs) :=
  localAt_after [c] hscan (hnext cs)

/-- At the end of the input a scan is local, since nothing else fits there. -/
theorem localAt_end {scan : List Char → Scan} {cs : List Char} (fault : LexicalFault)
    (h : scan cs = ⟨cs, [], some fault⟩) (hfault : ¬fault.Firm []) : LocalAt scan cs := by
  refine ⟨by rw [h, List.append_nil], fun other hother => ?_⟩
  rw [h] at hother ⊢
  obtain rfl : other = [] := by
    simpa using hother.resolve_right fun hfirm => hfault (hfirm.1 fault rfl)
  show scan (cs ++ []) = _
  rw [List.append_nil, h]
  rfl

/-- At its fault a scan is stuck again if the input begins alike. -/
theorem localAt_stuck {scan : List Char → Scan} {cs : List Char} (fault : LexicalFault)
    (h : ∀ other, other.head? = cs.head? → scan other = stuck fault other)
    (hfault : ¬fault.Firm cs) : LocalAt scan cs := by
  have hstuck := h cs rfl
  refine ⟨by rw [hstuck]; rfl, fun other hother => ?_⟩
  rw [hstuck] at hother ⊢
  show scan other = _
  rw [h other (hother.resolve_right fun hfirm => hfault (hfirm.1 fault rfl))]
  rfl

/-- An optional part is local if it is so where it is present, and if no separator begins it. -/
theorem local_optional (begins : Char → Bool) {scan : List Char → Scan}
    (hseparators : ∀ c ∈ separators, begins c = false)
    (habsent : ∀ cs, (∀ c ∈ cs.head?, begins c = false) → scan cs = taken [] cs)
    (hpresent : ∀ c cs, begins c → LocalAt scan (c :: cs)) : Local scan := by
  intro cs
  by_cases hcs : ∀ c ∈ cs.head?, begins c = false
  · refine ⟨by rw [habsent cs hcs]; rfl, fun other hother => ?_⟩
    rw [habsent cs hcs] at hother ⊢
    show scan other = _
    rw [habsent other (hother.head hseparators hcs)]
    rfl
  · cases cs with
    | nil => simp at hcs
    | cons c cs => exact hpresent c cs (by simpa using hcs)

theorem local_minus : Local minus := by
  apply local_optional (· == '-') (by simp [separators])
  · intro cs hcs
    unfold minus
    split <;> simp_all
  · intro c cs hc
    obtain rfl : c = '-' := by simpa using hc
    exact localAt_cons (fun _ => rfl) local_nothing cs

theorem integer_of_ne {cs : List Char} (h : cs.head? ≠ some '0') :
    integer cs = digits .missingDigit cs := by
  unfold integer
  split
  · simp at h
  · rfl

/-- A zero is taken by itself. A digit must not follow it. -/
theorem integer_zero (cs : List Char) : integer ('0' :: cs) =
    if cs.head?.any Char.isDigit then ⟨['0'], cs, some .leadingZero⟩ else taken ['0'] cs := by
  cases cs with
  | nil => rfl
  | cons c cs => rfl

theorem local_integer : Local integer := by
  intro cs
  by_cases hzero : cs.head? = some '0'
  · obtain ⟨cs, rfl⟩ : ∃ ds, cs = '0' :: ds := by
      cases cs with
      | nil => simp at hzero
      | cons c cs => exact ⟨cs, by simpa using hzero⟩
    have hscan : (integer ('0' :: cs)).text = ['0'] ∧ (integer ('0' :: cs)).rest = cs := by
      rw [integer_zero]
      split <;> exact ⟨rfl, rfl⟩
    refine ⟨by rw [hscan.1, hscan.2]; rfl, fun other hother => ?_⟩
    rw [hscan.1]
    show integer ('0' :: other) = _
    rw [integer_zero] at hother ⊢
    by_cases hdigit : cs.head?.any Char.isDigit
    · rw [if_pos hdigit] at hother
      have hapart : ¬Apart cs := by
        obtain ⟨c, ds, rfl⟩ : ∃ c ds, cs = c :: ds := by cases cs <;> simp_all
        exact not_apart (p := Char.isDigit) (by simp [separators]) (by simpa using hdigit) ds
      have hhead : other.head? = cs.head? :=
        hother.resolve_right fun hfirm => hapart (hfirm.1 .leadingZero rfl)
      rw [hhead, integer_zero, if_pos hdigit, if_pos hdigit]
      rfl
    · rw [if_neg hdigit] at hother
      have hnone : ∀ c ∈ other.head?, c.isDigit = false :=
        hother.head (by simp [separators]) (not_any_head?.mp hdigit)
      rw [if_neg (not_any_head?.mpr hnone), integer_zero, if_neg hdigit]
      rfl
  · obtain ⟨hfront, hagain⟩ := local_digits .missingDigit cs
    refine ⟨by rwa [integer_of_ne hzero], fun other hother => ?_⟩
    rw [integer_of_ne hzero] at hother ⊢
    rw [integer_of_ne, hagain other hother]
    -- there is no zero in front of the other input either
    cases htext : (digits .missingDigit cs).text with
    | nil =>
      rw [htext, List.nil_append] at hfront
      rcases hother with hhead | ⟨-, hapart⟩
      · rwa [List.nil_append, hhead, ← hfront]
      · exact fun hhead => absurd (hapart '0' hhead) (by decide)
    | cons c tail =>
      rw [htext] at hfront
      rwa [hfront] at hzero

theorem local_fraction : Local fraction := by
  apply local_optional (· == '.') (by simp [separators])
  · intro cs hcs
    unfold fraction
    split <;> simp_all
  · intro c cs hc
    obtain rfl : c = '.' := by simpa using hc
    exact localAt_cons (fun _ => rfl) (local_digits .missingFraction) cs

theorem local_exponentSign : Local exponentSign := by
  apply local_optional (fun c => c == '+' || c == '-') (by simp [separators])
  · intro cs hcs
    unfold exponentSign
    split <;> simp_all
  · intro c cs hc
    rcases (by simpa using hc : c = '+' ∨ c = '-') with rfl | rfl
    · exact localAt_cons (fun _ => rfl) local_nothing cs
    · exact localAt_cons (fun _ => rfl) local_nothing cs

theorem local_exponent : Local exponent := by
  apply local_optional (fun c => c = 'e' || c = 'E') (by simp [separators])
  · intro cs hcs
    cases cs with
    | nil => rfl
    | cons c cs => exact if_neg (by simpa using hcs c rfl)
  · intro c cs hc
    exact localAt_cons (fun _ => if_pos hc)
      (local_exponentSign.andThen (local_digits .missingExponent)) cs

theorem local_numberEnd : Local numberEnd := by
  apply local_optional (fun c => c = '.' || c = '_' || c.isAlpha) (by simp [separators])
  · intro cs hcs
    cases cs with
    | nil => rfl
    | cons c cs => exact if_neg (by simpa using hcs c rfl)
  · intro c cs hc
    refine localAt_stuck .numberRunsOn (fun other hother => ?_)
      (not_apart (p := fun c => c = '.' || c = '_' || c.isAlpha) (by simp [separators]) hc cs)
    obtain ⟨ds, rfl⟩ := List.head?_eq_some_iff.mp hother
    exact if_pos hc

/-- **Numbers** are scanned the same in front of any input that fits. -/
theorem local_number : Local number :=
  (((local_minus.andThen local_integer).andThen local_fraction).andThen local_exponent).andThen
    local_numberEnd

/-! ## Local Scans of Strings -/

/-- A character that is no quote, no backslash and no line end is taken by itself. -/
theorem quoted_cons {c : Char} (hquote : c ≠ '"') (hbackslash : c ≠ '\\') (ds : List Char) :
    quoted (c :: ds) =
      if isLineEnd c then stuck .unterminatedString (c :: ds) else (quoted ds).after [c] := by
  rw [quoted]
  all_goals simp_all

/-- **Quoted strings** end at their quote, or stop at the end of the line. -/
theorem local_quoted : Local quoted := by
  intro cs
  fun_induction quoted cs with
  | case1 => exact localAt_end .unterminatedString rfl id
  | case2 => exact localAt_end .unterminatedString rfl id
  | case3 c cs ih => exact localAt_after ['\\', c] (fun _ => by rfl) ih
  | case4 cs =>
    have hstep : ∀ ds, quoted ('"' :: ds) = (taken [] ds).after ['"'] := fun _ => by rfl
    exact localAt_cons hstep local_nothing cs
  | case5 c cs hend hbackslash hquote hline =>
    have hne : c ≠ '\\' := by
      rintro rfl
      cases cs <;> simp_all
    refine localAt_stuck .unterminatedString (fun other hother => ?_) id
    obtain ⟨ds, rfl⟩ := List.head?_eq_some_iff.mp hother
    rw [quoted_cons hquote hne, if_pos hline]
  | case6 c cs hend hbackslash hquote hline ih =>
    have hne : c ≠ '\\' := by
      rintro rfl
      cases cs <;> simp_all
    refine localAt_after [c] (fun ds => ?_) ih
    show quoted (c :: ds) = _
    rw [quoted_cons hquote hne, if_neg hline]

/-- A block string ends with its three quotes, or it leaves nothing. -/
theorem block_spec (cs : List Char) :
    (∃ front, (block cs).text = front ++ ['"', '"', '"'] ∧ (block cs).fault = none) ∨
      block cs = ⟨cs, [], some .unterminatedBlockString⟩ := by
  fun_induction block cs with
  | case1 cs => exact .inl ⟨[], rfl, rfl⟩
  | case2 cs ih =>
    rcases ih with ⟨front, htext, hfault⟩ | hend
    · exact .inl ⟨['\\', '"', '"', '"'] ++ front, by simp [after, htext], hfault⟩
    · exact .inr (by rw [hend]; rfl)
  | case3 c cs hquotes hescape ih =>
    rcases ih with ⟨front, htext, hfault⟩ | hend
    · exact .inl ⟨c :: front, by simp [after, htext], hfault⟩
    · exact .inr (by rw [hend]; rfl)
  | case4 => exact .inr rfl

/-- A character that begins neither three quotes nor their escape is taken by itself. -/
theorem block_cons {c : Char} {cs : List Char} (hquotes : ∀ ds, c :: cs ≠ '"' :: '"' :: '"' :: ds)
    (hescape : ∀ ds, c :: cs ≠ '\\' :: '"' :: '"' :: '"' :: ds) :
    block (c :: cs) = (block cs).after [c] := by
  rw [block]
  · exact fun ds hc hcs => hquotes ds (by rw [hc, hcs])
  · exact fun ds hc hcs => hescape ds (by rw [hc, hcs])

/-- **Block strings** end at three quotes, which are looked for four characters ahead. -/
theorem local_block : Local block := by
  intro cs
  fun_induction block cs with
  | case1 cs => exact localAt_after ['"', '"', '"'] (fun _ => by rfl) (local_nothing cs)
  | case2 cs ih =>
    exact localAt_after ['\\', '"', '"', '"'] (fun _ => by rfl) ih
  | case3 c cs hquotes hescape ih =>
    have hquotes : ∀ ds, c :: cs ≠ '"' :: '"' :: '"' :: ds := fun ds heq => by
      obtain ⟨hc, hcs⟩ := List.cons.inj heq
      exact hquotes ds hc hcs
    have hescape : ∀ ds, c :: cs ≠ '\\' :: '"' :: '"' :: '"' :: ds := fun ds heq => by
      obtain ⟨hc, hcs⟩ := List.cons.inj heq
      exact hescape ds hc hcs
    have hstep : block (c :: cs) = (block cs).after [c] := block_cons hquotes hescape
    obtain ⟨hfront, hagain⟩ := ih
    rcases block_spec cs with ⟨front, htext, -⟩ | hend
    · refine ⟨by rw [hstep]; exact congrArg (c :: ·) hfront, fun other hother => ?_⟩
      rw [hstep] at hother ⊢
      show block (c :: ((block cs).text ++ other)) = _
      -- the text of the rest is long enough to hold all that is looked ahead for
      obtain ⟨a, b, d, more, hlong⟩ : ∃ a b d more, (block cs).text = a :: b :: d :: more := by
        rw [htext]
        rcases front with _ | ⟨a, _ | ⟨b, _ | ⟨d, front⟩⟩⟩ <;> exact ⟨_, _, _, _, rfl⟩
      obtain ⟨rest, hcs⟩ : ∃ rest, cs = a :: b :: d :: (more ++ rest) := ⟨_, hlong ▸ hfront⟩
      rw [block_cons, hagain other (fits_after.mp hother)]
      · rfl
      · rintro ds heq
        obtain ⟨rfl, rfl, rfl, -⟩ : c = '"' ∧ a = '"' ∧ b = '"' ∧ _ := by simpa [hlong] using heq
        exact hquotes _ (by rw [hcs])
      · rintro ds heq
        obtain ⟨rfl, rfl, rfl, rfl, -⟩ : c = '\\' ∧ a = '"' ∧ b = '"' ∧ d = '"' ∧ _ := by
          simpa [hlong] using heq
        exact hescape _ (by rw [hcs])
    · exact localAt_end .unterminatedBlockString (by rw [hstep, hend]; rfl) id
  | case4 => exact localAt_end .unterminatedBlockString rfl id

end Scan

/-! ## Scanning Again -/

/-- Characters that begin no lexeme. -/
def isTrivia (c : Char) : Bool := isBlank c || c = '#'

/-- A lexeme that begins with trivia is malformed. -/
theorem scanLexeme_of_isTrivia {c : Char} (h : isTrivia c) (cs : List Char) :
    scanLexeme c cs = (.name, ⟨[c], cs, some (.unexpectedCharacter c)⟩) := by
  have hc : c = ' ' ∨ c = '\t' ∨ c = '\r' ∨ c = '\n' ∨ c = ',' ∨ c = '\ufeff' ∨ c = '#' := by
    simpa [isTrivia, isBlank, or_assoc] using h
  rcases hc with rfl | rfl | rfl | rfl | rfl | rfl | rfl <;> rfl

/-- The scan of a lexeme that begins with a character. -/
def LexemeAgain (c : Char) (cs : List Char) : Prop :=
  ∃ ds, (scanLexeme c cs).2.text = c :: ds ∧ cs = ds ++ (scanLexeme c cs).2.rest ∧
    ∀ other, (scanLexeme c cs).2.Fits other →
      scanLexeme c (ds ++ other) = ((scanLexeme c cs).1, (scanLexeme c cs).2.leaving other)

/-- A local scan that takes its first character scans a lexeme again. -/
theorem lexemeAgain_of_local {c : Char} {cs : List Char} (kind : List Char → TokenKind)
    (scan : List Char → Scan)
    (hlex : ∀ ds, scanLexeme c ds = (kind (scan (c :: ds)).text, scan (c :: ds)))
    (hlocal : Scan.Local scan) : LexemeAgain c cs := by
  have hlt := length_scanLexeme_lt c cs
  obtain ⟨hfront, hagain⟩ := hlocal (c :: cs)
  rw [hlex] at hlt
  unfold LexemeAgain
  simp only [hlex]
  cases htext : (scan (c :: cs)).text with
  | nil =>
    rw [htext, List.nil_append] at hfront
    exact absurd (congrArg List.length hfront) (Nat.ne_of_gt hlt)
  | cons d ds =>
    rw [htext] at hfront hagain
    obtain ⟨rfl, hcs⟩ := List.cons.inj hfront
    refine ⟨ds, rfl, hcs, fun other hother => ?_⟩
    rw [← List.cons_append, hagain other hother]
    exact congrArg (kind · , _) htext

/-- A quote that no two others follow begins a quoted string. -/
theorem scanLexeme_quoted {cs : List Char} (h : ∀ body, cs ≠ '"' :: '"' :: body) :
    scanLexeme '"' cs = (.string, (Scan.quoted cs).after ['"']) := by
  have hmark : Punctuator.ofChar? '"' = none := by decide
  simp only [scanLexeme, hmark, if_pos]

/-- A lexeme of one character is scanned again. -/
theorem lexemeAgain_of_single {c : Char} (kind : TokenKind) (fault : Option LexicalFault)
    (hlex : ∀ ds, scanLexeme c ds = (kind, ⟨[c], ds, fault⟩)) (cs : List Char) :
    LexemeAgain c cs :=
  ⟨[], by rw [hlex], by rw [hlex, List.nil_append],
    fun other _ => by rw [hlex, hlex, List.nil_append]; rfl⟩

/-- A block string is scanned again. -/
theorem lexemeAgain_block (body : List Char) : LexemeAgain '"' ('"' :: '"' :: body) := by
  have hlex : ∀ ds, scanLexeme '"' ('"' :: '"' :: ds) =
      (.blockString, (Scan.block ds).after ['"', '"', '"']) := fun _ => rfl
  obtain ⟨hfront, hagain⟩ := Scan.local_block body
  refine ⟨'"' :: '"' :: (Scan.block body).text, by rw [hlex]; rfl, ?_, fun other hother => ?_⟩
  · rw [hlex]
    exact congrArg ('"' :: '"' :: ·) hfront
  · rw [hlex] at hother ⊢
    show scanLexeme '"' ('"' :: '"' :: ((Scan.block body).text ++ other)) = _
    rw [hlex, hagain other (Scan.fits_after.mp hother)]
    rfl

/-- A quoted string is scanned again. -/
theorem lexemeAgain_quoted {cs : List Char} (h : ∀ body, cs ≠ '"' :: '"' :: body) :
    LexemeAgain '"' cs := by
  obtain ⟨hfront, hagain⟩ := Scan.local_quoted cs
  refine ⟨(Scan.quoted cs).text, by rw [scanLexeme_quoted h]; rfl, ?_, fun other hother => ?_⟩
  · rw [scanLexeme_quoted h]
    exact hfront
  · rw [scanLexeme_quoted h] at hother ⊢
    have hother := Scan.fits_after.mp hother
    -- no quotes come together with what fits behind the string
    have hone : ∀ body, (Scan.quoted cs).text ++ other ≠ '"' :: '"' :: body := by
      intro body heq
      have hnone : (∀ c ∈ (Scan.quoted cs).rest.head?, (c == '"') = false) →
          ∀ tail, other ≠ '"' :: tail := by
        rintro hrest tail rfl
        exact absurd (hother.head (by simp [separators]) hrest '"' rfl) (by decide)
      by_cases hhead : cs.head? = some '"'
      · obtain ⟨rest, rfl⟩ := List.head?_eq_some_iff.mp hhead
        refine hnone (fun c hc => ?_) body (List.cons.inj heq).2
        obtain ⟨tail, rfl⟩ := List.head?_eq_some_iff.mp hc
        exact beq_eq_false_iff_ne.mpr fun hc => h tail (by rw [hc])
      · cases htext : (Scan.quoted cs).text with
        | nil =>
          rw [htext, List.nil_append] at hfront heq
          refine hnone (fun c hc => ?_) _ heq
          rw [← hfront] at hc
          exact beq_eq_false_iff_ne.mpr fun hc' => hhead (hc' ▸ hc)
        | cons d ds =>
          rw [htext] at hfront heq
          obtain ⟨rfl, -⟩ := List.cons.inj heq
          exact hhead (by rw [hfront]; rfl)
    rw [scanLexeme_quoted hone, hagain other hother]
    rfl

/-- **Lexemes** are scanned the same in front of any input that fits. -/
theorem lexemeAgain (c : Char) (cs : List Char) : LexemeAgain c cs := by
  cases hmark : Punctuator.ofChar? c with
  | some mark =>
    exact lexemeAgain_of_single (.punctuator mark) none
      (fun ds => by simp only [scanLexeme, hmark, Scan.taken]) cs
  | none =>
    by_cases hquote : c = '"'
    · subst hquote
      by_cases h : ∀ body, cs ≠ '"' :: '"' :: body
      · exact lexemeAgain_quoted h
      · obtain ⟨body, rfl⟩ : ∃ body, cs = '"' :: '"' :: body := by simpa using h
        exact lexemeAgain_block body
    · by_cases hnumber : c = '-' || c.isDigit
      · exact lexemeAgain_of_local numberKind Scan.number
          (fun ds => by simp only [scanLexeme, hmark, if_neg hquote, if_pos hnumber])
          Scan.local_number
      · by_cases hname : isNameStart c
        · exact lexemeAgain_of_local wordKind (Scan.run isNamePart)
            (fun ds => by simp only [scanLexeme, hmark, if_neg hquote, if_neg hnumber,
              if_pos hname])
            (Scan.local_run (by simp [separators, isNamePart]))
        · exact lexemeAgain_of_single .name (some (.unexpectedCharacter c))
            (fun ds => by simp only [scanLexeme, hmark, if_neg hquote, if_neg hnumber,
              if_neg hname]) cs

/-- **Scanned again**: in front of any input that is apart, the text is scanned as one lexeme of the
    given kind. -/
def ScansAs (kind : TokenKind) (text : List Char) : Prop :=
  ∀ rest, Apart rest → ∃ c cs, text ++ rest = c :: cs ∧ scanLexeme c cs = (kind, .taken text rest)

/-- The text of a token is scanned as the same one again. -/
theorem scansAs_of_scan {c : Char} {cs text rest : List Char} {kind : TokenKind}
    (h : scanLexeme c cs = (kind, .taken text rest)) : ScansAs kind text := by
  intro other hother
  obtain ⟨ds, htext, -, hagain⟩ := lexemeAgain c cs
  rw [h] at htext hagain
  obtain rfl : text = c :: ds := htext
  exact ⟨c, ds ++ other, rfl, hagain other (.inr ⟨Scan.firm_of_none rfl, hother⟩)⟩

/-! ## Quoted Strings -/

/-- Characters that a quoted string holds as they are. -/
def isPlain (c : Char) : Bool := !(c = '"' || c = '\\' || isLineEnd c)

/-- A hexadecimal digit is plain, takes one byte and stands for its value. -/
theorem upperDigit_spec : ∀ n < 16, isPlain (Hex.upperDigit n) ∧ (Hex.upperDigit n).utf8Size = 1 ∧
    Hex.upperDigit n ≠ '+' ∧ Hex.digit? (Hex.upperDigit n) = some n := by decide

/-- A character code is read as it is written. -/
theorem readCode_quad {n : Nat} (h : n < 65536) : readCode (Hex.quad n) = .ok n := by
  obtain ⟨-, hsize₃, hplus, hdigit₃⟩ := upperDigit_spec (n / 4096 % 16) (by omega)
  obtain ⟨-, hsize₂, -, hdigit₂⟩ := upperDigit_spec (n / 256 % 16) (by omega)
  obtain ⟨-, hsize₁, -, hdigit₁⟩ := upperDigit_spec (n / 16 % 16) (by omega)
  obtain ⟨-, hsize₀, -, hdigit₀⟩ := upperDigit_spec (n % 16) (by omega)
  have hbytes : byteLength (Hex.quad n) = 4 := by
    simp [Hex.quad, hsize₃, hsize₂, hsize₁, hsize₀]
  -- no sign is in front of the digits
  have hnumber : codeNumber? (Hex.quad n) = Hex.continue? 0 (Hex.quad n) := by
    unfold codeNumber? Hex.quad
    simp only [List.map_cons]
    split <;> simp_all
  have hvalue : Hex.continue? 0 (Hex.quad n) = some n := by
    simp only [Hex.quad, List.map_cons, List.map_nil, Hex.continue?, hdigit₃, hdigit₂, hdigit₁,
      hdigit₀, Option.bind_some]
    congr 1
    omega
  rw [readCode, if_pos hbytes, hnumber, hvalue]

open Value (quoteChar)

/-- The spelling of a character inside quotes: itself, a backslash with one character, or a code. -/
theorem quoteChar_cases (c : Char) :
    (isPlain c ∧ quoteChar c = [c]) ∨
      (∃ d, quoteChar c = ['\\', d] ∧ simpleEscape? d = some c) ∨
      (c.toNat < 0xA0 ∧ quoteChar c = '\\' :: 'u' :: Hex.quad c.toNat) := by
  unfold quoteChar
  split
  · rename_i hc
    exact .inr (.inl ⟨'"', rfl, by rw [hc]; rfl⟩)
  split
  · rename_i hc
    exact .inr (.inl ⟨'\\', rfl, by rw [hc]; rfl⟩)
  split
  · rename_i hc
    exact .inr (.inl ⟨'n', rfl, by rw [hc]; rfl⟩)
  split
  · rename_i hc
    exact .inr (.inl ⟨'r', rfl, by rw [hc]; rfl⟩)
  split
  · rename_i hc
    exact .inr (.inl ⟨'t', rfl, by rw [hc]; rfl⟩)
  split
  · rename_i hcontrol
    refine .inr (.inr ⟨?_, rfl⟩)
    simp only [Value.isControl, Bool.or_eq_true, Bool.and_eq_true, decide_eq_true_eq] at hcontrol
    omega
  · exact .inl ⟨by simp_all [isPlain, isLineEnd], rfl⟩

theorem Scan.after_after (scan : Scan) (front middle : List Char) :
    (scan.after middle).after front = scan.after (front ++ middle) := by
  simp [Scan.after]

/-- Plain characters are taken one by one. -/
theorem quoted_plain {cs : List Char} (h : cs.all isPlain) (rest : List Char) :
    Scan.quoted (cs ++ rest) = (Scan.quoted rest).after cs := by
  induction cs with
  | nil => rfl
  | cons c cs ih =>
    obtain ⟨hc, hcs⟩ : isPlain c ∧ cs.all isPlain := by simpa using h
    have hne : c ≠ '"' ∧ c ≠ '\\' ∧ isLineEnd c = false := by simpa [isPlain, and_assoc] using hc
    have hstep : Scan.quoted (c :: (cs ++ rest)) = (Scan.quoted (cs ++ rest)).after [c] := by
      simp [Scan.quoted, hne]
    rw [List.cons_append, hstep, ih hcs, Scan.after_after]
    rfl

/-- The spelling of a character is taken as a whole. -/
theorem quoted_quoteChar (c : Char) (rest : List Char) :
    Scan.quoted (quoteChar c ++ rest) = (Scan.quoted rest).after (quoteChar c) := by
  rcases quoteChar_cases c with ⟨hplain, heq⟩ | ⟨d, heq, -⟩ | ⟨-, heq⟩
  · rw [heq]
    exact quoted_plain (by simpa using hplain) rest
  · rw [heq]
    simp [Scan.quoted]
  · -- a backslash takes the letter behind it, and the digits are plain
    have hdigits : (Hex.quad c.toNat).all isPlain := by
      simp [Hex.quad, (upperDigit_spec _ (Nat.mod_lt _ (by decide : 0 < 16))).1]
    rw [heq]
    show (Scan.quoted (Hex.quad c.toNat ++ rest)).after ['\\', 'u'] = _
    rw [quoted_plain hdigits, Scan.after_after]
    rfl

theorem quoted_flatMap (cs rest : List Char) :
    Scan.quoted (cs.flatMap quoteChar ++ '"' :: rest) =
      .taken (cs.flatMap quoteChar ++ ['"']) rest := by
  induction cs with
  | nil => simp [Scan.quoted]
  | cons c cs ih =>
    rw [List.flatMap_cons, List.append_assoc, quoted_quoteChar, ih]
    simp [Scan.after, Scan.taken]

/-- The spelling of a character stands for it. -/
theorem unquote_quoteChar (c : Char) (rest : List Char) :
    unquote (quoteChar c ++ rest) = (unquote rest).map (c :: ·) := by
  rcases quoteChar_cases c with ⟨hplain, heq⟩ | ⟨d, heq, hd⟩ | ⟨hsmall, heq⟩
  · have hne : c ≠ '\\' := by
      rintro rfl
      exact absurd hplain (by decide)
    rw [heq]
    simp [unquote, hne]
    rfl
  · have hu : d ≠ 'u' := by
      rintro rfl
      simp [simpleEscape?] at hd
    rw [heq]
    simp [unquote, hd]
    rfl
  · -- only control characters are written as codes, and none of them is a surrogate
    have hcode : readCode (Hex.quad c.toNat) = .ok c.toNat := readCode_quad (by omega)
    have hhigh : isHighSurrogate c.toNat = false := by
      simp [isHighSurrogate]
      omega
    have hlow : isLowSurrogate c.toNat = false := by
      simp [isLowSurrogate]
      omega
    have htake : (Hex.quad c.toNat ++ rest).take 4 = Hex.quad c.toNat := rfl
    have hdrop : (Hex.quad c.toNat ++ rest).drop 4 = rest := rfl
    rw [heq, List.cons_append, List.cons_append, unquote, htake, hcode]
    simp [bind, Except.bind, hhigh, hlow, hdrop]
    rfl

theorem unquote_flatMap (cs : List Char) : unquote (cs.flatMap quoteChar) = .ok cs := by
  induction cs with
  | nil => simp [unquote]
  | cons c cs ih =>
    rw [List.flatMap_cons, unquote_quoteChar, ih]
    rfl

/-- The spelling of a string does not begin with a quote. -/
theorem head?_flatMap_quoteChar (cs : List Char) : (cs.flatMap quoteChar).head? ≠ some '"' := by
  cases cs with
  | nil => simp
  | cons c cs =>
    rw [List.flatMap_cons]
    rcases quoteChar_cases c with ⟨hplain, heq⟩ | ⟨d, heq, -⟩ | ⟨-, heq⟩ <;> rw [heq]
    · intro hc
      obtain rfl : c = '"' := by simpa using hc
      exact absurd hplain (by decide)
    · simp
    · simp

/-- A quoted string is scanned as one token. -/
theorem scansAs_quote (contents : String) :
    ScansAs .string (Value.quote contents).toList := by
  intro rest hrest
  have hhead := head?_flatMap_quoteChar contents.toList
  have hquoted := quoted_flatMap contents.toList rest
  generalize hbody : contents.toList.flatMap quoteChar = body at hhead hquoted
  have htext : (Value.quote contents).toList = '"' :: (body ++ ['"']) := by
    simp [Value.quote, hbody]
  refine ⟨'"', body ++ '"' :: rest, by simp [htext], ?_⟩
  have hmark : Punctuator.ofChar? '"' = none := by decide
  simp only [scanLexeme, hmark, if_pos]
  -- three quotes do not come together
  split
  · rename_i hthree
    cases body with
    | nil =>
      obtain ⟨-, rfl⟩ := List.cons.inj hthree
      exact absurd (hrest '"' rfl) (by decide)
    | cons c body =>
      obtain ⟨rfl, -⟩ := List.cons.inj hthree
      exact absurd rfl hhead
  · rw [hquoted, htext]
    rfl

/-- A token with the text of a quoted string stands for the string. -/
theorem unquote_quote (contents : String) :
    unquote (literalBody 1 (Value.quote contents)) = .ok contents.toList := by
  have hbody : literalBody 1 (Value.quote contents) = contents.toList.flatMap quoteChar := by
    simp [literalBody, Value.quote]
  rw [hbody, unquote_flatMap]

/-! ## Punctuators and Keywords -/

/-- A punctuator is scanned as such. -/
theorem scansAs_mark (mark : Punctuator) : ScansAs (.punctuator mark) [mark.char] := by
  intro rest _
  refine ⟨mark.char, rest, rfl, ?_⟩
  cases mark <;> rfl

/-- A keyword is scanned as such. -/
theorem scansAs_keyword (word : Keyword) : ScansAs (.keyword word) word.text.toList := by
  have hscan : scanLexeme (word.text.toList.headD ' ') word.text.toList.tail =
      (.keyword word, .taken word.text.toList []) := by
    cases word <;> decide +kernel
  exact scansAs_of_scan hscan

end SchemaModel.Sdl
