import SchemaModel.Proofs.Relocation
import SchemaModel.Proofs.Spelling

/-! # Trivia

    What stands between the lexemes of a source has no bearing on them.

    * **Trivia**: blanks and comments.
    * **Shifts**: the lexemes of a text at another offset are the same ones, shifted.
    * **Cuts**: a source is cut in two between its lexemes. The ones in front stay as they are when
      something else that is apart is put behind them.
    * **Gaps**: other trivia between two lexemes, as long as there is some, leaves all lexemes as they
      are, up to where they stand. -/

namespace SchemaModel.Sdl

open Movable (move)

/-! ## Trivia -/

/-- **Trivia**: blanks and comments. A comment is opened by `#` and closed by a line end, and the two
    flags tell whether one is open in front of the characters and behind them. -/
inductive Trivia : Bool → List Char → Bool → Prop
  | nil {inside : Bool} : Trivia inside [] inside
  | blank {c : Char} {cs : List Char} {after : Bool} :
      isBlank c → Trivia false cs after → Trivia false (c :: cs) after
  | opening {cs : List Char} {after : Bool} : Trivia true cs after → Trivia false ('#' :: cs) after
  | inside {c : Char} {cs : List Char} {after : Bool} :
      isLineEnd c = false → Trivia true cs after → Trivia true (c :: cs) after
  | closing {c : Char} {cs : List Char} {after : Bool} :
      isLineEnd c → Trivia false cs after → Trivia true (c :: cs) after

section

variable {inside after : Bool} {cs rest : List Char}

/-- Blanks are trivia. -/
theorem trivia_of_blanks (h : ∀ c ∈ cs, isBlank c) : Trivia false cs false := by
  induction cs with
  | nil => exact .nil
  | cons c cs ih =>
    obtain ⟨hc, hcs⟩ := List.forall_mem_cons.mp h
    exact .blank hc (ih hcs)

/-- The lexer splits off trivia, and then what trivia there is behind it. -/
theorem Trivia.split (h : Trivia inside cs after) (rest : List Char) :
    splitTrivia inside (cs ++ rest) =
      (cs ++ (splitTrivia after rest).1, (splitTrivia after rest).2) := by
  induction h with
  | nil => rfl
  | @blank c _ _ hc _ ih =>
    have hcomment : ¬c = '#' := by
      rintro rfl
      exact absurd hc (by decide)
    simp [splitTrivia, hc, hcomment, ih]
  | opening _ ih => simp [splitTrivia, isLineEnd, ih]
  | inside hc _ ih => simp [splitTrivia, hc, ih]
  | closing hc _ ih => simp [splitTrivia, hc, ih]

/-- What the lexer splits off is trivia, and no comment is open where a lexeme begins. -/
theorem trivia_splitTrivia (inside : Bool) (cs : List Char) :
    (∃ after, Trivia inside (splitTrivia inside cs).1 after ∧
      ∀ c ∈ (splitTrivia inside cs).2.head?, after = false ∧ ¬isTrivia c) ∧
    cs = (splitTrivia inside cs).1 ++ (splitTrivia inside cs).2 := by
  induction cs generalizing inside with
  | nil => exact ⟨⟨inside, .nil, by simp [splitTrivia]⟩, rfl⟩
  | cons c cs ih =>
    unfold splitTrivia
    split
    · rename_i hc
      obtain ⟨⟨after, htrivia, hhead⟩, hcs⟩ := ih ((inside || c = '#') && !isLineEnd c)
      refine ⟨⟨after, ?_, hhead⟩, congrArg (c :: ·) hcs⟩
      cases inside with
      | true =>
        cases hend : isLineEnd c with
        | true => exact .closing hend (by simpa [hend] using htrivia)
        | false => exact .inside hend (by simpa [hend] using htrivia)
      | false =>
        by_cases hcomment : c = '#'
        · subst hcomment
          exact .opening (by simpa [isLineEnd] using htrivia)
        · exact .blank (by simpa [hcomment] using hc) (by simpa [hcomment] using htrivia)
    · rename_i hc
      refine ⟨⟨inside, .nil, ?_⟩, rfl⟩
      rintro d hd
      obtain rfl : c = d := by simpa using hd
      simp only [Bool.or_eq_true, not_or, Bool.not_eq_true] at hc
      exact ⟨hc.1.2, by simp [isTrivia, hc]⟩

/-- Trivia is apart from what stands in front of it. -/
theorem Trivia.apart (h : Trivia false cs after) (hne : cs ≠ []) (rest : List Char) :
    Apart (cs ++ rest) := by
  cases h with
  | nil => exact absurd rfl hne
  | @blank c _ _ hc _ =>
    have hc : c = ' ' ∨ c = '\t' ∨ c = '\r' ∨ c = '\n' ∨ c = ',' ∨ c = '\ufeff' := by
      simpa [isBlank, or_assoc] using hc
    rcases hc with rfl | rfl | rfl | rfl | rfl | rfl <;> exact apart_cons (by decide) _
  | opening _ => exact apart_cons (by decide) _

end

/-- **Gaps**: trivia in front of a lexeme, or at the end of a source, where a comment need not be
    closed. -/
def Gap (cs back : List Char) : Prop :=
  ∃ after, Trivia false cs after ∧ (back ≠ [] → after = false)

theorem Trivia.gap {cs : List Char} (h : Trivia false cs false) (back : List Char) : Gap cs back :=
  ⟨false, h, fun _ => rfl⟩

/-- The lexer steps over a gap. -/
theorem lexemesFrom_gap {cs back : List Char} (h : Gap cs back) (offset : Nat) :
    lexemesFrom offset (cs ++ back) = lexemesFrom (offset + byteLength cs) back := by
  obtain ⟨after, htrivia, hafter⟩ := h
  -- an open comment goes up to the end
  have hback : splitTrivia after back = splitTrivia false back := by
    cases back with
    | nil => rfl
    | cons c back => rw [hafter (List.cons_ne_nil c back)]
  rw [lexemesFrom_of_split offset (htrivia.split back), hback,
    lexemesFrom_of_split (offset + byteLength cs) rfl]
  simp only [byteLength_append, Nat.add_assoc]

/-! ## Shifts -/

instance : Movable Lexeme where
  move f
    | .token token => .token (move f token)
    | .malformed fault span text => .malformed fault (move f span) text
    | .endOfInput offset => .endOfInput (f offset)

theorem move_ofScan (f : Nat → Nat) (start : Nat) (kind : TokenKind) (scan : Scan) :
    move f (Lexeme.ofScan start kind scan) =
      match scan.fault with
      | none => .token ⟨kind, ⟨f start, f (start + byteLength scan.text)⟩, .ofList scan.text⟩
      | some fault =>
        .malformed fault ⟨f start, f (start + byteLength scan.text)⟩ (.ofList scan.text) := by
  unfold Lexeme.ofScan
  cases scan.fault <;> rfl

/-- Lexemes are moved alike if all their offsets are. -/
theorem lexemesFrom_map_congr {f g : Nat → Nat} {offset : Nat} {cs : List Char}
    (h : ∀ n, offset ≤ n → n ≤ offset + byteLength cs → f n = g n) :
    (lexemesFrom offset cs).map (move f) = (lexemesFrom offset cs).map (move g) := by
  fun_induction lexemesFrom offset cs with
  | case1 offset cs start hsplit =>
    have hcs := congrArg byteLength (trivia_splitTrivia false cs).2
    rw [byteLength_append] at hcs
    have hstart : f start = g start := h start (by omega) (by omega)
    exact congrArg (fun n => [Lexeme.endOfInput n]) hstart
  | case2 offset cs start d ds hsplit scan ih =>
    have hcs := congrArg byteLength (trivia_splitTrivia false cs).2
    obtain ⟨es, htext, hds, -⟩ := lexemeAgain d ds
    have hscan : byteLength (d :: ds) = byteLength scan.text + byteLength scan.rest := by
      rw [show scan.text = d :: es from htext, ← byteLength_append, List.cons_append, ← hds]
    rw [hsplit, byteLength_append, hscan] at hcs
    have hstart : f start = g start := h start (by omega) (by omega)
    have hstop : f (start + byteLength scan.text) = g (start + byteLength scan.text) :=
      h _ (by omega) (by omega)
    rw [List.map_cons, List.map_cons, move_ofScan, move_ofScan, hstart, hstop,
      ih fun n hle hge => h n (by omega) (by omega)]

theorem ofScan_add (k start : Nat) (kind : TokenKind) (scan : Scan) :
    Lexeme.ofScan (start + k) kind scan = move (· + k) (Lexeme.ofScan start kind scan) := by
  have hstop : start + byteLength scan.text + k = start + k + byteLength scan.text :=
    Nat.add_right_comm _ _ _
  have hmove := move_ofScan (· + k) start kind scan
  rw [hstop] at hmove
  exact hmove.symm

/-- **Shifts**: the lexemes of a text further on are the same ones, further on. -/
theorem lexemesFrom_add (k offset : Nat) (cs : List Char) :
    lexemesFrom (offset + k) cs = (lexemesFrom offset cs).map (move (· + k)) := by
  fun_induction lexemesFrom offset cs with
  | case1 offset cs start hsplit =>
    rw [lexemesFrom_of_split (offset + k) rfl, hsplit]
    exact congrArg (fun n => [Lexeme.endOfInput n]) (Nat.add_right_comm _ _ _)
  | case2 offset cs start d ds hsplit scan ih =>
    have hstart : offset + k + byteLength (splitTrivia false cs).1 = start + k :=
      Nat.add_right_comm _ _ _
    have hstop : start + k + byteLength scan.text = start + byteLength scan.text + k :=
      Nat.add_right_comm _ _ _
    rw [lexemesFrom_of_split (offset + k) rfl, hsplit, List.map_cons, ← ih, ← ofScan_add, ← hstop,
      ← hstart]

/-- The lexemes of a text at two offsets, if what lies at the one is moved to the other. -/
theorem lexemesFrom_shift {f : Nat → Nat} {offset other : Nat}
    (h : ∀ n, f (offset + n) = other + n) (cs : List Char) :
    (lexemesFrom offset cs).map (move f) = lexemesFrom other cs := by
  have hboth : (fun n => f (n + offset)) = (· + other) := by
    funext n
    rw [Nat.add_comm n offset, h, Nat.add_comm]
  have hoffset := lexemesFrom_add offset 0 cs
  have hother := lexemesFrom_add other 0 cs
  rw [Nat.zero_add] at hoffset hother
  rw [hoffset, hother, List.map_map, ← hboth]
  refine List.map_congr_left fun l _ => ?_
  cases l <;> rfl

theorem move_id (ts : List Token) : move id ts = ts := List.map_id ts

/-- Tokens that are moved. -/
theorem map_move_token (f : Nat → Nat) (ts : List Token) :
    (ts.map Lexeme.token).map (move f) = (move f ts).map Lexeme.token := by
  show _ = (ts.map (move f)).map Lexeme.token
  rw [List.map_map, List.map_map]
  rfl

/-- The tokens of shifted lexemes are shifted. -/
theorem ofLexemes_map_move (f : Nat → Nat) (offset : Nat) (cs : List Char) :
    Feed.ofLexemes ((lexemesFrom offset cs).map (move f)) =
      move f (Feed.ofLexemes (lexemesFrom offset cs)) := by
  fun_induction lexemesFrom offset cs with
  | case1 => rfl
  | case2 offset cs start d ds hsplit scan ih =>
    rw [List.map_cons]
    unfold Lexeme.ofScan
    cases scan.fault with
    | some fault => rfl
    | none =>
      show Feed.ofLexemes (.token _ :: _) = move f (Feed.ofLexemes (.token _ :: _))
      rw [Feed.ofLexemes, ih]
      rfl

/-! ## Cuts -/

theorem byteLength_eq_zero {cs : List Char} : byteLength cs = 0 ↔ cs = [] := by
  cases cs with
  | nil => simp
  | cons c cs =>
    have hpos := c.utf8Size_pos
    simp
    omega

/-- A text is split in only one way into parts of given lengths. -/
theorem append_inj_of_byteLength {as bs cs ds : List Char} (h : as ++ bs = cs ++ ds)
    (hlength : byteLength as = byteLength cs) : as = cs ∧ bs = ds := by
  rcases List.append_eq_append_iff.mp h with ⟨more, rfl, rfl⟩ | ⟨more, rfl, rfl⟩ <;>
  · rw [byteLength_append] at hlength
    obtain rfl : more = [] := byteLength_eq_zero.mp (by omega)
    simp

/-- The byte behind a lexeme. -/
def Lexeme.stop? : Lexeme → Option Nat
  | .token t => some t.span.stop
  | .malformed _ span _ => some span.stop
  | .endOfInput _ => none

/-- Does a lexeme in front of this input stay the same if anything that is apart takes the place of the
    input? -/
def Lexeme.Firm (rest : List Char) : Lexeme → Prop
  | .token _ => True
  | .malformed fault _ _ => fault.Firm rest
  | .endOfInput _ => False

theorem firm_ofScan {start : Nat} {kind : TokenKind} {scan : Scan} :
    (Lexeme.ofScan start kind scan).Firm scan.rest ↔ scan.Firm := by
  unfold Lexeme.ofScan Scan.Firm
  cases scan.fault <;> simp [Lexeme.Firm]

theorem stop?_ofScan (start : Nat) (kind : TokenKind) (scan : Scan) :
    (Lexeme.ofScan start kind scan).stop? = some (start + byteLength scan.text) := by
  unfold Lexeme.ofScan
  cases scan.fault <;> rfl

/-- One step of the lexer, which is made again in front of other input. -/
theorem lexemesFrom_cases (offset : Nat) (cs : List Char) :
    (∃ stop, lexemesFrom offset cs = [.endOfInput stop]) ∨
      ∃ blank kind scan, Trivia false blank false ∧ scan.text ≠ [] ∧
        cs = blank ++ scan.text ++ scan.rest ∧
        ∀ other, scan.Fits other → lexemesFrom offset (blank ++ scan.text ++ other) =
          .ofScan (offset + byteLength blank) kind scan ::
            lexemesFrom (offset + byteLength (blank ++ scan.text)) other := by
  obtain ⟨⟨after, htrivia, hhead⟩, hcs⟩ := trivia_splitTrivia false cs
  generalize hblank : (splitTrivia false cs).1 = blank at htrivia hcs
  cases hrest : (splitTrivia false cs).2 with
  | nil =>
    refine .inl ⟨offset + byteLength blank, ?_⟩
    rw [lexemesFrom_of_split offset (Prod.ext hblank hrest)]
  | cons d ds =>
    rw [hrest] at hhead hcs
    obtain ⟨rfl, hd⟩ := hhead d rfl
    obtain ⟨es, htext, hds, hagain⟩ := lexemeAgain d ds
    refine .inr ⟨blank, (scanLexeme d ds).1, (scanLexeme d ds).2, htrivia, by simp [htext], ?_,
      fun other hother => ?_⟩
    · rw [htext, List.append_assoc, List.cons_append, ← hds]
      exact hcs
    · have hnone : splitTrivia false (d :: (es ++ other)) = ([], d :: (es ++ other)) := by
        simpa [splitTrivia, isTrivia] using hd
      have hsplit := htrivia.split (d :: (es ++ other))
      rw [hnone, List.append_nil] at hsplit
      rw [htext, List.append_assoc, List.cons_append, lexemesFrom_of_split offset hsplit]
      simp only [hagain other hother]
      show Lexeme.ofScan _ _ (scanLexeme d ds).2 :: lexemesFrom _ other = _
      simp only [Scan.leaving, htext, byteLength_append, Nat.add_assoc]

/-- What is in front of a place behind a lexeme is cut into the same lexemes again. -/
theorem lexemesFrom_behind {offset : Nat} {cs : List Char} {l : Lexeme} {ls ms : List Lexeme}
    {stop : Nat} (h : lexemesFrom offset cs = ls ++ l :: ms) (hstop : l.stop? = some stop) :
    ∃ front back, front ≠ [] ∧ cs = front ++ back ∧ stop = offset + byteLength front ∧
      ms = lexemesFrom stop back ∧ (l.Firm back → ∀ other, Apart other →
        lexemesFrom offset (front ++ other) = ls ++ l :: lexemesFrom stop other) := by
  induction ls generalizing offset cs with
  | nil =>
    rcases lexemesFrom_cases offset cs with ⟨n, hend⟩ | ⟨blank, kind, scan, -, hne, rfl, hgo⟩
    · obtain ⟨rfl, -⟩ := List.cons.inj (hend.symm.trans h)
      cases hstop
    · obtain ⟨rfl, rfl⟩ := List.cons.inj ((hgo scan.rest (.inl rfl)).symm.trans h)
      rw [stop?_ofScan] at hstop
      obtain rfl : offset + byteLength (blank ++ scan.text) = stop := by
        rw [byteLength_append, ← Nat.add_assoc]
        exact Option.some.inj hstop
      refine ⟨blank ++ scan.text, scan.rest, by simp [hne], rfl, rfl, rfl,
        fun hfirm other hother => ?_⟩
      exact hgo other (.inr ⟨firm_ofScan.mp hfirm, hother⟩)
  | cons l' ls ih =>
    rcases lexemesFrom_cases offset cs with ⟨n, hend⟩ | ⟨blank, kind, scan, -, hne, rfl, hgo⟩
    · have hnil := (List.cons.inj (hend.symm.trans h)).2
      simp at hnil
    · obtain ⟨rfl, htail⟩ := List.cons.inj ((hgo scan.rest (.inl rfl)).symm.trans h)
      obtain ⟨more, back, hmore, hrest, rfl, rfl, hagain⟩ := ih htail
      refine ⟨blank ++ scan.text ++ more, back, by simp [hne], by simp [hrest],
        by rw [byteLength_append _ more, Nat.add_assoc], rfl, fun hfirm other hother => ?_⟩
      -- the characters of the later lexemes begin what is left as they did
      obtain ⟨c, tail, rfl⟩ := List.exists_cons_of_ne_nil hmore
      rw [List.append_assoc _ (c :: tail), hgo (c :: tail ++ other) (.inl (by rw [hrest]; rfl)),
        hagain hfirm other hother]
      rfl

/-- In front of a token there is trivia. -/
theorem lexemesFrom_front {offset : Nat} {cs : List Char} {token : Token} {ms : List Lexeme}
    (h : lexemesFrom offset cs = .token token :: ms) :
    ∃ gap back, cs = gap ++ back ∧ Trivia false gap false ∧
      token.span.start = offset + byteLength gap := by
  rcases lexemesFrom_cases offset cs with ⟨n, hend⟩ | ⟨blank, kind, scan, hblank, -, rfl, hgo⟩
  · cases (List.cons.inj (hend.symm.trans h)).1
  · obtain ⟨htoken, -⟩ := List.cons.inj ((hgo scan.rest (.inl rfl)).symm.trans h)
    refine ⟨blank, scan.text ++ scan.rest, List.append_assoc _ _ _, hblank, ?_⟩
    unfold Lexeme.ofScan at htoken
    cases hfault : scan.fault with
    | some fault => simp [hfault] at htoken
    | none =>
      simp only [hfault, Lexeme.token.injEq] at htoken
      rw [← htoken]

/-- **Cuts**: the source is cut in two between its lexemes, either right behind the last one in front
    or in the trivia behind that. -/
structure Cut (source : String) (front back : List Char) (ls ms : List Lexeme) : Prop where
  text : source.toList = front ++ back
  lexemes : lexemes source = ls ++ ms
  place : ∃ body gap, front = body ++ gap ∧ Trivia false gap false ∧
    ((ls = [] ∧ body = []) ∨
      ∃ l, ls.getLast? = some l ∧ l.stop? = some (byteLength body) ∧ l.Firm (gap ++ back))

variable {source : String} {front back : List Char} {ls ms : List Lexeme}

/-- The lexemes in front of a cut stay as they are in front of anything else that is apart, and those
    behind it are the ones of the characters behind it. -/
theorem Cut.again (h : Cut source front back ls ms) :
    ms = lexemesFrom (byteLength front) back ∧ ∀ other, Apart other →
      lexemesFrom 0 (front ++ other) = ls ++ lexemesFrom (byteLength front) other := by
  obtain ⟨htext, hlexemes, body, gap, rfl, hgap, hlast⟩ := h
  -- the gap is stepped over
  suffices hbody : ms = lexemesFrom (byteLength body) (gap ++ back) ∧ ∀ other, Apart other →
      lexemesFrom 0 (body ++ other) = ls ++ lexemesFrom (byteLength body) other by
    obtain ⟨hms, hagain⟩ := hbody
    refine ⟨by rw [hms, lexemesFrom_gap (hgap.gap back), byteLength_append], fun other hother => ?_⟩
    have hapart : Apart (gap ++ other) := by
      by_cases hnil : gap = []
      · rwa [hnil]
      · exact hgap.apart hnil other
    rw [List.append_assoc, hagain _ hapart, lexemesFrom_gap (hgap.gap other), byteLength_append]
  rw [Sdl.lexemes, htext, List.append_assoc] at hlexemes
  rcases hlast with ⟨rfl, rfl⟩ | ⟨l, hl, hstop, hfirm⟩
  · exact ⟨hlexemes.symm, fun other _ => rfl⟩
  · obtain ⟨init, rfl⟩ := List.getLast?_eq_some_iff.mp hl
    rw [List.append_assoc, List.singleton_append] at hlexemes
    obtain ⟨front, rest, -, heq, hlength, hms, hagain⟩ := lexemesFrom_behind hlexemes hstop
    obtain ⟨rfl, rfl⟩ := append_inj_of_byteLength heq (by omega)
    refine ⟨hms, fun other hother => ?_⟩
    rw [hagain hfirm other hother, List.append_assoc, List.singleton_append]

/-- A source is cut right behind any of its tokens. -/
theorem cut_behind {token : Token} (htext : source.toList = front ++ back)
    (hlexemes : lexemes source = ls ++ .token token :: ms)
    (hstop : token.span.stop = byteLength front) :
    Cut source front back (ls ++ [.token token]) ms where
  text := htext
  lexemes := by rw [hlexemes, List.append_assoc, List.singleton_append]
  place := ⟨front, [], (List.append_nil front).symm, .nil, .inr ⟨.token token, List.getLast?_concat,
    congrArg some hstop, trivial⟩⟩

/-- A source is cut right in front of any of its tokens, if no malformed lexeme is in front of that. -/
theorem exists_cut_in_front {token : Token} {ts : List Token}
    (hlexemes : lexemes source = ts.map .token ++ .token token :: ms) :
    ∃ front back, token.span.start = byteLength front ∧
      Cut source front back (ts.map .token) (.token token :: ms) := by
  have hfrom : lexemesFrom 0 source.toList = ts.map .token ++ .token token :: ms := hlexemes
  cases hlast : ts.getLast? with
  | none =>
    obtain rfl : ts = [] := List.getLast?_eq_none_iff.mp hlast
    obtain ⟨gap, rest, htext, hgap, hstart⟩ := lexemesFrom_front hfrom
    rw [Nat.zero_add] at hstart
    exact ⟨gap, rest, hstart, htext, hlexemes, [], gap, rfl, hgap, .inl ⟨rfl, rfl⟩⟩
  | some t =>
    obtain ⟨init, rfl⟩ := List.getLast?_eq_some_iff.mp hlast
    rw [List.map_append, List.append_assoc] at hfrom
    obtain ⟨body, rest, -, htext, hstop, hrest, -⟩ := lexemesFrom_behind (l := .token t) hfrom rfl
    obtain ⟨gap, tail, rfl, hgap, hstart⟩ := lexemesFrom_front hrest.symm
    rw [Nat.zero_add] at hstop
    refine ⟨body ++ gap, tail, by rw [hstart, hstop, byteLength_append], ?_, hlexemes, body, gap, rfl,
      hgap, .inr ⟨.token t, by simp, congrArg some hstop, trivial⟩⟩
    rw [htext, List.append_assoc]

theorem cut_in_front {token : Token} {ts : List Token} (htext : source.toList = front ++ back)
    (hlexemes : lexemes source = ts.map .token ++ .token token :: ms)
    (hstart : token.span.start = byteLength front) :
    Cut source front back (ts.map .token) (.token token :: ms) := by
  obtain ⟨body, rest, hfound, hcut⟩ := exists_cut_in_front hlexemes
  obtain ⟨rfl, rfl⟩ := append_inj_of_byteLength (htext.symm.trans hcut.text) (by omega)
  exact hcut

/-- Tokens in front of a cut are moved alike if all offsets in front of it are. -/
theorem Cut.move_tokens {ts : List Token} (h : Cut source front back (ts.map .token) ms)
    {f g : Nat → Nat} (hfg : ∀ n ≤ byteLength front, f n = g n) : move f ts = move g ts := by
  obtain ⟨-, hagain⟩ := h.again
  have hfront := hagain [] (by simp [Apart])
  rw [List.append_nil] at hfront
  have hmoved : (lexemesFrom 0 front).map (move f) = (lexemesFrom 0 front).map (move g) :=
    lexemesFrom_map_congr fun n _ hn => hfg n (by omega)
  rw [hfront, List.map_append, List.map_append] at hmoved
  have htokens := List.append_inj_left hmoved (by simp)
  rw [map_move_token, map_move_token] at htokens
  exact (List.map_inj_right fun _ _ heq => Lexeme.token.inj heq).mp htokens

/-! ## Gaps -/

/-- **Gaps**: other trivia in a gap, as long as there is some, leaves all lexemes as they are, up to
    where they stand. -/
theorem lexemes_of_gaps {source other : String} {front gap trivia back : List Char}
    {ls ms : List Lexeme} (h : Cut source front (gap ++ back) ls ms) (hgap : Gap gap back)
    (htrivia : Gap trivia back) (hne : trivia ≠ [])
    (hother : other.toList = front ++ (trivia ++ back)) :
    unplaced (lexemes other) = unplaced (lexemes source) := by
  obtain ⟨hms, hagain⟩ := h.again
  have hapart : Apart (trivia ++ back) := by
    obtain ⟨after, htrivia, -⟩ := htrivia
    exact htrivia.apart hne back
  -- the lexemes behind either gap are those of the same text at two offsets
  have hshift : ∀ offset, unplaced (lexemesFrom offset back) = unplaced (lexemesFrom 0 back) := by
    intro offset
    have hadd := lexemesFrom_add offset 0 back
    rw [Nat.zero_add] at hadd
    rw [hadd]
    show ((lexemesFrom 0 back).map (move (· + offset))).map unplaced = _
    rw [List.map_map]
    refine List.map_congr_left fun l _ => ?_
    cases l <;> rfl
  calc unplaced (lexemes other)
      = unplaced (ls ++ lexemesFrom (byteLength front) (trivia ++ back)) := by
        rw [lexemes, hother, hagain _ hapart]
    _ = unplaced ls ++ unplaced (lexemesFrom (byteLength front) (trivia ++ back)) :=
        List.map_append
    _ = unplaced ls ++ unplaced (lexemesFrom (byteLength front) (gap ++ back)) := by
        rw [lexemesFrom_gap htrivia, lexemesFrom_gap hgap, hshift,
          hshift (byteLength front + byteLength gap)]
    _ = unplaced (ls ++ ms) := by
        rw [hms]
        exact List.map_append.symm
    _ = unplaced (lexemes source) := by rw [h.lexemes]

end SchemaModel.Sdl
