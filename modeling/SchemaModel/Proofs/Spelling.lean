import SchemaModel.Proofs.Phrases
import SchemaModel.Proofs.Scanning

/-! # Spelling

    Which characters come to which tokens.

    * **Portable tokens**: the tokens of a source, which are the same ones wherever they stand.
    * **Spells**: characters that come to tokens of which something holds, in front of any input
      that fits. Texts are put together along its rules. -/

namespace SchemaModel.Sdl

/-! ## Tokens of Sources -/

/-- **Portable**: the text of the token is scanned as a token of its kind wherever it stands. -/
def Token.Portable (token : Token) : Prop :=
  ScansAs token.kind token.text.toList

/-- Every token of a source is portable. -/
theorem portable_of_mem_tokens {source : String} :
    ∀ token ∈ (Feed.ofSource source).tokens, token.Portable := by
  have hfrom : ∀ offset cs, ∀ token ∈ (Feed.ofLexemes (lexemesFrom offset cs)).tokens,
      token.Portable := by
    intro offset cs
    fun_induction lexemesFrom offset cs with
    | case1 => simp [Feed.ofLexemes]
    | case2 offset cs start d ds htrivia scan ih =>
      cases hfault : scan.fault with
      | some fault => simp [Lexeme.ofScan, hfault, Feed.ofLexemes]
      | none =>
        simp only [Lexeme.ofScan, hfault, Feed.ofLexemes, List.forall_mem_cons]
        refine ⟨?_, ih⟩
        -- the scan that gave the token took its text
        have hscan : scanLexeme d ds = ((scanLexeme d ds).1, .taken scan.text scan.rest) := by
          rw [Scan.taken, ← hfault]
        simpa [Token.Portable] using scansAs_of_scan hscan
  exact hfrom 0 source.toList

/-- A punctuator, wherever it stands. -/
def markToken (mark : Punctuator) : Token :=
  ⟨.punctuator mark, ⟨0, 0⟩, String.ofList [mark.char]⟩

theorem portable_markToken (mark : Punctuator) : (markToken mark).Portable := by
  simpa [Token.Portable, markToken] using scansAs_mark mark

theorem lone_markToken (mark : Punctuator) : Lone (.punctuator mark) [markToken mark] :=
  ⟨_, rfl, rfl⟩

/-- A keyword, wherever it stands. -/
def keywordToken (word : Keyword) : Token := ⟨.keyword word, ⟨0, 0⟩, word.text⟩

theorem portable_keywordToken (word : Keyword) : (keywordToken word).Portable := scansAs_keyword word

theorem lone_keywordToken (word : Keyword) : Lone (.keyword word) [keywordToken word] :=
  ⟨_, rfl, rfl⟩

/-! ## Steps of the Lexer -/

/-- One step of the lexer, given what it steps over and what is left. -/
theorem lexemesFrom_of_split {cs blank rest : List Char} (offset : Nat) :
    splitTrivia false cs = (blank, rest) → lexemesFrom offset cs =
      match rest with
      | [] => [.endOfInput (offset + byteLength blank)]
      | d :: ds =>
        let start := offset + byteLength blank
        let scan := (scanLexeme d ds).2
        .ofScan start (scanLexeme d ds).1 scan ::
          lexemesFrom (start + byteLength scan.text) scan.rest := by
  intro h
  rw [lexemesFrom.eq_def]
  have hblank : (splitTrivia false cs).1 = blank := congrArg Prod.fst h
  have hrest : (splitTrivia false cs).2 = rest := congrArg Prod.snd h
  simp only [hblank]
  split <;> rename_i heq <;> rw [hrest] at heq <;> subst heq <;> rfl

/-- A blank in front of the input is stepped over. -/
theorem lexemesFrom_blank {c : Char} (h : isBlank c) (offset : Nat) (cs : List Char) :
    lexemesFrom offset (c :: cs) = lexemesFrom (offset + c.utf8Size) cs := by
  have hcomment : ¬c = '#' := by
    rintro rfl
    exact absurd h (by decide)
  have hsplit : splitTrivia false (c :: cs) =
      (c :: (splitTrivia false cs).1, (splitTrivia false cs).2) := by
    simp [splitTrivia, h, hcomment]
  rw [lexemesFrom_of_split offset hsplit, lexemesFrom_of_split (offset + c.utf8Size) rfl]
  simp only [byteLength_cons, Nat.add_assoc]

/-- A lexeme in front of the input is a token, behind which the lexer goes on. -/
theorem lexemesFrom_token {c : Char} {cs text rest : List Char} {kind : TokenKind}
    (h : scanLexeme c cs = (kind, .taken text rest)) (offset : Nat) :
    lexemesFrom offset (c :: cs) =
      .token ⟨kind, ⟨offset, offset + byteLength text⟩, String.ofList text⟩ ::
        lexemesFrom (offset + byteLength text) rest := by
  have htrivia : ¬isTrivia c := by
    intro hc
    rw [scanLexeme_of_isTrivia hc] at h
    simp [Scan.taken] at h
  have hsplit : splitTrivia false (c :: cs) = ([], c :: cs) := by
    simpa [splitTrivia, isTrivia] using htrivia
  rw [lexemesFrom_of_split offset hsplit]
  simp only [h]
  rfl

theorem lexemesFrom_nil (offset : Nat) : lexemesFrom offset [] = [.endOfInput offset] :=
  lexemesFrom_of_split offset rfl

/-! ## Spelling -/

/-- **Spells**: in front of any input that fits, the lexer cuts the characters into tokens of which
    `meaning` holds, and goes on behind them. -/
def Spells (fits : List Char → Prop) (cs : List Char) (meaning : List Token → Prop) : Prop :=
  ∀ offset rest, fits rest → ∃ ts next,
    lexemesFrom offset (cs ++ rest) = ts.map .token ++ lexemesFrom next rest ∧ meaning ts

/-- Any input fits. -/
def Anywhere (_ : List Char) : Prop := True

/-- The one token of a kind and a text. -/
def Written (kind : TokenKind) (text : String) (ts : List Token) : Prop :=
  ∃ token : Token, ts = [token] ∧ token.kind = kind ∧ token.text = text

namespace Spells

variable {fits : List Char → Prop} {cs ds : List Char} {meaning first : List Token → Prop}

theorem nil (h : meaning []) : Spells fits [] meaning := fun offset _ _ => ⟨[], offset, rfl, h⟩

theorem imp {others : List Token → Prop} (h : Spells fits cs meaning)
    (hmeaning : ∀ ts, meaning ts → others ts) : Spells fits cs others := by
  intro offset rest hrest
  obtain ⟨ts, next, hlex, hts⟩ := h offset rest hrest
  exact ⟨ts, next, hlex, hmeaning ts hts⟩

/-- **Composition**: what is said first is carried on into what the other characters say. -/
theorem append {fitsFirst : List Char → Prop} (hfirst : Spells fitsFirst cs first)
    (hfits : ∀ rest, fits rest → fitsFirst (ds ++ rest))
    (h : ∀ us, first us → Spells fits ds fun ts => meaning (us ++ ts)) :
    Spells fits (cs ++ ds) meaning := by
  intro offset rest hrest
  obtain ⟨us, middle, hus, hfirstUs⟩ := hfirst offset (ds ++ rest) (hfits rest hrest)
  obtain ⟨ts, next, hts, hmeaning⟩ := h us hfirstUs middle rest hrest
  refine ⟨us ++ ts, next, ?_, hmeaning⟩
  rw [List.append_assoc, hus, hts, List.map_append, List.append_assoc]

/-- A lexeme that is scanned again is one token. -/
theorem lexeme {kind : TokenKind} {text : String} (h : ScansAs kind text.toList) :
    Spells Apart text.toList (Written kind text) := by
  intro offset rest hrest
  obtain ⟨c, cs, heq, hscan⟩ := h rest hrest
  refine ⟨[⟨kind, ⟨offset, offset + byteLength text.toList⟩, text⟩],
    offset + byteLength text.toList, ?_, _, rfl, rfl, rfl⟩
  rw [heq, lexemesFrom_token hscan]
  simp

/-- A blank has no meaning. -/
theorem blank_cons {c : Char} (hc : isBlank c) (h : Spells fits cs meaning) :
    Spells fits (c :: cs) meaning := by
  intro offset rest hrest
  rw [List.cons_append, lexemesFrom_blank hc]
  exact h _ rest hrest

/-- A punctuator is a token anywhere. -/
theorem mark_cons (mark : Punctuator)
    (h : ∀ us, Lone (.punctuator mark) us → Spells fits cs fun ts => meaning (us ++ ts)) :
    Spells fits (mark.char :: cs) meaning := by
  intro offset rest hrest
  have hscan : scanLexeme mark.char (cs ++ rest) =
      (.punctuator mark, .taken [mark.char] (cs ++ rest)) := by
    cases mark <;> rfl
  have hlone : Lone (.punctuator mark) [⟨.punctuator mark,
      ⟨offset, offset + byteLength [mark.char]⟩, String.ofList [mark.char]⟩] := ⟨_, rfl, rfl⟩
  obtain ⟨ts, next, hlex, hmeaning⟩ := h _ hlone (offset + byteLength [mark.char]) rest hrest
  refine ⟨_, next, ?_, hmeaning⟩
  rw [List.cons_append, lexemesFrom_token hscan, hlex]
  rfl

/-- A keyword in front of input that is apart. -/
theorem keyword_append (word : Keyword) (hapart : ∀ rest, fits rest → Apart (cs ++ rest))
    (h : ∀ token : Token, token.kind = .keyword word →
      Spells fits cs fun ts => meaning (token :: ts)) :
    Spells fits (word.text.toList ++ cs) meaning := by
  refine append (lexeme (scansAs_keyword word)) hapart ?_
  rintro us ⟨token, rfl, hkind, -⟩
  exact h token hkind

section

variable {α : Type} {text : α → List Char} {phrase : Phrase α} {xs : List α}

/-- Texts one behind the other. -/
theorem flatMap (h : ∀ x ∈ xs, Spells Anywhere (text x) (phrase · x)) :
    Spells Anywhere (xs.flatMap text) (Many phrase · xs) := by
  induction xs with
  | nil => exact nil .nil
  | cons x xs ih =>
    obtain ⟨hx, hxs⟩ := List.forall_mem_cons.mp h
    rw [List.flatMap_cons]
    exact append hx (fun _ _ => trivial) fun us hus => (ih hxs).imp fun ts hts => .cons hus hts

/-- Texts with a comma and a blank between them. -/
theorem intercalate (h : ∀ x ∈ xs, Spells Apart (text x) (phrase · x)) :
    Spells Apart ([',', ' '].intercalate (xs.map text)) (Many phrase · xs) := by
  induction xs with
  | nil => exact nil .nil
  | cons x xs ih =>
    obtain ⟨hx, hxs⟩ := List.forall_mem_cons.mp h
    -- a comma comes behind the text unless it is the last one
    cases xs with
    | nil =>
      refine Spells.imp (by simpa using hx) fun ts hts => ?_
      simpa using Many.cons hts .nil
    | cons y ys =>
      rw [List.map_cons, List.map_cons, List.intercalate_cons_cons, ← List.map_cons,
        List.append_assoc]
      refine append hx (fun rest _ => apart_cons (by decide) _) fun us hus => ?_
      refine blank_cons rfl (blank_cons rfl ?_)
      exact (ih hxs).imp fun ts hts => .cons hus hts

end

end Spells

/-- The tokens in front are the first ones, as long as they are not malformed. -/
theorem ofLexemes_append (ts : List Token) (ls : List Lexeme) :
    Feed.ofLexemes (ts.map .token ++ ls) =
      ⟨ts ++ (Feed.ofLexemes ls).tokens, (Feed.ofLexemes ls).ending⟩ := by
  induction ts with
  | nil => rfl
  | cons t ts ih =>
    rw [List.map_cons, List.cons_append, Feed.ofLexemes, ih]
    rfl

/-- The lexemes of a source are its tokens, if no malformed one ends them. -/
theorem lexemes_of_fault_eq_none {source : String} (h : (Feed.ofSource source).ending.fault = none) :
    ∃ stop, lexemes source = (Feed.ofSource source).tokens.map .token ++ [.endOfInput stop] := by
  have hfrom : ∀ offset cs, (Feed.ofLexemes (lexemesFrom offset cs)).ending.fault = none →
      ∃ stop, lexemesFrom offset cs =
        (Feed.ofLexemes (lexemesFrom offset cs)).tokens.map .token ++ [.endOfInput stop] := by
    intro offset cs h
    fun_induction lexemesFrom offset cs with
    | case1 offset cs start => exact ⟨start, rfl⟩
    | case2 offset cs start d ds hsplit scan ih =>
      cases hfault : scan.fault with
      | some fault => simp [Lexeme.ofScan, hfault, Feed.ofLexemes] at h
      | none =>
        simp only [Lexeme.ofScan, hfault, Feed.ofLexemes] at h ⊢
        obtain ⟨stop, hrest⟩ := ih h
        exact ⟨stop, congrArg (Lexeme.token _ :: ·) hrest⟩
  exact hfrom 0 source.toList h

/-- The tokens of a source none of whose lexemes is malformed. -/
theorem feed_of_lexemes {source : String} {ts : List Token} {stop : Nat}
    (h : lexemes source = ts.map .token ++ [.endOfInput stop]) :
    Feed.ofSource source = ⟨ts, ⟨⟨stop, stop⟩, none⟩⟩ := by
  rw [Feed.ofSource, h, ofLexemes_append, Feed.ofLexemes, List.append_nil]

/-- The tokens of a source that spells something say it, and end in no fault. -/
theorem feed_of_spells {source : String} {fits : List Char → Prop} {meaning : List Token → Prop}
    (h : Spells fits source.toList meaning) (hend : fits []) :
    meaning (Feed.ofSource source).tokens ∧ (Feed.ofSource source).ending.fault = none := by
  obtain ⟨ts, next, hlex, hmeaning⟩ := h 0 [] hend
  rw [List.append_nil, lexemesFrom_nil] at hlex
  rw [feed_of_lexemes hlex]
  exact ⟨hmeaning, rfl⟩

end SchemaModel.Sdl
