import SchemaModel.Proofs.FaultPlaces
import SchemaModel.Proofs.Literals
import SchemaModel.Sdl.ByteLexer

/-! # Tilings

    How the lexemes of a source lie in it.

    * **Tiles**: gaps of trivia with lexemes between them, which is what the lexer cuts its input into.
    * **Quotes**: strings begin and end with their quotes, so that what is between these can be cut out.
    * **Tilings**: the lexemes of a source lie in it one behind the other, up to its end. -/

namespace SchemaModel.Sdl

/-! ## Tiles -/

/-- **Tiles**: from a byte offset on, the characters are gaps with lexemes between them, up to their
    end. -/
inductive Tiles : Nat → List Char → List Lexeme → Prop
  | last {offset : Nat} {gap : List Char} (isGap : Gap gap []) :
      Tiles offset gap [.endOfInput (offset + byteLength gap)]
  | step {offset : Nat} {gap ds : List Char} {d : Char} {ls : List Lexeme}
      (isGap : Gap gap (d :: ds))
      (others : Tiles (offset + byteLength gap + byteLength (scanLexeme d ds).2.text)
        (scanLexeme d ds).2.rest ls) :
      Tiles offset (gap ++ d :: ds)
        (.ofScan (offset + byteLength gap) (scanLexeme d ds).1 (scanLexeme d ds).2 :: ls)

/-- The lexer tiles its input. -/
theorem tiles_lexemesFrom (offset : Nat) (cs : List Char) :
    Tiles offset cs (lexemesFrom offset cs) := by
  fun_induction lexemesFrom offset cs with
  | case1 offset cs start hsplit =>
    obtain ⟨⟨after, htrivia, -⟩, hcs⟩ := trivia_splitTrivia false cs
    rw [hsplit, List.append_nil] at hcs
    have hlast : Tiles offset (splitTrivia false cs).1 [.endOfInput start] :=
      .last ⟨after, htrivia, fun h => absurd rfl h⟩
    rwa [← hcs] at hlast
  | case2 offset cs start d ds hsplit scan ih =>
    obtain ⟨⟨after, htrivia, hhead⟩, hcs⟩ := trivia_splitTrivia false cs
    rw [hsplit] at hcs hhead
    rw [hcs]
    exact .step ⟨after, htrivia, fun _ => (hhead d rfl).1⟩ ih

/-- What a scan takes from its input is the front of it. -/
theorem scanLexeme_split (d : Char) (ds : List Char) :
    ∃ es, (scanLexeme d ds).2.text = d :: es ∧
      d :: ds = (scanLexeme d ds).2.text ++ (scanLexeme d ds).2.rest := by
  obtain ⟨es, htext, hds, -⟩ := lexemeAgain d ds
  exact ⟨es, htext, by rw [htext, List.cons_append, ← hds]⟩

variable {offset : Nat} {cs : List Char} {l : Lexeme} {ls : List Lexeme}

/-- There is one lexeme more than there are bytes, at most. -/
theorem Tiles.length_le (h : Tiles offset cs ls) : ls.length ≤ byteLength cs + 1 := by
  induction h with
  | last => simp
  | @step offset gap ds d ls _ _ ih =>
    obtain ⟨es, htext, hsplit⟩ := scanLexeme_split d ds
    have hpos := d.utf8Size_pos
    have hlength := congrArg byteLength hsplit
    rw [byteLength_append, htext, byteLength_cons d es] at hlength
    rw [List.length_cons, byteLength_append]
    omega

/-- A lexeme is the end of the characters, or what a scan makes of those from some place on. -/
theorem Tiles.of_mem (h : Tiles offset cs ls) (hl : l ∈ ls) :
    l = .endOfInput (offset + byteLength cs) ∨
      ∃ front d ds, cs = front ++ d :: ds ∧
        l = .ofScan (offset + byteLength front) (scanLexeme d ds).1 (scanLexeme d ds).2 := by
  induction h with
  | last =>
    obtain rfl := List.mem_singleton.mp hl
    exact .inl rfl
  | @step offset gap ds d ls _ _ ih =>
    rcases List.mem_cons.mp hl with rfl | hl
    · exact .inr ⟨gap, d, ds, rfl, rfl⟩
    · obtain ⟨es, -, hsplit⟩ := scanLexeme_split d ds
      rw [hsplit]
      rcases ih hl with rfl | ⟨front, c, cs, hrest, rfl⟩
      · refine .inl ?_
        simp only [byteLength_append, Nat.add_assoc]
      · refine .inr ⟨gap ++ ((scanLexeme d ds).2.text ++ front), c, cs, ?_, ?_⟩
        · rw [hrest]
          simp only [List.append_assoc]
        · simp only [byteLength_append, Nat.add_assoc]

/-- The characters of a lexeme. -/
def Lexeme.text : Lexeme → List Char
  | .token t => t.text.toList
  | .malformed _ _ text => text.toList
  | .endOfInput _ => []

theorem span_ofScan (start : Nat) (kind : TokenKind) (scan : Scan) :
    (Lexeme.ofScan start kind scan).span = ⟨start, start + byteLength scan.text⟩ := by
  unfold Lexeme.ofScan
  cases scan.fault <;> rfl

theorem text_ofScan (start : Nat) (kind : TokenKind) (scan : Scan) :
    (Lexeme.ofScan start kind scan).text = scan.text := by
  unfold Lexeme.ofScan
  cases scan.fault <;> exact String.toList_ofList

/-- A lexeme is a token if its scan is not at fault. -/
theorem ofScan_eq_token {start : Nat} {kind : TokenKind} {scan : Scan} {token : Token} :
    Lexeme.ofScan start kind scan = .token token ↔ scan.fault = none ∧
      token = ⟨kind, ⟨start, start + byteLength scan.text⟩, String.ofList scan.text⟩ := by
  unfold Lexeme.ofScan
  cases scan.fault <;> simp [eq_comm]

/-- Where a lexeme lies in the source, and what is behind it. -/
def Covers (source : String) (l : Lexeme) (back : List Char) : Prop :=
  ∃ front, source.toList = front ++ (l.text ++ back) ∧
    l.span = ⟨byteLength front, byteLength front + byteLength l.text⟩

/-- Between two spans there is a gap. -/
def Between (source : String) (a b : Span) : Prop :=
  ∃ front gap back, source.toList = front ++ (gap ++ back) ∧ Gap gap back ∧
    a.stop = byteLength front ∧ b.start = byteLength front + byteLength gap

/-- Some quotes stand at each end of the text, and what is between them can be cut out of it. -/
structure Quoted (width : Nat) (text : String) : Prop where
  size : 2 * width ≤ text.utf8ByteSize
  quotes : text.toList =
    List.replicate width '"' ++ (literalBody width text ++ List.replicate width '"')
  body : slice? text width (text.utf8ByteSize - width) = some (literalBody width text)

theorem Tiles.start_le (h : Tiles offset cs ls) : ∀ l ∈ ls, offset ≤ l.span.start := by
  intro l hl
  rcases h.of_mem hl with rfl | ⟨front, d, ds, -, rfl⟩
  · exact Nat.le_add_right _ _
  · rw [span_ofScan]
    exact Nat.le_add_right _ _

/-- The lexemes do not overlap. -/
theorem Tiles.ordered (h : Tiles offset cs ls) :
    (ls.map Lexeme.span).Pairwise fun a b => a.stop ≤ b.start := by
  induction h with
  | last => exact List.pairwise_singleton _ _
  | step _ others ih =>
    rw [List.map_cons, List.pairwise_cons]
    refine ⟨fun span hspan => ?_, ih⟩
    obtain ⟨l, hl, rfl⟩ := List.mem_map.mp hspan
    rw [span_ofScan]
    exact others.start_le l hl

/-- There are gaps between the lexemes. -/
theorem Tiles.gaps {source : String} (h : Tiles offset cs ls) (front : List Char)
    (hsource : source.toList = front ++ cs) (hoffset : offset = byteLength front) (before : Span)
    (hbefore : before.stop = offset) : (before :: ls.map Lexeme.span).IsChain (Between source) := by
  induction h generalizing front before with
  | @last offset gap isGap =>
    refine List.IsChain.cons_cons ⟨front, gap, [], by simpa using hsource, isGap,
      hbefore.trans hoffset, ?_⟩ (List.IsChain.singleton _)
    exact congrArg (· + byteLength gap) hoffset
  | @step offset gap ds d ls isGap others ih =>
    rw [List.map_cons, span_ofScan]
    obtain ⟨es, -, hsplit⟩ := scanLexeme_split d ds
    refine List.IsChain.cons_cons ⟨front, gap, d :: ds, hsource, isGap, hbefore.trans hoffset, ?_⟩
      (ih (front ++ (gap ++ (scanLexeme d ds).2.text)) ?_ ?_ _ rfl)
    · exact congrArg (· + byteLength gap) hoffset
    · rw [hsource, hsplit]
      simp only [List.append_assoc]
    · rw [hoffset]
      simp only [byteLength_append, Nat.add_assoc]

/-- The last lexeme is the end, and all others take up bytes. -/
theorem Tiles.ends (h : Tiles offset cs ls) :
    ∃ others, ls = others ++ [.endOfInput (offset + byteLength cs)] ∧
      ∀ l ∈ others, l.span.start < l.span.stop := by
  induction h with
  | last => exact ⟨[], rfl, by simp⟩
  | @step offset gap ds d ls _ _ ih =>
    obtain ⟨others, rfl, hothers⟩ := ih
    obtain ⟨es, htext, hsplit⟩ := scanLexeme_split d ds
    refine ⟨.ofScan (offset + byteLength gap) (scanLexeme d ds).1 (scanLexeme d ds).2 :: others, ?_,
      List.forall_mem_cons.mpr ⟨?_, hothers⟩⟩
    · rw [hsplit]
      simp only [List.cons_append, byteLength_append, Nat.add_assoc]
    · have hpos := d.utf8Size_pos
      rw [span_ofScan, htext, byteLength_cons]
      show offset + byteLength gap < offset + byteLength gap + (d.utf8Size + byteLength es)
      omega

/-! ## Quotes -/

/-- A quoted string that is not at fault ends with a quote. -/
theorem quoted_ends (cs : List Char) (h : (Scan.quoted cs).fault = none) :
    ∃ body, (Scan.quoted cs).text = body ++ ['"'] := by
  fun_induction Scan.quoted cs with
  | case1 => cases h
  | case2 => cases h
  | case3 c cs ih =>
    obtain ⟨body, hbody⟩ := ih h
    exact ⟨'\\' :: c :: body, by simp [Scan.after, hbody]⟩
  | case4 cs => exact ⟨[], rfl⟩
  | case5 => cases h
  | case6 c cs _ _ _ _ ih =>
    obtain ⟨body, hbody⟩ := ih h
    exact ⟨c :: body, by simp [Scan.after, hbody]⟩

/-- A block string that is not at fault ends with three quotes. -/
theorem block_ends (cs : List Char) (h : (Scan.block cs).fault = none) :
    ∃ body, (Scan.block cs).text = body ++ ['"', '"', '"'] := by
  fun_induction Scan.block cs with
  | case1 cs => exact ⟨[], rfl⟩
  | case2 cs ih =>
    obtain ⟨body, hbody⟩ := ih h
    exact ⟨'\\' :: '"' :: '"' :: '"' :: body, by simp [Scan.after, hbody]⟩
  | case3 c cs _ _ ih =>
    obtain ⟨body, hbody⟩ := ih h
    exact ⟨c :: body, by simp [Scan.after, hbody]⟩
  | case4 => cases h

/-- What a lexeme is depends on its first character, and with a quote on the two behind it. -/
theorem scanLexeme_cases (c : Char) (cs : List Char) :
    (∃ mark, scanLexeme c cs = (.punctuator mark, .taken [c] cs)) ∨
    (∃ body, c = '"' ∧ scanLexeme c cs = (.blockString, (Scan.block body).after ['"', '"', '"'])) ∨
    (c = '"' ∧ scanLexeme c cs = (.string, (Scan.quoted cs).after ['"'])) ∨
    ((c = '-' ∨ c.isDigit) ∧
      scanLexeme c cs = (numberKind (Scan.number (c :: cs)).text, Scan.number (c :: cs))) ∨
    (isNameStart c ∧ scanLexeme c cs =
      (wordKind (Scan.run isNamePart (c :: cs)).text, Scan.run isNamePart (c :: cs))) ∨
    scanLexeme c cs = (.name, ⟨[c], cs, some (.unexpectedCharacter c)⟩) := by
  cases hmark : Punctuator.ofChar? c with
  | some mark => exact .inl ⟨mark, by simp only [scanLexeme, hmark]⟩
  | none =>
    by_cases hquote : c = '"'
    · subst hquote
      by_cases h : ∀ body, cs ≠ '"' :: '"' :: body
      · exact .inr (.inr (.inl ⟨rfl, scanLexeme_quoted h⟩))
      · obtain ⟨body, rfl⟩ : ∃ body, cs = '"' :: '"' :: body := by simpa using h
        exact .inr (.inl ⟨body, rfl, rfl⟩)
    by_cases hnumber : c = '-' || c.isDigit
    · refine .inr (.inr (.inr (.inl ⟨by simpa using hnumber, ?_⟩)))
      simp only [scanLexeme, hmark, if_neg hquote, if_pos hnumber]
    by_cases hname : isNameStart c
    · refine .inr (.inr (.inr (.inr (.inl ⟨hname, ?_⟩))))
      simp only [scanLexeme, hmark, if_neg hquote, if_neg hnumber, if_pos hname]
    · refine .inr (.inr (.inr (.inr (.inr ?_))))
      simp only [scanLexeme, hmark, if_neg hquote, if_neg hnumber, if_neg hname]

/-- The text of a string of either kind, with its quotes. -/
theorem quotes_of_scanLexeme {c : Char} {cs : List Char} (h : (scanLexeme c cs).2.fault = none) :
    ((scanLexeme c cs).1 = .string → ∃ body, (scanLexeme c cs).2.text = ['"'] ++ (body ++ ['"'])) ∧
      ((scanLexeme c cs).1 = .blockString → ∃ body,
        (scanLexeme c cs).2.text = ['"', '"', '"'] ++ (body ++ ['"', '"', '"'])) := by
  rcases scanLexeme_cases c cs with ⟨mark, heq⟩ | ⟨body, -, heq⟩ | ⟨-, heq⟩ | ⟨-, heq⟩ | ⟨-, heq⟩ | heq <;>
    rw [heq] at h ⊢
  · simp
  · obtain ⟨text, htext⟩ := block_ends body h
    exact ⟨by simp, fun _ => ⟨text, by rw [Scan.after, htext]⟩⟩
  · obtain ⟨text, htext⟩ := quoted_ends cs h
    exact ⟨fun _ => ⟨text, by rw [Scan.after, htext]⟩, by simp⟩
  · unfold numberKind
    constructor <;> intro hkind <;> split at hkind <;> cases hkind
  · have hname := isName_wordKind (Scan.run isNamePart (c :: cs)).text
    constructor <;> intro hkind <;> dsimp only at hkind <;> rw [hkind] at hname <;> cases hname
  · cases h

theorem charsWithin?_append (text rest : List Char) :
    charsWithin? (byteLength text) (text ++ rest) = some text.length := by
  induction text with
  | nil => simp [charsWithin?]
  | cons c text ih =>
    have hpos := c.utf8Size_pos
    obtain ⟨n, hn⟩ : ∃ n, byteLength (c :: text) = n + 1 :=
      ⟨c.utf8Size + byteLength text - 1, by rw [byteLength_cons]; omega⟩
    rw [byteLength_cons] at hn
    rw [byteLength_cons, hn, List.cons_append, charsWithin?, if_pos (by omega), ← hn,
      Nat.add_sub_cancel_left, ih]
    rfl

/-- The text between two places. -/
theorem slice?_append (front text rest : List Char) {source : String}
    (h : source.toList = front ++ (text ++ rest)) :
    slice? source (byteLength front) (byteLength front + byteLength text) = some text := by
  have hle : byteLength front ≤ byteLength front + byteLength text := Nat.le_add_right _ _
  simp only [slice?, h, guard, hle, ↓reduceIte, charsWithin?_append, Nat.add_sub_cancel_left]
  simp [charsWithin?_append]

theorem utf8ByteSize_eq (text : String) : text.utf8ByteSize = byteLength text.toList := by
  have hbytes : ∀ cs : List Char, (cs.flatMap String.utf8EncodeChar).length = byteLength cs := by
    intro cs
    induction cs with
    | nil => rfl
    | cons c cs ih =>
      rw [List.flatMap_cons, List.length_append, String.length_utf8EncodeChar, ih, byteLength_cons]
  rw [← String.size_toByteArray, ← String.utf8Encode_toList, List.utf8Encode, ← hbytes,
    ← ByteArray.size_data, List.data_toByteArray, List.size_toArray]

/-- A text between quotes is cut out of them. -/
theorem quoted_of_toList {width : Nat} {text : String} {body : List Char}
    (h : text.toList = List.replicate width '"' ++ (body ++ List.replicate width '"')) :
    Quoted width text := by
  have hquotes : ∀ n, byteLength (List.replicate n '"') = n := by
    intro n
    induction n with
    | zero => rfl
    | succ n ih =>
      rw [List.replicate_succ, byteLength_cons, ih, show ('"' : Char).utf8Size = 1 by decide,
        Nat.add_comm]
  have hsize : text.utf8ByteSize = width + (byteLength body + width) := by
    rw [utf8ByteSize_eq, h, byteLength_append, byteLength_append, hquotes]
  have hbody : literalBody width text = body := by
    have hlength : text.toList.length - 2 * width = body.length := by
      rw [h]
      simp only [List.length_append, List.length_replicate]
      omega
    simp only [literalBody, hlength]
    rw [h, List.drop_left' List.length_replicate, List.take_left]
  refine ⟨by omega, hbody.symm ▸ h, ?_⟩
  have hslice := slice?_append (List.replicate width '"') body (List.replicate width '"') h
  rw [hquotes] at hslice
  rw [hbody, ← hslice]
  congr 1
  omega

/-! ## Tilings -/

/-- **Tilings**: the lexemes of a source lie in it one behind the other, with gaps between them. -/
structure Tiling (source : String) (ls : List Lexeme) : Prop where
  /-- The last lexeme is the end, and all others take up bytes. -/
  ends : ∃ others, ls = others ++ [.endOfInput source.utf8ByteSize] ∧
    ∀ l ∈ others, l.span.start < l.span.stop
  length_le : ls.length ≤ source.utf8ByteSize + 1
  ordered : (ls.map Lexeme.span).Pairwise fun a b => a.stop ≤ b.start
  gaps : (⟨0, 0⟩ :: ls.map Lexeme.span).IsChain (Between source)
  covers : ∀ l ∈ ls, ∃ back, Covers source l back
  names : ∀ token, .token token ∈ ls → token.kind.isName →
    isNameText token.text ∧ (∀ word, token.kind = .keyword word ↔ token.text = word.text) ∧
      ∀ back, Covers source (.token token) back → ∀ c ∈ back.head?, isNamePart c = false
  strings : ∀ token, .token token ∈ ls → token.kind = .string → Quoted 1 token.text
  blockStrings : ∀ token, .token token ∈ ls → token.kind = .blockString → Quoted 3 token.text

section

variable {source : String} {token : Token}

/-- The lexeme at a place is what a scan makes of the characters from there on. -/
theorem eq_ofScan_of_mem {l : Lexeme} {c : Char} {front cs : List Char} (hl : l ∈ lexemes source)
    (hsource : source.toList = front ++ c :: cs) (hstart : l.span.start = byteLength front) :
    l = .ofScan (byteLength front) (scanLexeme c cs).1 (scanLexeme c cs).2 := by
  rcases (tiles_lexemesFrom 0 source.toList).of_mem hl with rfl | ⟨front', d, ds, hsource', rfl⟩
  · have hend : byteLength source.toList = byteLength front := (Nat.zero_add _).symm.trans hstart
    have hpos := c.utf8Size_pos
    rw [hsource, byteLength_append, byteLength_cons] at hend
    omega
  · rw [span_ofScan, Nat.zero_add] at hstart
    obtain ⟨rfl, htail⟩ := append_inj_of_byteLength (hsource'.symm.trans hsource) hstart
    obtain ⟨rfl, rfl⟩ := List.cons.inj htail
    rw [Nat.zero_add]

/-- A token is what a scan makes of the characters from its place on. -/
theorem exists_scan_of_token (h : .token token ∈ lexemes source) :
    ∃ front d ds text rest, source.toList = front ++ d :: ds ∧
      scanLexeme d ds = (token.kind, .taken text rest) ∧ d :: ds = text ++ rest ∧
      token.span = ⟨byteLength front, byteLength front + byteLength text⟩ ∧
      token.text = String.ofList text := by
  rcases (tiles_lexemesFrom 0 source.toList).of_mem h with hend | ⟨front, d, ds, hsource, htoken⟩
  · cases hend
  · obtain ⟨es, -, hsplit⟩ := scanLexeme_split d ds
    obtain ⟨hfault, rfl⟩ := ofScan_eq_token.mp htoken.symm
    refine ⟨front, d, ds, (scanLexeme d ds).2.text, (scanLexeme d ds).2.rest, hsource, ?_, hsplit, ?_,
      rfl⟩
    · show scanLexeme d ds = ((scanLexeme d ds).1, ⟨_, _, none⟩)
      rw [← hfault]
    · simp only [Nat.zero_add]

/-- A keyword is the word of its spelling. -/
theorem wordKind_keyword (word : Keyword) : wordKind word.text.toList = .keyword word := by
  cases word <;> decide +kernel

/-- Behind all characters of a class at the front there is none of that class. -/
theorem head?_of_takeWhile {p : Char → Bool} {cs text rest : List Char} (hsplit : cs = text ++ rest)
    (htext : text = cs.takeWhile p) : ∀ c ∈ rest.head?, p c = false := by
  have hrest : rest = cs.dropWhile p := by
    have hboth : cs.takeWhile p ++ rest = cs.takeWhile p ++ cs.dropWhile p := by
      rw [← htext, ← hsplit, htext, List.takeWhile_append_dropWhile]
    exact List.append_cancel_left hboth
  intro c hc
  have hnot := List.head?_dropWhile_not p cs
  rw [← hrest, Option.mem_def.mp hc] at hnot
  simpa using hnot

/-- Only one text is behind a lexeme. -/
theorem Covers.unique {l : Lexeme} {back back' : List Char} (h : Covers source l back)
    (h' : Covers source l back') : back = back' := by
  obtain ⟨front, hsource, hspan⟩ := h
  obtain ⟨front', hsource', hspan'⟩ := h'
  have hlength : byteLength front = byteLength front' :=
    congrArg Span.start (hspan.symm.trans hspan')
  obtain ⟨rfl, htail⟩ := append_inj_of_byteLength (hsource.symm.trans hsource') hlength
  exact List.append_cancel_left htail

/-- **The lexemes of a source tile it.** -/
theorem tiling_lexemes (source : String) : Tiling source (lexemes source) := by
  have htiles := tiles_lexemesFrom 0 source.toList
  have hsize := utf8ByteSize_eq source
  constructor
  case ends =>
    obtain ⟨others, hothers, hspans⟩ := htiles.ends
    rw [Nat.zero_add, ← hsize] at hothers
    exact ⟨others, hothers, hspans⟩
  case length_le =>
    rw [hsize]
    exact htiles.length_le
  case ordered => exact htiles.ordered
  case gaps => exact htiles.gaps [] rfl rfl _ rfl
  case covers =>
    intro l hl
    rcases htiles.of_mem hl with rfl | ⟨front, d, ds, hsource, rfl⟩
    · refine ⟨[], source.toList, (List.append_nil _).symm, ?_⟩
      rw [Nat.zero_add]
      rfl
    · obtain ⟨es, -, hsplit⟩ := scanLexeme_split d ds
      refine ⟨(scanLexeme d ds).2.rest, front, ?_, ?_⟩
      · rw [text_ofScan, ← hsplit, hsource]
      · rw [span_ofScan, text_ofScan, Nat.zero_add]
  case names =>
    intro token htoken hname
    obtain ⟨front, d, ds, text, rest, hsource, hscan, hsplit, hspan, htext⟩ :=
      exists_scan_of_token htoken
    have hspelling : token.text.toList = text := by rw [htext, String.toList_ofList]
    have hscans : ScansAs token.kind token.text.toList := hspelling ▸ scansAs_of_scan hscan
    obtain ⟨hnameText, hkind⟩ := hscans.isNameText hname
    refine ⟨hnameText, fun word => ⟨fun h => text_of_wordKind (hkind.symm.trans h), fun h => ?_⟩, ?_⟩
    · rw [hkind, h, wordKind_keyword]
    · intro back hback
      have hrest : Covers source (.token token) rest :=
        ⟨front, by rw [hsource, hsplit, ← hspelling]; rfl, by rw [← hspelling] at hspan; exact hspan⟩
      obtain ⟨-, hrun, -⟩ := name_of_scanLexeme hscan hname
      rw [hback.unique hrest]
      exact head?_of_takeWhile hsplit hrun
  case strings =>
    intro token htoken hkind
    obtain ⟨front, d, ds, text, rest, -, hscan, -, -, htext⟩ := exists_scan_of_token htoken
    obtain ⟨body, hbody⟩ := (quotes_of_scanLexeme (by rw [hscan]; rfl)).1 (by rw [hscan]; exact hkind)
    rw [hscan] at hbody
    exact quoted_of_toList (by rw [htext, String.toList_ofList]; exact hbody)
  case blockStrings =>
    intro token htoken hkind
    obtain ⟨front, d, ds, text, rest, -, hscan, -, -, htext⟩ := exists_scan_of_token htoken
    obtain ⟨body, hbody⟩ := (quotes_of_scanLexeme (by rw [hscan]; rfl)).2 (by rw [hscan]; exact hkind)
    rw [hscan] at hbody
    exact quoted_of_toList (by rw [htext, String.toList_ofList]; exact hbody)

end

end SchemaModel.Sdl
