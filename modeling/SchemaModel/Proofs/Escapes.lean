import Mathlib.Data.List.Forall2
import Mathlib.Data.Nat.Digits.Defs
import SchemaModel.Proofs.Scopes
import SchemaModel.Sdl.StringLiteral

/-! # Escapes

    Which texts stand for something between two quotes, and for what.

    * **Codes**: a character code is written with four hexadecimal digits. The reader also takes a plus
      sign with three of them for one.
    * **Pieces**: what a text is cut into: characters as they are, and escapes of three forms.
    * **Readings**: a text in pieces, each with the character that it denotes. The reader finds the one
      reading that there is, and it keeps to codes of four digits unless an escape has a plus sign in its
      code. -/

namespace SchemaModel.Sdl

/-! ## Codes -/

/-- The characters are `count` hexadecimal digits, which stand for `code`. -/
def HexDigits (count : Nat) (cs : List Char) (code : Nat) : Prop :=
  ∃ ds : List Nat, ds.length = count ∧ cs.map Hex.digit? = ds.map some ∧
    code = Nat.ofDigits 16 ds.reverse

/-- **Four digits**: what a character code is written with. -/
def FourDigits (cs : List Char) (code : Nat) : Prop := HexDigits 4 cs code

/-- A plus sign and three digits. -/
def SignedDigits (cs : List Char) (code : Nat) : Prop :=
  ∃ ds, cs = '+' :: ds ∧ HexDigits 3 ds code

/-- **Taken codes**: what the reader takes for a character code. -/
def TakenCode (cs : List Char) (code : Nat) : Prop :=
  FourDigits cs code ∨ SignedDigits cs code

section

variable {cs : List Char} {c : Char} {code count : Nat}

/-- A run of digits stands for the number that they make up behind the one in front of them. -/
theorem continue?_eq_some {high : Nat} :
    Hex.continue? high cs = some code ↔ ∃ ds : List Nat, cs.map Hex.digit? = ds.map some ∧
      code = Nat.ofDigits 16 ds.reverse + 16 ^ ds.length * high := by
  induction cs generalizing high with
  | nil =>
    rw [Hex.continue?, Option.some_inj]
    constructor
    · rintro rfl
      exact ⟨[], rfl, by simp⟩
    · rintro ⟨ds, hds, rfl⟩
      obtain rfl : ds = [] := List.map_eq_nil_iff.mp hds.symm
      simp
  | cons c cs ih =>
    rw [Hex.continue?, Option.bind_eq_some_iff]
    constructor
    · rintro ⟨d, hd, hcode⟩
      obtain ⟨ds, hds, rfl⟩ := ih.mp hcode
      refine ⟨d :: ds, by simp [hd, hds], ?_⟩
      rw [List.reverse_cons, Nat.ofDigits_append, Nat.ofDigits_singleton, List.length_reverse,
        List.length_cons]
      ring
    · rintro ⟨ds, hds, rfl⟩
      obtain ⟨d, ds, rfl, hd, hds⟩ := List.map_eq_cons_iff.mp hds.symm
      refine ⟨d, hd.symm, ih.mpr ⟨ds, hds.symm, ?_⟩⟩
      rw [List.reverse_cons, Nat.ofDigits_append, Nat.ofDigits_singleton, List.length_reverse,
        List.length_cons]
      ring

theorem hexDigits_iff : HexDigits count cs code ↔
    cs.length = count ∧ Hex.continue? 0 cs = some code := by
  rw [continue?_eq_some]
  constructor
  · rintro ⟨ds, rfl, hds, rfl⟩
    exact ⟨by simpa using congrArg List.length hds, ds, hds, by simp⟩
  · rintro ⟨rfl, ds, hds, rfl⟩
    exact ⟨ds, by simpa using (congrArg List.length hds).symm, hds, by simp⟩

/-- A digit is an ASCII character, and it counts less than sixteen. -/
theorem bounds_of_digit? {d : Nat} (h : Hex.digit? c = some d) : c.toNat ≤ 102 ∧ d < 16 := by
  have toNat_le : ∀ last : Char, c ≤ last → c.toNat ≤ last.toNat := fun _ => id
  unfold Hex.digit? at h
  split at h
  · cases h
    have hle : c.toNat ≤ 57 := toNat_le '9' ‹_ ∧ _›.2
    change _ ∧ c.toNat - 48 < 16
    omega
  · split at h
    · cases h
      have hle : c.toNat ≤ 102 := toNat_le 'f' ‹_ ∧ _›.2
      change _ ∧ c.toNat - 97 + 10 < 16
      omega
    · split at h
      · cases h
        have hle : c.toNat ≤ 70 := toNat_le 'F' ‹_ ∧ _›.2
        change _ ∧ c.toNat - 65 + 10 < 16
        omega
      · cases h

/-- A digit takes one byte. -/
theorem utf8Size_of_digit? {d : Nat} (h : Hex.digit? c = some d) : c.utf8Size = 1 :=
  Char.utf8Size_eq_one_iff.mpr
    (UInt32.le_iff_toNat_le.mpr (Nat.le_trans (bounds_of_digit? h).1 (by decide)))

theorem byteLength_of_continue? {high : Nat} (h : Hex.continue? high cs = some code) :
    byteLength cs = cs.length := by
  induction cs generalizing high with
  | nil => rfl
  | cons c cs ih =>
    rw [Hex.continue?, Option.bind_eq_some_iff] at h
    obtain ⟨d, hd, h⟩ := h
    rw [byteLength_cons, utf8Size_of_digit? hd, ih h, List.length_cons, Nat.add_comm]

/-- A code is read exactly if it is one that the reader takes. -/
theorem readCode_eq_ok : readCode cs = .ok code ↔ TakenCode cs code := by
  have hplus : ('+' : Char).utf8Size = 1 := by decide
  have hsign : Hex.digit? '+' = none := by decide
  have hread : readCode cs = .ok code ↔ byteLength cs = 4 ∧ codeNumber? cs = some code := by
    unfold readCode
    split
    · cases codeNumber? cs <;> simp [*]
    · simp [*]
  rw [hread, TakenCode, FourDigits, hexDigits_iff]
  constructor
  · rintro ⟨hbytes, hcode⟩
    unfold codeNumber? at hcode
    split at hcode
    · rename_i d ds
      rw [byteLength_cons, hplus, byteLength_of_continue? hcode] at hbytes
      exact .inr ⟨d :: ds, rfl, hexDigits_iff.mpr ⟨by omega, hcode⟩⟩
    · exact .inl ⟨byteLength_of_continue? hcode ▸ hbytes, hcode⟩
    · cases hcode
  · rintro (⟨hlength, hcode⟩ | ⟨ds, rfl, hds⟩)
    · refine ⟨byteLength_of_continue? hcode ▸ hlength, ?_⟩
      unfold codeNumber?
      split
      · simp [Hex.continue?, hsign] at hcode
      · exact hcode
      · simp at hlength
    · obtain ⟨hlength, hcode⟩ := hexDigits_iff.mp hds
      obtain ⟨d, ds, rfl⟩ : ∃ d es, ds = d :: es :=
        List.exists_cons_of_length_pos (by omega)
      refine ⟨?_, hcode⟩
      rw [byteLength_cons, hplus, byteLength_of_continue? hcode, hlength]

theorem HexDigits.lt (h : HexDigits count cs code) : code < 16 ^ count := by
  obtain ⟨ds, rfl, hds, rfl⟩ := h
  rw [← List.length_reverse]
  apply Nat.ofDigits_lt_base_pow_length (by decide)
  intro d hd
  obtain ⟨c, -, hc⟩ := List.mem_map.mp (hds ▸ List.mem_map_of_mem (List.mem_reverse.mp hd))
  exact (bounds_of_digit? hc).2

theorem TakenCode.lt (h : TakenCode cs code) : code < 0x10000 := by
  rcases h with h | ⟨ds, -, h⟩
  · exact h.lt
  · exact Nat.lt_trans h.lt (by decide)

theorem FourDigits.taken (h : FourDigits cs code) : TakenCode cs code := .inl h

theorem TakenCode.length_eq (h : TakenCode cs code) : cs.length = 4 := by
  rcases h with h | ⟨ds, rfl, h⟩
  · exact (hexDigits_iff.mp h).1
  · rw [List.length_cons, (hexDigits_iff.mp h).1]

theorem TakenCode.unique {other : Nat} (h : TakenCode cs code) (hother : TakenCode cs other) :
    code = other :=
  Except.ok.inj ((readCode_eq_ok.mpr h).symm.trans (readCode_eq_ok.mpr hother))

end

/-! ## Pieces -/

/-- What a backslash and one character behind it stand for. -/
def shortEscapes : List (Char × Char) :=
  [('"', '"'), ('\\', '\\'), ('/', '/'), ('b', '\x08'), ('f', '\x0c'), ('n', '\n'), ('r', '\r'),
    ('t', '\t')]

theorem simpleEscape?_eq_some {letter c : Char} :
    simpleEscape? letter = some c ↔ (letter, c) ∈ shortEscapes := by
  constructor
  · intro h
    unfold simpleEscape? at h
    split at h <;> cases h <;> decide
  · intro h
    simp only [shortEscapes, List.mem_cons, Prod.mk.injEq, List.not_mem_nil, or_false] at h
    rcases h with ⟨rfl, rfl⟩ | ⟨rfl, rfl⟩ | ⟨rfl, rfl⟩ | ⟨rfl, rfl⟩ | ⟨rfl, rfl⟩ | ⟨rfl, rfl⟩ |
      ⟨rfl, rfl⟩ | ⟨rfl, rfl⟩ <;> rfl

/-- **Pieces**: what the characters between two quotes are cut into. -/
inductive Piece where
  /-- A character as it is. -/
  | plain (c : Char)
  /-- A backslash and one character. -/
  | short (letter : Char)
  /-- An escape with a code. -/
  | code (digits : List Char)
  /-- Two escapes with a code each, for one character. -/
  | pair (high low : List Char)

namespace Piece

/-- How a piece is written. -/
def text : Piece → List Char
  | .plain c => [c]
  | .short letter => ['\\', letter]
  | .code digits => '\\' :: 'u' :: digits
  | .pair high low => '\\' :: 'u' :: (high ++ '\\' :: 'u' :: low)

/-- The codes in a piece. -/
def codes : Piece → List (List Char)
  | .plain _ => []
  | .short _ => []
  | .code digits => [digits]
  | .pair high low => [high, low]

/-- A piece denotes a character, if `IsCode` tells which characters are a code, and which. -/
inductive Denotes (IsCode : List Char → Nat → Prop) : Piece → Char → Prop
  | plain {c : Char} (plain : c ≠ '\\') : Denotes IsCode (.plain c) c
  | short {letter c : Char} (mem : (letter, c) ∈ shortEscapes) : Denotes IsCode (.short letter) c
  | code {digits : List Char} {n : Nat} {c : Char} (isCode : IsCode digits n)
      (noSurrogate : ¬(0xD800 ≤ n ∧ n ≤ 0xDFFF)) (value : c.toNat = n) :
      Denotes IsCode (.code digits) c
  | pair {high low : List Char} {m n : Nat} {c : Char} (isHigh : IsCode high m)
      (isLow : IsCode low n) (highRange : 0xD800 ≤ m ∧ m ≤ 0xDBFF)
      (lowRange : 0xDC00 ≤ n ∧ n ≤ 0xDFFF)
      (value : c.toNat = 0x10000 + (m - 0xD800) * 1024 + (n - 0xDC00)) :
      Denotes IsCode (.pair high low) c

end Piece

/-- **Readings**: a text is cut into pieces, each of which denotes a character. -/
structure Reading (IsCode : List Char → Nat → Prop) (raw : List Char) (pieces : List Piece)
    (out : List Char) : Prop where
  text_eq : raw = pieces.flatMap Piece.text
  denotes : List.Forall₂ (Piece.Denotes IsCode) pieces out

/-- A text stands for what its pieces denote, one after the other. -/
def StandsFor (IsCode : List Char → Nat → Prop) (raw out : List Char) : Prop :=
  ∃ pieces, Reading IsCode raw pieces out

/-! ## Reading What a Text Stands for -/

section

variable {cs raw rest out : List Char} {p : Piece} {pieces : List Piece} {c : Char} {m n : Nat}
variable {IsCode : List Char → Nat → Prop}

theorem isHighSurrogate_iff : isHighSurrogate n = true ↔ 0xD800 ≤ n ∧ n ≤ 0xDBFF := by
  rw [isHighSurrogate, Bool.and_eq_true, decide_eq_true_eq, decide_eq_true_eq]
  omega

theorem isLowSurrogate_iff : isLowSurrogate n = true ↔ 0xDC00 ≤ n ∧ n ≤ 0xDFFF := by
  rw [isLowSurrogate, Bool.and_eq_true, decide_eq_true_eq, decide_eq_true_eq]
  omega

theorem toNat_ofNat_of_isValidChar (h : n.isValidChar) : (Char.ofNat n).toNat = n := by
  rw [Char.ofNat, dif_pos h]
  rfl

/-- The character of a code that is no surrogate. -/
theorem toNat_ofNat_code (hlt : n < 0x10000) (hno : ¬(0xD800 ≤ n ∧ n ≤ 0xDFFF)) :
    (Char.ofNat n).toNat = n :=
  toNat_ofNat_of_isValidChar (by unfold Nat.isValidChar; omega)

/-- The character of a pair of surrogates. -/
theorem toNat_surrogatePair (hm : 0xD800 ≤ m ∧ m ≤ 0xDBFF) (hn : 0xDC00 ≤ n ∧ n ≤ 0xDFFF) :
    (surrogatePair m n).toNat = 0x10000 + (m - 0xD800) * 1024 + (n - 0xDC00) :=
  toNat_ofNat_of_isValidChar (by unfold Nat.isValidChar; omega)

/-- An escape with a code that is no surrogate. -/
theorem unquote_code (hcode : readCode (cs.take 4) = .ok n)
    (hno : ¬(0xD800 ≤ n ∧ n ≤ 0xDFFF)) :
    unquote ('\\' :: 'u' :: cs) = (unquote (cs.drop 4)).map (Char.ofNat n :: ·) := by
  have hhigh : ¬isHighSurrogate n = true := by rw [isHighSurrogate_iff]; omega
  have hlow : ¬isLowSurrogate n = true := by rw [isLowSurrogate_iff]; omega
  rw [unquote, hcode]
  change (if isHighSurrogate n = true then _ else _) = _
  rw [if_neg hhigh, if_neg hlow]
  cases unquote (cs.drop 4) <;> rfl

/-- Two escapes with a pair of surrogates. -/
theorem unquote_pair (hhigh : readCode (cs.take 4) = .ok m) (hm : 0xD800 ≤ m ∧ m ≤ 0xDBFF)
    (hdrop : cs.drop 4 = '\\' :: 'u' :: rest) (hlow : readCode (rest.take 4) = .ok n)
    (hn : 0xDC00 ≤ n ∧ n ≤ 0xDFFF) :
    unquote ('\\' :: 'u' :: cs) = (unquote (rest.drop 4)).map (surrogatePair m n :: ·) := by
  rw [unquote, hhigh]
  change (if isHighSurrogate m = true then _ else _) = _
  rw [if_pos (isHighSurrogate_iff.mpr hm)]
  split
  · rename_i ds hds
    obtain rfl : rest = ds := by simpa using hdrop.symm.trans hds
    rw [hlow]
    change (if isLowSurrogate n = true then _ else _) = _
    rw [if_pos (isLowSurrogate_iff.mpr hn)]
    cases unquote (rest.drop 4) <;> rfl
  · rename_i hne
    exact absurd hdrop (hne rest)

theorem take_of_taken {digits : List Char} (h : TakenCode digits n) (rest : List Char) :
    (digits ++ rest).take 4 = digits ∧ (digits ++ rest).drop 4 = rest := by
  rw [← h.length_eq]
  exact ⟨List.take_left, List.drop_left⟩

/-- One piece in front of the rest gives one character. -/
theorem unquote_piece (h : p.Denotes TakenCode c) :
    unquote (p.text ++ rest) = (unquote rest).map (c :: ·) := by
  cases h with
  | plain hplain =>
    rw [Piece.text, List.singleton_append, unquote]
    · cases unquote rest <;> rfl
    all_goals simp [hplain]
  | @short letter _ hmem =>
    have hne : letter ≠ 'u' := by
      rintro rfl
      simp [shortEscapes] at hmem
    rw [Piece.text, List.cons_append, List.cons_append, List.nil_append, unquote,
      simpleEscape?_eq_some.mpr hmem]
    · cases unquote rest <;> rfl
    · exact hne
  | code hcode hno hvalue =>
    obtain ⟨htake, hdrop⟩ := take_of_taken hcode rest
    rw [Piece.text, List.cons_append, List.cons_append,
      unquote_code (by rw [htake]; exact readCode_eq_ok.mpr hcode) hno, hdrop, ← hvalue,
      Char.ofNat_toNat]
  | @pair high low m n _ hhigh hlow hm hn hvalue =>
    obtain ⟨htakeHigh, hdropHigh⟩ := take_of_taken hhigh ('\\' :: 'u' :: (low ++ rest))
    obtain ⟨htakeLow, hdropLow⟩ := take_of_taken hlow rest
    have hc : surrogatePair m n = c :=
      Char.toNat_inj.mp ((toNat_surrogatePair hm hn).trans hvalue.symm)
    rw [Piece.text, List.cons_append, List.cons_append, List.append_assoc, List.cons_append,
      List.cons_append, unquote_pair (by rw [htakeHigh]; exact readCode_eq_ok.mpr hhigh) hm hdropHigh
      (by rw [htakeLow]; exact readCode_eq_ok.mpr hlow) hn, hdropLow, hc]

/-- What a reading gives is what the reader gives. -/
theorem Reading.unquote_eq (h : Reading TakenCode raw pieces out) : unquote raw = .ok out := by
  obtain ⟨rfl, hdenotes⟩ := h
  induction hdenotes with
  | nil => simp [unquote]
  | cons hhead _ ih => rw [List.flatMap_cons, unquote_piece hhead, ih]; rfl

theorem Reading.cons (hp : p.Denotes IsCode c) (h : Reading IsCode rest pieces out) :
    Reading IsCode (p.text ++ rest) (p :: pieces) (c :: out) :=
  ⟨by rw [h.text_eq, List.flatMap_cons], .cons hp h.denotes⟩

/-- An escape with a code is written with four characters behind its letter. -/
theorem text_code_take (cs : List Char) :
    (Piece.code (cs.take 4)).text ++ cs.drop 4 = '\\' :: 'u' :: cs := by
  rw [Piece.text, List.cons_append, List.cons_append, List.take_append_drop]

/-- Behind the first code of a pair, its second one is written as an escape of its own. -/
theorem text_pair_take {cs ds : List Char} (hds : cs.drop 4 = '\\' :: 'u' :: ds) :
    (Piece.pair (cs.take 4) (ds.take 4)).text ++ ds.drop 4 = '\\' :: 'u' :: cs := by
  rw [Piece.text, List.cons_append, List.cons_append, List.append_assoc, List.cons_append,
    List.cons_append, List.take_append_drop, ← hds, List.take_append_drop]

/-- What the reader gives is what some reading gives. -/
theorem exists_reading (h : unquote raw = .ok out) : StandsFor TakenCode raw out := by
  fun_induction unquote raw generalizing out
  case case1 =>
    obtain rfl := Except.ok.inj h
    exact ⟨[], rfl, .nil⟩
  case case2 cs ihPair ihCode =>
    simp only [bind_eq_ok] at h
    obtain ⟨m, hm, h⟩ := h
    have hcode := readCode_eq_ok.mp hm
    split at h
    · rename_i hhigh
      split at h
      · rename_i ds hds
        simp only [bind_eq_ok] at h
        obtain ⟨n, hn, h⟩ := h
        split at h
        · rename_i hlow
          simp only [bind_eq_ok, pure_eq_ok] at h
          obtain ⟨tail, htail, rfl⟩ := h
          obtain ⟨pieces, hreading⟩ := ihPair ds hds htail
          rw [← text_pair_take hds]
          exact ⟨_, hreading.cons (.pair hcode (readCode_eq_ok.mp hn)
            (isHighSurrogate_iff.mp hhigh) (isLowSurrogate_iff.mp hlow)
            (toNat_surrogatePair (isHighSurrogate_iff.mp hhigh) (isLowSurrogate_iff.mp hlow)))⟩
        · cases h
      · cases h
    · rename_i hhigh
      split at h
      · cases h
      · rename_i hlow
        simp only [bind_eq_ok, pure_eq_ok] at h
        obtain ⟨tail, htail, rfl⟩ := h
        obtain ⟨pieces, hreading⟩ := ihCode htail
        have hno : ¬(0xD800 ≤ m ∧ m ≤ 0xDFFF) := by
          rw [isHighSurrogate_iff] at hhigh
          rw [isLowSurrogate_iff] at hlow
          omega
        rw [← text_code_take cs]
        exact ⟨_, hreading.cons (.code hcode hno (toNat_ofNat_code hcode.lt hno))⟩
  case case3 => cases h
  case case4 letter cs _ d hd ih =>
    simp only [bind_eq_ok, pure_eq_ok] at h
    obtain ⟨tail, htail, rfl⟩ := h
    obtain ⟨pieces, hreading⟩ := ih htail
    exact ⟨_, hreading.cons (.short (simpleEscape?_eq_some.mp hd))⟩
  case case5 => cases h
  case case6 c cs _ hend hescape ih =>
    simp only [bind_eq_ok, pure_eq_ok] at h
    obtain ⟨tail, htail, rfl⟩ := h
    obtain ⟨pieces, hreading⟩ := ih htail
    refine ⟨_, hreading.cons (.plain ?_)⟩
    rintro rfl
    cases cs with
    | nil => exact hend rfl rfl
    | cons d ds => exact hescape d ds rfl rfl

/-- A code on its own is not that of a high half, with which a pair begins. -/
theorem code_text_ne_pair_text {digits high low rest' : List Char} (hcode : TakenCode digits n)
    (hno : ¬(0xD800 ≤ n ∧ n ≤ 0xDFFF)) (hhigh : TakenCode high m) (hm : 0xD800 ≤ m ∧ m ≤ 0xDBFF) :
    (Piece.code digits).text ++ rest ≠ (Piece.pair high low).text ++ rest' := by
  intro h
  simp only [Piece.text, List.cons_append, List.append_assoc, List.cons.injEq, true_and] at h
  obtain ⟨rfl, -⟩ := List.append_inj h (hcode.length_eq.trans hhigh.length_eq.symm)
  have hsame := hcode.unique hhigh
  omega

/-- Equal texts that begin with a piece each begin with the same piece. -/
theorem Piece.Denotes.text_inj {q : Piece} {d : Char} {rest' : List Char}
    (hp : p.Denotes TakenCode c) (hq : q.Denotes TakenCode d)
    (h : p.text ++ rest = q.text ++ rest') : p = q ∧ rest = rest' := by
  have huNotShort : ∀ {c : Char}, ('u', c) ∉ shortEscapes := by simp [shortEscapes]
  cases hp with
  | plain hplain =>
    cases hq with
    | plain => simpa [Piece.text] using h
    | short | code | pair => exact absurd (List.cons.inj h).1 hplain
  | short hmem =>
    cases hq with
    | plain hplain => exact absurd (List.cons.inj h).1.symm hplain
    | short => simpa [Piece.text] using h
    | code | pair =>
      obtain rfl := (List.cons.inj (List.cons.inj h).2).1
      exact absurd hmem huNotShort
  | code hcode hno =>
    cases hq with
    | plain hplain => exact absurd (List.cons.inj h).1.symm hplain
    | short hmem =>
      obtain rfl := (List.cons.inj (List.cons.inj h).2).1
      exact absurd hmem huNotShort
    | code hcode' =>
      have htail := (List.cons.inj (List.cons.inj h).2).2
      obtain ⟨rfl, rfl⟩ := List.append_inj htail (hcode.length_eq.trans hcode'.length_eq.symm)
      exact ⟨rfl, rfl⟩
    | pair hhigh _ hm => exact absurd h (code_text_ne_pair_text hcode hno hhigh hm)
  | pair hhigh hlow hm =>
    cases hq with
    | plain hplain => exact absurd (List.cons.inj h).1.symm hplain
    | short hmem =>
      obtain rfl := (List.cons.inj (List.cons.inj h).2).1
      exact absurd hmem huNotShort
    | code hcode hno => exact absurd h.symm (code_text_ne_pair_text hcode hno hhigh hm)
    | pair hhigh' hlow' =>
      simp only [Piece.text, List.cons_append, List.append_assoc, List.cons.injEq, true_and] at h
      obtain ⟨rfl, hback⟩ := List.append_inj h (hhigh.length_eq.trans hhigh'.length_eq.symm)
      obtain ⟨rfl, rfl⟩ := List.append_inj (List.cons.inj (List.cons.inj hback).2).2
        (hlow.length_eq.trans hlow'.length_eq.symm)
      exact ⟨rfl, rfl⟩

/-- A text has one reading at most. -/
theorem Reading.unique {pieces' : List Piece} {out' : List Char}
    (h : Reading TakenCode raw pieces out) (h' : Reading TakenCode raw pieces' out') :
    pieces = pieces' := by
  obtain ⟨rfl, hdenotes⟩ := h
  obtain ⟨htext, hdenotes'⟩ := h'
  induction hdenotes generalizing pieces' out' with
  | nil =>
    cases hdenotes' with
    | nil => rfl
    | @cons q _ _ _ hq => cases q <;> cases htext
  | @cons p _ _ _ hp _ ih =>
    cases hdenotes' with
    | nil => cases p <;> cases htext
    | cons hq hdenotes' =>
      obtain ⟨rfl, hrest⟩ := hp.text_inj hq htext
      rw [ih hrest hdenotes']

/-! ## Plus Signs -/

/-- A plus sign stands at the front of a code in the piece. -/
def Piece.Signed (p : Piece) : Prop := ∃ digits ∈ p.codes, digits.head? = some '+'

theorem FourDigits.unsigned (h : FourDigits cs n) : cs.head? ≠ some '+' := by
  obtain ⟨ds, hlength, hds, -⟩ := h
  intro hhead
  obtain ⟨cs, rfl⟩ : ∃ ds, cs = '+' :: ds := by
    cases cs <;> simp_all
  cases ds with
  | nil => simp at hlength
  | cons d ds => simp [show Hex.digit? '+' = none by decide] at hds

theorem TakenCode.fourDigits (h : TakenCode cs n) (hhead : cs.head? ≠ some '+') :
    FourDigits cs n := by
  rcases h with h | ⟨ds, rfl, -⟩
  · exact h
  · exact absurd rfl hhead

theorem Piece.Denotes.mono {IsCode' : List Char → Nat → Prop} (h : p.Denotes IsCode c)
    (hcodes : ∀ digits ∈ p.codes, ∀ n, IsCode digits n → IsCode' digits n) :
    p.Denotes IsCode' c := by
  cases h with
  | plain hplain => exact .plain hplain
  | short hmem => exact .short hmem
  | code hcode hno hvalue => exact .code (hcodes _ (by simp [Piece.codes]) _ hcode) hno hvalue
  | pair hhigh hlow hm hn hvalue =>
    exact .pair (hcodes _ (by simp [Piece.codes]) _ hhigh) (hcodes _ (by simp [Piece.codes]) _ hlow)
      hm hn hvalue

theorem Piece.Denotes.unsigned (h : p.Denotes FourDigits c) : ¬p.Signed := by
  rintro ⟨digits, hdigits, hhead⟩
  cases h with
  | plain | short => simp [Piece.codes] at hdigits
  | code hcode =>
    obtain rfl := List.mem_singleton.mp hdigits
    exact hcode.unsigned hhead
  | pair hhigh hlow =>
    rcases List.mem_pair.mp hdigits with rfl | rfl
    · exact hhigh.unsigned hhead
    · exact hlow.unsigned hhead

theorem Reading.taken (h : Reading FourDigits raw pieces out) : Reading TakenCode raw pieces out :=
  ⟨h.text_eq, h.denotes.imp fun _ _ hp => hp.mono fun _ _ _ hcode => hcode.taken⟩

theorem Piece.Denotes.fourDigits (h : p.Denotes TakenCode c) (hunsigned : ¬p.Signed) :
    p.Denotes FourDigits c :=
  h.mono fun _ hdigits _ hcode => hcode.fourDigits fun hhead => hunsigned ⟨_, hdigits, hhead⟩

theorem Reading.unsigned (h : Reading FourDigits raw pieces out) : ∀ p ∈ pieces, ¬p.Signed :=
  ((List.forall₂_and_left _ _).mp (h.denotes.imp fun _ _ hp => ⟨hp.unsigned, hp⟩)).1

theorem Reading.fourDigits (h : Reading TakenCode raw pieces out)
    (hunsigned : ∀ p ∈ pieces, ¬p.Signed) : Reading FourDigits raw pieces out :=
  ⟨h.text_eq, ((List.forall₂_and_left _ _).mpr ⟨hunsigned, h.denotes⟩).imp
    fun _ _ hp => hp.2.fourDigits hp.1⟩

/-- **What a quoted string stands for**: a text is read exactly if it can be cut into characters other
    than backslashes and escapes, each of which denotes a character, where four characters are a code if
    the reader takes them for one. Four hexadecimal digits are the only codes if no code in the text
    begins with a plus sign, and only then. -/
theorem unquote_eq_ok_iff (raw : List Char) :
    (∀ out, unquote raw = .ok out ↔ StandsFor TakenCode raw out) ∧
    ((∀ out, unquote raw = .ok out ↔ StandsFor FourDigits raw out) ↔
      ∀ pieces out, Reading TakenCode raw pieces out → ∀ p ∈ pieces, ¬p.Signed) := by
  have taken_iff : ∀ out, unquote raw = .ok out ↔ StandsFor TakenCode raw out :=
    fun _ => ⟨exists_reading, fun ⟨_, h⟩ => h.unquote_eq⟩
  refine ⟨taken_iff, ?_, ?_⟩
  · intro hfour pieces out hreading
    obtain ⟨pieces', hreading'⟩ := (hfour out).mp hreading.unquote_eq
    obtain rfl := hreading.unique hreading'.taken
    exact hreading'.unsigned
  · intro hunsigned out
    rw [taken_iff]
    constructor
    · rintro ⟨pieces, hreading⟩
      exact ⟨pieces, hreading.fourDigits (hunsigned pieces out hreading)⟩
    · rintro ⟨pieces, hreading⟩
      exact ⟨pieces, hreading.taken⟩

end

/-- An escape whose code is a plus sign and three digits. -/
def signedEscape : List Char := ['\\', 'u', '+', '0', '4', '1']

/-- The escape is read, although its code is not made of four digits. -/
theorem signedEscape_read :
    unquote signedEscape = .ok ['A'] ∧ ∀ out, ¬StandsFor FourDigits signedEscape out := by
  have hcode : TakenCode ['+', '0', '4', '1'] 0x41 :=
    .inr ⟨_, rfl, hexDigits_iff.mpr ⟨rfl, by decide⟩⟩
  have hreading : Reading TakenCode signedEscape [.code ['+', '0', '4', '1']] ['A'] :=
    ⟨rfl, .cons (.code hcode (by decide) (by decide)) .nil⟩
  refine ⟨hreading.unquote_eq, ?_⟩
  rintro out ⟨pieces, hfour⟩
  obtain rfl := hreading.unique hfour.taken
  exact hfour.unsigned _ (List.mem_singleton_self _) ⟨_, List.mem_singleton_self _, rfl⟩

end SchemaModel.Sdl
