import Mathlib.Tactic.SplitIfs
import SchemaModel.Sdl.ByteLexer

/-! # Bytes of Characters

    What the bytes of a text tell of its characters.

    * **UTF-8**: a character of ASCII is its own byte, and all bytes of any other character are beyond
      ASCII.
    * **Classes of ASCII**: a class with no characters beyond ASCII can be read off bytes. -/

namespace SchemaModel.Sdl

namespace ByteLexer

/-! ## Bytes of Characters -/

/-- The bytes of a character. -/
def bytesOf (c : Char) : List Char := (String.utf8EncodeChar c).map Char.ofUInt8

/-- The bytes of characters. -/
def utf8 (cs : List Char) : List Char := cs.flatMap bytesOf

theorem bytes_eq_utf8 (source : String) : bytes source = utf8 source.toList := by
  rw [bytes, String.toUTF8_eq_toByteArray, ← String.utf8Encode_toList, List.utf8Encode,
    List.toList_data_toByteArray, utf8, List.map_flatMap]
  rfl

variable {c : Char} {cs : List Char}

@[simp] theorem length_bytesOf (c : Char) : (bytesOf c).length = c.utf8Size := by
  rw [bytesOf, List.length_map, String.length_utf8EncodeChar]

theorem utf8_cons (c : Char) (cs : List Char) : utf8 (c :: cs) = bytesOf c ++ utf8 cs := rfl

@[simp] theorem length_utf8 (cs : List Char) : (utf8 cs).length = byteLength cs := by
  induction cs with
  | nil => rfl
  | cons c cs ih => rw [utf8_cons, List.length_append, length_bytesOf, ih, byteLength_cons]

/-- The codes of the bytes of a character. -/
theorem codes_bytesOf (c : Char) : (bytesOf c).map Char.toNat =
    if c.toNat ≤ 0x7F then [c.toNat]
    else if c.toNat ≤ 0x7FF then [c.toNat / 64 + 0xC0, c.toNat % 64 + 0x80]
    else if c.toNat ≤ 0xFFFF then
      [c.toNat / 4096 + 0xE0, c.toNat / 64 % 64 + 0x80, c.toNat % 64 + 0x80]
    else [c.toNat / 262144 + 0xF0, c.toNat / 4096 % 64 + 0x80, c.toNat / 64 % 64 + 0x80,
      c.toNat % 64 + 0x80] := by
  have hvalid : c.toNat < 0x110000 := by
    have hvalid : Nat.isValidChar c.toNat := c.valid
    rcases hvalid with h | h <;> omega
  have htoNat : ∀ b : UInt8, (Char.ofUInt8 b).toNat = b.toNat := fun _ => rfl
  have hcode : c.val.toNat = c.toNat := rfl
  rw [bytesOf, String.utf8EncodeChar, hcode]
  split_ifs <;> simp only [List.map_cons, List.map_nil, htoNat, UInt8.toNat_ofNat', List.cons.injEq,
    and_true] <;> omega

/-- A character of ASCII is its own byte. -/
theorem bytesOf_ascii (h : c.toNat < 128) : bytesOf c = [c] := by
  have hcodes := codes_bytesOf c
  rw [if_pos (Nat.le_of_lt_succ h)] at hcodes
  obtain ⟨b, hb, hcode⟩ := List.map_eq_singleton_iff.mp hcodes
  rw [hb, Char.toNat_inj.mp hcode]

theorem utf8_cons_of_ascii (h : c.toNat < 128) (cs : List Char) :
    utf8 (c :: cs) = c :: utf8 cs := by
  rw [utf8_cons, bytesOf_ascii h, List.singleton_append]

/-- The bytes of a character beyond ASCII are all beyond ASCII. -/
theorem beyond_of_mem (h : 128 ≤ c.toNat) {b : Char} (hb : b ∈ bytesOf c) : 128 ≤ b.toNat := by
  have hcode : b.toNat ∈ (bytesOf c).map Char.toNat := List.mem_map_of_mem hb
  rw [codes_bytesOf, if_neg (by omega)] at hcode
  split_ifs at hcode <;> simp only [List.mem_cons, List.not_mem_nil, or_false] at hcode <;> omega

/-- Only a byte order mark has the bytes of one. -/
theorem mark_prefix_iff (cs : List Char) :
    ['\xEF', '\xBB', '\xBF'] <+: utf8 cs ↔ cs.head? = some '\ufeff' := by
  constructor
  · intro h
    cases cs with
    | nil => simp [utf8] at h
    | cons c cs =>
      have hcodes := h.map Char.toNat
      rw [utf8_cons, List.map_append, codes_bytesOf] at hcodes
      suffices c.toNat = 0xFEFF from congrArg some (Char.toNat_inj.mp this)
      split_ifs at hcodes <;> simp only [List.map_cons, List.cons_append, List.cons_prefix_cons,
        Char.reduceToNat] at hcodes <;> omega
  · intro h
    obtain ⟨rest, rfl⟩ := List.head?_eq_some_iff.mp h
    exact ⟨utf8 rest, rfl⟩

/-! ## Classes of ASCII -/

/-- A class with no characters beyond ASCII. -/
def Ascii (p : Char → Bool) : Prop := ∀ c, p c → c.toNat < 128

theorem ascii_eq {a : Char} (h : a.toNat < 128) : Ascii fun c => c = a := by
  intro c hc
  obtain rfl : c = a := by simpa using hc
  exact h

theorem Ascii.or {p q : Char → Bool} (hp : Ascii p) (hq : Ascii q) : Ascii fun c => p c || q c :=
  fun c hc => (Bool.or_eq_true _ _ ▸ hc).elim (hp c) (hq c)

theorem Ascii.eq_false {p : Char → Bool} (hp : Ascii p) (hc : 128 ≤ c.toNat) : p c = false :=
  Bool.eq_false_iff.mpr fun h => Nat.not_lt.mpr hc (hp c h)

/-- No byte of a character is in a class of ASCII that the character is not in. -/
theorem Ascii.eq_false_of_mem {p : Char → Bool} (hp : Ascii p) (hc : p c = false) {b : Char}
    (hb : b ∈ bytesOf c) : p b = false := by
  by_cases hascii : c.toNat < 128
  · rw [bytesOf_ascii hascii, List.mem_singleton] at hb
    rwa [hb]
  · exact hp.eq_false (beyond_of_mem (Nat.not_lt.mp hascii) hb)

theorem exists_bytesOf (c : Char) : ∃ b bs, bytesOf c = b :: bs :=
  List.exists_cons_of_length_pos (by rw [length_bytesOf]; exact c.utf8Size_pos)

/-- The first byte is in a class of ASCII if the first character is. -/
theorem any_head?_utf8 {p : Char → Bool} (hp : Ascii p) (cs : List Char) :
    (utf8 cs).head?.any p = cs.head?.any p := by
  cases cs with
  | nil => rfl
  | cons c cs =>
    by_cases hc : c.toNat < 128
    · rw [utf8_cons_of_ascii hc]
      rfl
    · obtain ⟨b, bs, hbs⟩ := exists_bytesOf c
      have hc := Nat.not_lt.mp hc
      have hb := beyond_of_mem hc (hbs ▸ List.mem_cons_self)
      rw [utf8_cons, hbs]
      simp [hp.eq_false hb, hp.eq_false hc]

/-- The first byte of a character is in a class of ASCII if the character is. -/
theorem Ascii.first_eq {p : Char → Bool} (hp : Ascii p) {b : Char} {bs : List Char}
    (h : bytesOf c = b :: bs) : p b = p c := by
  have hany := any_head?_utf8 hp [c]
  rw [utf8_cons, h] at hany
  simpa using hany

theorem head?_utf8_eq_some {a : Char} (h : a.toNat < 128) :
    (utf8 cs).head? = some a ↔ cs.head? = some a := by
  have any_eq : ∀ o : Option Char, o = some a ↔ o.any (fun c => c = a) = true := by
    intro o
    cases o <;> simp
  rw [any_eq, any_eq, any_head?_utf8 (ascii_eq h)]

/-- The bytes begin with characters of ASCII if the characters do. -/
theorem prefix_utf8_iff {as : List Char} (h : ∀ a ∈ as, a.toNat < 128) :
    as <+: utf8 cs ↔ as <+: cs := by
  induction as generalizing cs with
  | nil => simp
  | cons a as ih =>
    obtain ⟨ha, has⟩ := List.forall_mem_cons.mp h
    by_cases hhead : cs.head? = some a
    · obtain ⟨cs, rfl⟩ := List.head?_eq_some_iff.mp hhead
      rw [utf8_cons_of_ascii ha, List.cons_prefix_cons, List.cons_prefix_cons, ih has]
    · constructor
      · rintro ⟨rest, hrest⟩
        exact absurd ((head?_utf8_eq_some ha).mp (by rw [← hrest]; rfl)) hhead
      · rintro ⟨rest, rfl⟩
        exact absurd rfl hhead

/-- No byte of a character but the first one is in a class of ASCII. -/
theorem Ascii.eq_false_of_tail {p : Char → Bool} (hp : Ascii p) {c b : Char} {bs : List Char}
    (h : bytesOf c = b :: bs) : ∀ d ∈ bs, p d = false := by
  intro d hd
  by_cases hc : c.toNat < 128
  · rw [bytesOf_ascii hc] at h
    obtain ⟨-, rfl⟩ := List.cons.inj h
    cases hd
  · exact hp.eq_false (beyond_of_mem (Nat.not_lt.mp hc) (h ▸ List.mem_cons_of_mem b hd))

/-! ## Classes of the Lexer -/

theorem ascii_isLineEnd : Ascii isLineEnd := by
  intro c hc
  rcases (by simpa [isLineEnd] using hc : c = '\n' ∨ c = '\r') with rfl | rfl <;> decide

theorem ascii_isByteBlank : Ascii isByteBlank := by
  intro c hc
  rcases (by simpa [isByteBlank, or_assoc] using hc :
    c = ' ' ∨ c = '\t' ∨ c = '\r' ∨ c = '\n' ∨ c = ',') with rfl | rfl | rfl | rfl | rfl <;> decide

theorem ascii_isDigit : Ascii Char.isDigit := by
  intro c hc
  simp only [Char.isDigit, ge_iff_le, Bool.and_eq_true, decide_eq_true_eq] at hc
  have hle : c.toNat ≤ 57 := hc.2
  omega

theorem ascii_isAlpha : Ascii Char.isAlpha := by
  intro c hc
  rcases Bool.or_eq_true_iff.mp hc with hupper | hlower
  · have hupper : c.toNat ≤ 90 := (of_decide_eq_true (p := 65 ≤ c.toNat ∧ c.toNat ≤ 90) hupper).2
    omega
  · have hlower : c.toNat ≤ 122 := of_decide_eq_true (Bool.and_eq_true_iff.mp hlower).2
    omega

theorem ascii_isNameStart : Ascii isNameStart :=
  ascii_isAlpha.or (ascii_eq (by decide))

theorem ascii_isNamePart : Ascii isNamePart :=
  (ascii_isAlpha.or ascii_isDigit).or (ascii_eq (by decide))

/-- Only characters of ASCII are punctuators. -/
theorem ascii_ofChar? : Ascii fun c => (Punctuator.ofChar? c).isSome := by
  intro c hc
  obtain ⟨mark, -, hmark⟩ := List.find?_isSome.mp hc
  obtain rfl : mark.char = c := by simpa using hmark
  cases mark <;> decide

end ByteLexer

end SchemaModel.Sdl
