import Mathlib.Computability.RegularExpressions
import SchemaModel.Proofs.Tiling

/-! # Numerals

    Which texts are numbers, and what the lexer makes of a number.

    * **Numerals**: the regular language of numbers.
    * **Parts**: what each part of the scan of a number takes without a fault, and where it stops.
    * **Number lexemes**: a lexeme that begins like a number is a token exactly if a numeral is there
      that no digit, point, underscore or letter goes on with. -/

namespace SchemaModel.Sdl

/-! ## Numerals -/

namespace Numeral

open RegularExpression (char star)

/-- One of these characters. -/
def anyOf (cs : List Char) : RegularExpression Char := cs.foldr (fun c r => char c + r) 0

/-- This, or nothing. -/
def optional (r : RegularExpression Char) : RegularExpression Char := 1 + r

/-- This, once or more. -/
def repeated (r : RegularExpression Char) : RegularExpression Char := r * star r

def digit : RegularExpression Char := anyOf ['0', '1', '2', '3', '4', '5', '6', '7', '8', '9']

/-- A zero, or digits of which the first is none. -/
def integerPart : RegularExpression Char :=
  char '0' + anyOf ['1', '2', '3', '4', '5', '6', '7', '8', '9'] * star digit

def fractionPart : RegularExpression Char := char '.' * repeated digit

def exponentPart : RegularExpression Char :=
  anyOf ['e', 'E'] * optional (anyOf ['+', '-']) * repeated digit

/-- **Numerals**: an optional minus sign, an integer part, an optional fraction and an optional
    exponent. -/
def expression : RegularExpression Char :=
  optional (char '-') * integerPart * optional fractionPart * optional exponentPart

/-! ## Membership -/

variable {w : List Char} {cs : List Char} {r : RegularExpression Char}

theorem mem_anyOf : w ∈ (anyOf cs).matches' ↔ ∃ c ∈ cs, w = [c] := by
  induction cs with
  | nil => simp [anyOf, RegularExpression.matches'_zero]
  | cons c cs ih =>
    have hsum : (anyOf (c :: cs)).matches' = {[c]} + (anyOf cs).matches' := rfl
    rw [hsum, Language.mem_add, ih, List.exists_mem_cons_iff]
    rfl

theorem mem_optional : w ∈ (optional r).matches' ↔ w = [] ∨ w ∈ r.matches' :=
  Iff.rfl

/-- The digits are the characters that count as digits. -/
theorem isDigit_iff {c : Char} :
    c ∈ ['0', '1', '2', '3', '4', '5', '6', '7', '8', '9'] ↔ c.isDigit := by
  constructor
  · have hall : ['0', '1', '2', '3', '4', '5', '6', '7', '8', '9'].all Char.isDigit = true := by decide
    exact List.all_eq_true.mp hall c
  · intro h
    have hbounds : 48 ≤ c.toNat ∧ c.toNat < 58 := by
      simp only [Char.isDigit, ge_iff_le, Bool.and_eq_true, decide_eq_true_eq] at h
      exact ⟨h.1, Nat.lt_succ_of_le h.2⟩
    rw [← Char.ofNat_toNat c]
    exact (by decide : ∀ n < 58, 48 ≤ n →
      Char.ofNat n ∈ ['0', '1', '2', '3', '4', '5', '6', '7', '8', '9']) _ hbounds.2 hbounds.1

/-- What holds of the ten digits holds of all characters that count as digits. -/
theorem forall_digit {p : Char → Bool}
    (h : ['0', '1', '2', '3', '4', '5', '6', '7', '8', '9'].all p = true) {c : Char} (hc : c.isDigit) :
    p c = true :=
  List.all_eq_true.mp h c (isDigit_iff.mpr hc)

theorem mem_digit : w ∈ digit.matches' ↔ ∃ c, c.isDigit ∧ w = [c] := by
  rw [digit, mem_anyOf]
  simp only [isDigit_iff]

theorem mem_star_digit : w ∈ (star digit).matches' ↔ ∀ c ∈ w, c.isDigit := by
  rw [RegularExpression.matches'_star, Language.mem_kstar]
  constructor
  · rintro ⟨parts, rfl, hparts⟩ c hc
    obtain ⟨part, hpart, hc⟩ := List.mem_flatten.mp hc
    obtain ⟨d, hd, rfl⟩ := mem_digit.mp (hparts part hpart)
    rwa [List.mem_singleton.mp hc]
  · intro h
    have hflatten : (w.map fun c => [c]).flatten = w := by
      clear h
      induction w with
      | nil => rfl
      | cons c w ih => exact congrArg (c :: ·) ih
    refine ⟨w.map fun c => [c], hflatten.symm, fun part hpart => ?_⟩
    obtain ⟨c, hc, rfl⟩ := List.mem_map.mp hpart
    exact mem_digit.mpr ⟨c, h c hc, rfl⟩

theorem mem_repeated_digit : w ∈ (repeated digit).matches' ↔ w ≠ [] ∧ ∀ c ∈ w, c.isDigit := by
  rw [repeated, RegularExpression.matches'_mul, Language.mem_mul]
  constructor
  · rintro ⟨front, hfront, back, hback, rfl⟩
    obtain ⟨c, hc, rfl⟩ := mem_digit.mp hfront
    exact ⟨List.cons_ne_nil c back, List.forall_mem_cons.mpr ⟨hc, mem_star_digit.mp hback⟩⟩
  · rintro ⟨hne, hall⟩
    obtain ⟨c, back, rfl⟩ := List.exists_cons_of_ne_nil hne
    obtain ⟨hc, hback⟩ := List.forall_mem_cons.mp hall
    exact ⟨[c], mem_digit.mpr ⟨c, hc, rfl⟩, back, mem_star_digit.mpr hback, rfl⟩

theorem mem_integerPart : w ∈ integerPart.matches' ↔
    w = ['0'] ∨ ∃ d ds, w = d :: ds ∧ d ≠ '0' ∧ ∀ c ∈ d :: ds, c.isDigit := by
  have hnonzero : ∀ {c : Char},
      c ∈ ['1', '2', '3', '4', '5', '6', '7', '8', '9'] ↔ c ≠ '0' ∧ c.isDigit := by
    intro c
    rw [← isDigit_iff]
    constructor
    · exact fun h => ⟨fun hc => absurd (hc ▸ h) (by decide), List.mem_cons_of_mem '0' h⟩
    · exact fun h => (List.mem_cons.mp h.2).resolve_left h.1
  rw [integerPart, RegularExpression.matches'_add, Language.mem_add, RegularExpression.matches'_mul,
    Language.mem_mul]
  refine or_congr Iff.rfl ?_
  constructor
  · rintro ⟨front, hfront, back, hback, rfl⟩
    obtain ⟨d, hd, rfl⟩ := mem_anyOf.mp hfront
    obtain ⟨hne, hd⟩ := hnonzero.mp hd
    exact ⟨d, back, rfl, hne, List.forall_mem_cons.mpr ⟨hd, mem_star_digit.mp hback⟩⟩
  · rintro ⟨d, ds, rfl, hne, hall⟩
    obtain ⟨hd, hds⟩ := List.forall_mem_cons.mp hall
    exact ⟨[d], mem_anyOf.mpr ⟨d, hnonzero.mpr ⟨hne, hd⟩, rfl⟩, ds, mem_star_digit.mpr hds, rfl⟩

theorem digits_of_integerPart (h : w ∈ integerPart.matches') : w ≠ [] ∧ ∀ c ∈ w, c.isDigit := by
  rcases mem_integerPart.mp h with rfl | ⟨d, ds, rfl, -, hall⟩
  · exact ⟨List.cons_ne_nil '0' [], List.forall_mem_singleton.mpr rfl⟩
  · exact ⟨List.cons_ne_nil d ds, hall⟩

theorem mem_fractionPart : w ∈ fractionPart.matches' ↔
    ∃ ds, w = '.' :: ds ∧ ds ≠ [] ∧ ∀ c ∈ ds, c.isDigit := by
  rw [fractionPart, RegularExpression.matches'_mul, Language.mem_mul]
  constructor
  · rintro ⟨front, rfl, ds, hds, rfl⟩
    exact ⟨ds, rfl, mem_repeated_digit.mp hds⟩
  · rintro ⟨ds, rfl, hds⟩
    exact ⟨['.'], rfl, ds, mem_repeated_digit.mpr hds, rfl⟩

theorem mem_exponentPart : w ∈ exponentPart.matches' ↔ ∃ mark sign ds, w = mark :: (sign ++ ds) ∧
    (mark = 'e' ∨ mark = 'E') ∧ (sign = [] ∨ sign = ['+'] ∨ sign = ['-']) ∧
      ds ≠ [] ∧ ∀ c ∈ ds, c.isDigit := by
  have hmark : ∀ {c : Char}, c ∈ ['e', 'E'] ↔ c = 'e' ∨ c = 'E' := by simp
  have hsign : ∀ {v : List Char}, v ∈ (anyOf ['+', '-']).matches' ↔ v = ['+'] ∨ v = ['-'] := by
    simp [mem_anyOf]
  rw [exponentPart, RegularExpression.matches'_mul, Language.mem_mul]
  constructor
  · rintro ⟨front, hfront, ds, hds, rfl⟩
    rw [RegularExpression.matches'_mul, Language.mem_mul] at hfront
    obtain ⟨first, hfirst, sign, hsigns, rfl⟩ := hfront
    obtain ⟨c, hc, rfl⟩ := mem_anyOf.mp hfirst
    exact ⟨c, sign, ds, rfl, hmark.mp hc, (mem_optional.mp hsigns).imp_right hsign.mp,
      mem_repeated_digit.mp hds⟩
  · rintro ⟨c, sign, ds, rfl, hc, hsigns, hds⟩
    refine ⟨c :: sign, ?_, ds, mem_repeated_digit.mpr hds, rfl⟩
    rw [RegularExpression.matches'_mul, Language.mem_mul]
    exact ⟨[c], mem_anyOf.mpr ⟨c, hmark.mpr hc, rfl⟩, sign,
      mem_optional.mpr (hsigns.imp_right hsign.mpr), rfl⟩

theorem mem_expression : w ∈ expression.matches' ↔ ∃ sign whole fraction exponent,
    w = sign ++ (whole ++ (fraction ++ exponent)) ∧ (sign = [] ∨ sign = ['-']) ∧
      whole ∈ integerPart.matches' ∧ (fraction = [] ∨ fraction ∈ fractionPart.matches') ∧
        (exponent = [] ∨ exponent ∈ exponentPart.matches') := by
  simp only [expression, RegularExpression.matches'_mul, Language.mem_mul, mem_optional]
  constructor
  · rintro ⟨_, ⟨_, ⟨sign, hsign, whole, hwhole, rfl⟩, fraction, hfraction, rfl⟩, exponent, hexponent,
      rfl⟩
    exact ⟨sign, whole, fraction, exponent, by simp only [List.append_assoc], hsign, hwhole, hfraction,
      hexponent⟩
  · rintro ⟨sign, whole, fraction, exponent, rfl, hsign, hwhole, hfraction, hexponent⟩
    exact ⟨_, ⟨_, ⟨sign, hsign, whole, hwhole, rfl⟩, fraction, hfraction, rfl⟩, exponent, hexponent,
      by simp only [List.append_assoc]⟩

end Numeral

/-! ## Parts of a Number -/

/-- **Stops**: no character of a class comes next. -/
def Stops (p : Char → Bool) (rest : List Char) : Prop := ∀ c ∈ rest.head?, p c = false

theorem stops_cons {p : Char → Bool} {c : Char} (hc : p c = false) (cs : List Char) :
    Stops p (c :: cs) := by
  rintro _ ⟨⟩
  exact hc

theorem Stops.imp {p q : Char → Bool} {cs : List Char} (h : Stops q cs)
    (hpq : ∀ c, q c = false → p c = false) : Stops p cs := fun c hc => hpq c (h c hc)

/-- A class stops if it does behind a part that may be missing, and if it does not begin that part. -/
theorem stops_append {p : Char → Bool} {part rest : List Char}
    (hpart : part = [] ∨ ∃ c back, part = c :: back ∧ p c = false) (hrest : Stops p rest) :
    Stops p (part ++ rest) := by
  rcases hpart with rfl | ⟨c, back, rfl, hc⟩
  · exact hrest
  · exact stops_cons hc (back ++ rest)

/-- A class without digits stops in front of digits. -/
theorem stops_of_digits {p : Char → Bool} {ds : List Char} (hds : ds ≠ [] ∧ ∀ c ∈ ds, c.isDigit)
    (hp : ['0', '1', '2', '3', '4', '5', '6', '7', '8', '9'].all (!p ·) = true) (rest : List Char) :
    Stops p (ds ++ rest) := by
  obtain ⟨d, ds, rfl⟩ := List.exists_cons_of_ne_nil hds.1
  have hd : (!p d) = true := Numeral.forall_digit hp (hds.2 d List.mem_cons_self)
  exact stops_cons ((Bool.not_eq_true' _).mp hd) (ds ++ rest)

namespace Scan

open Numeral

variable {cs w rest : List Char}

theorem run_eq_taken {p : Char → Bool} : run p cs = taken w rest ↔
    cs = w ++ rest ∧ (∀ c ∈ w, p c) ∧ Stops p rest := by
  constructor
  · intro h
    obtain ⟨rfl, rfl⟩ : cs.takeWhile p = w ∧ cs.dropWhile p = rest := by
      simpa [run, taken] using h
    exact ⟨List.takeWhile_append_dropWhile.symm, fun c hc => List.mem_takeWhile_imp hc,
      head?_of_takeWhile List.takeWhile_append_dropWhile.symm rfl⟩
  · rintro ⟨rfl, hall, hstops⟩
    have hnone : rest.takeWhile p = [] ∧ rest.dropWhile p = rest := by
      cases rest with
      | nil => exact ⟨rfl, rfl⟩
      | cons c rest => simp [hstops c rfl]
    rw [run, List.takeWhile_append_of_pos hall, List.dropWhile_append_of_pos hall, hnone.1, hnone.2,
      List.append_nil]

theorem digits_eq_taken {missing : LexicalFault} : digits missing cs = taken w rest ↔
    cs = w ++ rest ∧ (w ≠ [] ∧ ∀ c ∈ w, c.isDigit) ∧ Stops Char.isDigit rest := by
  unfold digits
  split
  · rename_i hempty
    constructor
    · intro h
      cases h
    · rintro ⟨rfl, ⟨hne, hall⟩, -⟩
      rw [List.takeWhile_append_of_pos hall] at hempty
      simp [hne] at hempty
  · rename_i hempty
    rw [run_eq_taken]
    constructor
    · rintro ⟨hcs, hall, hstops⟩
      refine ⟨hcs, ⟨?_, hall⟩, hstops⟩
      rintro rfl
      rw [hcs, List.nil_append, List.isEmpty_iff] at hempty
      apply hempty
      cases rest with
      | nil => rfl
      | cons c rest => simp [hstops c rfl]
    · rintro ⟨hcs, ⟨-, hall⟩, hstops⟩
      exact ⟨hcs, hall, hstops⟩

/-- Two parts are taken one behind the other. -/
theorem andThen_eq_taken {scan : Scan} {next : List Char → Scan} :
    scan.andThen next = taken w rest ↔ ∃ front middle back, scan = taken front middle ∧
      next middle = taken back rest ∧ w = front ++ back := by
  cases hfault : scan.fault with
  | some fault =>
    rw [andThen_of_fault hfault]
    constructor
    · rintro rfl
      cases hfault
    · rintro ⟨front, middle, back, rfl, -⟩
      cases hfault
  | none =>
    rw [andThen_of_none hfault]
    constructor
    · intro h
      refine ⟨scan.text, scan.rest, (next scan.rest).text, by rw [taken, ← hfault], ?_,
        (congrArg Scan.text h).symm⟩
      have hrest : (next scan.rest).rest = rest := congrArg Scan.rest h
      have hnone : (next scan.rest).fault = none := congrArg Scan.fault h
      rw [taken, ← hrest, ← hnone]
    · rintro ⟨front, middle, back, rfl, hnext, rfl⟩
      show (next middle).after front = _
      rw [hnext]
      rfl

theorem andThen_assoc (scan : Scan) (f g : List Char → Scan) :
    (scan.andThen f).andThen g = scan.andThen fun cs => (f cs).andThen g := by
  cases hfault : scan.fault with
  | some fault => simp only [andThen_of_fault hfault]
  | none =>
    rw [andThen_of_none hfault, andThen_of_none hfault]
    cases hnext : (f scan.rest).fault with
    | some fault =>
      rw [andThen_of_fault hnext, andThen_of_fault (by exact hnext)]
    | none =>
      rw [andThen_of_none hnext, andThen_of_none (by exact hnext), after_after]
      rfl

theorem after_eq_taken {scan : Scan} {front : List Char} :
    scan.after front = taken w rest ↔ ∃ back, scan = taken back rest ∧ w = front ++ back := by
  have hthen : scan.after front = (taken front []).andThen fun _ => scan := rfl
  rw [hthen, andThen_eq_taken]
  constructor
  · rintro ⟨_, _, back, h, hscan, rfl⟩
    obtain ⟨rfl, -⟩ : front = _ ∧ [] = _ := by simpa [taken] using h
    exact ⟨back, hscan, rfl⟩
  · rintro ⟨back, hscan, rfl⟩
    exact ⟨front, [], back, rfl, hscan, rfl⟩

theorem nothing_eq_taken : taken [] cs = taken w rest ↔ cs = w ++ rest ∧ w = [] := by
  rw [taken, taken, mk.injEq]
  constructor
  · rintro ⟨rfl, rfl, -⟩
    exact ⟨rfl, rfl⟩
  · rintro ⟨rfl, rfl⟩
    exact ⟨rfl, rfl, rfl⟩

/-- An optional part is there if a character of some class begins it, and nothing is taken otherwise. -/
theorem optional_eq_taken {part : List Char → Scan} {begins : Char → Bool} {Present : Prop}
    (habsent : ∀ cs, Stops begins cs → part cs = taken [] cs)
    (hpresent : ∀ c ds, begins c = true →
      (part (c :: ds) = taken w rest ↔ c :: ds = w ++ rest ∧ Present))
    (hbegins : Present → ∃ c back, w = c :: back ∧ begins c = true) :
    part cs = taken w rest ↔ cs = w ++ rest ∧ (Present ∨ (w = [] ∧ Stops begins rest)) := by
  by_cases hstops : Stops begins cs
  · rw [habsent cs hstops, nothing_eq_taken]
    constructor
    · rintro ⟨rfl, rfl⟩
      exact ⟨rfl, .inr ⟨rfl, hstops⟩⟩
    · rintro ⟨rfl, hpresent | ⟨rfl, -⟩⟩
      · obtain ⟨c, back, rfl, hc⟩ := hbegins hpresent
        exact absurd (hstops c rfl) (by simp [hc])
      · exact ⟨rfl, rfl⟩
  · obtain ⟨c, ds, rfl, hc⟩ : ∃ c ds, cs = c :: ds ∧ begins c = true := by
      cases cs with
      | nil => exact absurd (by simp [Stops]) hstops
      | cons c ds => exact ⟨c, ds, rfl, by simpa [Stops] using hstops⟩
    rw [hpresent c ds hc]
    refine and_congr_right fun hsplit => ⟨.inl, fun h => h.resolve_right ?_⟩
    rintro ⟨rfl, hstops⟩
    rw [List.nil_append] at hsplit
    exact absurd (hstops c (by rw [← hsplit]; rfl)) (by simp [hc])

theorem minus_of_stops (h : Stops (· == '-') cs) : minus cs = taken [] cs := by
  unfold minus
  split
  · exact absurd (h '-' rfl) (by decide)
  · rfl

theorem minus_eq_taken : minus cs = taken w rest ↔
    cs = w ++ rest ∧ (w = ['-'] ∨ (w = [] ∧ Stops (· == '-') rest)) := by
  refine optional_eq_taken (fun _ => minus_of_stops) (fun c ds hc => ?_) ?_
  · obtain rfl : c = '-' := by simpa using hc
    constructor
    · intro h
      cases h
      exact ⟨rfl, rfl⟩
    · rintro ⟨hcs, rfl⟩
      obtain ⟨-, rfl⟩ := List.cons.inj hcs
      rfl
  · rintro rfl
    exact ⟨'-', [], rfl, rfl⟩

theorem integer_eq_taken : integer cs = taken w rest ↔
    cs = w ++ rest ∧ w ∈ integerPart.matches' ∧ Stops Char.isDigit rest := by
  rw [mem_integerPart]
  by_cases hzero : cs.head? = some '0'
  · obtain ⟨cs, rfl⟩ := List.head?_eq_some_iff.mp hzero
    rw [integer_zero]
    constructor
    · intro h
      split at h
      · cases h
      · rename_i hdigit
        cases h
        exact ⟨rfl, .inl rfl, not_any_head?.mp hdigit⟩
    · rintro ⟨hcs, rfl | ⟨d, ds, rfl, hne, -⟩, hstops⟩
      · obtain ⟨-, rfl⟩ := List.cons.inj hcs
        rw [if_neg (not_any_head?.mpr hstops)]
      · exact absurd (List.cons.inj hcs).1.symm hne
  · rw [integer_of_ne hzero, digits_eq_taken]
    constructor
    · rintro ⟨rfl, ⟨hne, hall⟩, hstops⟩
      obtain ⟨d, ds, rfl⟩ := List.exists_cons_of_ne_nil hne
      exact ⟨rfl, .inr ⟨d, ds, rfl, fun hd => hzero (congrArg some hd), hall⟩, hstops⟩
    · rintro ⟨rfl, rfl | ⟨d, ds, rfl, -, hall⟩, hstops⟩
      · exact absurd rfl hzero
      · exact ⟨rfl, ⟨List.cons_ne_nil d ds, hall⟩, hstops⟩

theorem fraction_of_stops (h : Stops (· == '.') cs) : fraction cs = taken [] cs := by
  unfold fraction
  split
  · exact absurd (h '.' rfl) (by decide)
  · rfl

theorem fraction_eq_taken : fraction cs = taken w rest ↔ cs = w ++ rest ∧
    ((w ∈ fractionPart.matches' ∧ Stops Char.isDigit rest) ∨ (w = [] ∧ Stops (· == '.') rest)) := by
  rw [mem_fractionPart]
  refine optional_eq_taken (fun _ => fraction_of_stops) (fun c ds hc => ?_) ?_
  · obtain rfl : c = '.' := by simpa using hc
    have hscan : fraction ('.' :: ds) = (digits .missingFraction ds).after ['.'] := rfl
    rw [hscan, after_eq_taken]
    simp only [digits_eq_taken]
    constructor
    · rintro ⟨back, ⟨rfl, hback, hstops⟩, rfl⟩
      exact ⟨rfl, ⟨back, rfl, hback⟩, hstops⟩
    · rintro ⟨hcs, ⟨back, rfl, hback⟩, hstops⟩
      exact ⟨back, ⟨(List.cons.inj hcs).2, hback, hstops⟩, rfl⟩
  · rintro ⟨⟨back, rfl, -⟩, -⟩
    exact ⟨'.', back, rfl, rfl⟩

/-- The signs of an exponent. -/
def isSign (c : Char) : Bool := c = '+' || c = '-'

theorem exponentSign_of_stops (h : Stops isSign cs) : exponentSign cs = taken [] cs := by
  unfold exponentSign
  split
  · exact absurd (h '+' rfl) (by decide)
  · exact absurd (h '-' rfl) (by decide)
  · rfl

theorem exponentSign_eq_taken : exponentSign cs = taken w rest ↔ cs = w ++ rest ∧
    ((w = ['+'] ∨ w = ['-']) ∨ (w = [] ∧ Stops isSign rest)) := by
  refine optional_eq_taken (fun _ => exponentSign_of_stops) (fun c ds hc => ?_) ?_
  · have hscan : exponentSign (c :: ds) = taken [c] ds := by
      rcases (by simpa [isSign] using hc : c = '+' ∨ c = '-') with rfl | rfl <;> rfl
    rw [hscan]
    constructor
    · intro h
      cases h
      exact ⟨rfl, by simpa [isSign] using hc⟩
    · rintro ⟨hcs, rfl | rfl⟩
      · obtain ⟨rfl, rfl⟩ := List.cons.inj hcs
        rfl
      · obtain ⟨rfl, rfl⟩ := List.cons.inj hcs
        rfl
  · rintro (rfl | rfl)
    · exact ⟨'+', [], rfl, rfl⟩
    · exact ⟨'-', [], rfl, rfl⟩

/-- The marks that begin an exponent. -/
def isExponentMark (c : Char) : Bool := c = 'e' || c = 'E'

theorem exponent_of_stops (h : Stops isExponentMark cs) : exponent cs = taken [] cs := by
  cases cs with
  | nil => rfl
  | cons c cs => exact if_neg (by simpa [isExponentMark] using h c rfl)

theorem exponent_eq_taken : exponent cs = taken w rest ↔ cs = w ++ rest ∧
    ((w ∈ exponentPart.matches' ∧ Stops Char.isDigit rest) ∨ (w = [] ∧ Stops isExponentMark rest)) := by
  rw [mem_exponentPart]
  refine optional_eq_taken (fun _ => exponent_of_stops) (fun c ds hc => ?_) ?_
  · have hscan : exponent (c :: ds) =
        ((exponentSign ds).andThen (digits .missingExponent)).after [c] := if_pos hc
    rw [hscan, after_eq_taken]
    simp only [andThen_eq_taken, digits_eq_taken, exponentSign_eq_taken]
    constructor
    · rintro ⟨_, ⟨sign, _, back, ⟨rfl, hsign⟩, ⟨rfl, hback, hstops⟩, rfl⟩, rfl⟩
      refine ⟨by simp, ⟨c, sign, back, rfl, by simpa [isExponentMark] using hc, ?_, hback⟩, hstops⟩
      rcases hsign with hsign | ⟨hsign, -⟩
      · exact .inr hsign
      · exact .inl hsign
    · rintro ⟨hcs, ⟨_, sign, back, rfl, -, hsign, hback⟩, hstops⟩
      obtain ⟨rfl, rfl⟩ := List.cons.inj hcs
      refine ⟨_, ⟨sign, back ++ rest, back, ⟨List.append_assoc _ _ _, ?_⟩, ⟨rfl, hback, hstops⟩, rfl⟩,
        rfl⟩
      rcases hsign with hsign | hsign
      · exact .inr ⟨hsign, stops_of_digits hback (by decide) rest⟩
      · exact .inl hsign
  · rintro ⟨⟨mark, sign, back, rfl, hmark, -⟩, -⟩
    exact ⟨mark, sign ++ back, rfl, by simpa [isExponentMark] using hmark⟩

/-- Characters that a number must not run on into. -/
def runsOn (c : Char) : Bool := c = '.' || c = '_' || c.isAlpha

theorem numberEnd_of_stops (h : Stops runsOn cs) : numberEnd cs = taken [] cs := by
  cases cs with
  | nil => rfl
  | cons c cs => exact if_neg (by simpa [runsOn] using h c rfl)

theorem numberEnd_eq_taken : numberEnd cs = taken w rest ↔
    cs = w ++ rest ∧ w = [] ∧ Stops runsOn rest := by
  have hoptional : numberEnd cs = taken w rest ↔
      cs = w ++ rest ∧ (False ∨ (w = [] ∧ Stops runsOn rest)) := by
    refine optional_eq_taken (fun _ => numberEnd_of_stops) (fun c ds hc => ?_) False.elim
    have hscan : numberEnd (c :: ds) = stuck .numberRunsOn (c :: ds) := if_pos hc
    rw [hscan]
    constructor
    · intro h
      cases h
    · rintro ⟨-, ⟨⟩⟩
  rwa [false_or] at hoptional

/-- Characters that go on with a number. -/
def goesOn (c : Char) : Bool := c.isDigit || runsOn c

/-- **The scan of a number** is not at fault exactly if a numeral is there that nothing goes on with. -/
theorem number_eq_taken : number cs = taken w rest ↔
    cs = w ++ rest ∧ w ∈ expression.matches' ∧ Stops goesOn rest := by
  have stops_iff : Stops goesOn rest ↔ Stops Char.isDigit rest ∧ Stops runsOn rest := by
    simp only [Stops, goesOn, Bool.or_eq_false_iff, imp_and, forall_and]
  simp only [number, andThen_eq_taken, minus_eq_taken, integer_eq_taken, fraction_eq_taken,
    exponent_eq_taken, numberEnd_eq_taken, mem_expression, stops_iff]
  constructor
  · rintro ⟨_, _, _, ⟨_, _, exponent, ⟨_, _, fraction, ⟨sign, _, whole, ⟨rfl, hsign⟩,
      ⟨rfl, hwhole, hdigit⟩, rfl⟩, ⟨rfl, hfraction⟩, rfl⟩, ⟨rfl, hexponent⟩, rfl⟩, ⟨rfl, rfl, hend⟩, rfl⟩
    refine ⟨by simp, ⟨sign, whole, fraction, exponent, by simp, ?_, hwhole, ?_, ?_⟩, ?_, hend⟩
    · exact hsign.symm.imp_left And.left
    · exact hfraction.symm.imp And.left And.left
    · exact hexponent.symm.imp And.left And.left
    · -- the last part that is there ends with a digit that no other one follows
      rcases hexponent with ⟨-, hstops⟩ | ⟨rfl, -⟩
      · exact hstops
      · rcases hfraction with ⟨-, hstops⟩ | ⟨rfl, -⟩
        · exact hstops
        · exact hdigit
  · rintro ⟨rfl, ⟨sign, whole, fraction, exponent, rfl, hsign, hwhole, hfraction, hexponent⟩, hdigit, hend⟩
    have fraction_begins : ∀ p : Char → Bool, p '.' = false →
        fraction = [] ∨ ∃ c back, fraction = c :: back ∧ p c = false := by
      intro p hp
      refine hfraction.imp_right fun h => ?_
      obtain ⟨ds, rfl, -⟩ := mem_fractionPart.mp h
      exact ⟨'.', ds, rfl, hp⟩
    have exponent_begins : ∀ p : Char → Bool, p 'e' = false → p 'E' = false →
        exponent = [] ∨ ∃ c back, exponent = c :: back ∧ p c = false := by
      intro p he hE
      refine hexponent.imp_right fun h => ?_
      obtain ⟨mark, sign, ds, rfl, rfl | rfl, -⟩ := mem_exponentPart.mp h
      · exact ⟨'e', sign ++ ds, rfl, he⟩
      · exact ⟨'E', sign ++ ds, rfl, hE⟩
    -- where each part stops, given what begins the next ones
    have hsignStops : Stops (· == '-') (whole ++ (fraction ++ (exponent ++ rest))) :=
      stops_of_digits (digits_of_integerPart hwhole) (by decide) _
    have hexponentDigit : Stops Char.isDigit (exponent ++ rest) :=
      stops_append (exponent_begins _ (by decide) (by decide)) hdigit
    have hfractionDigit : Stops Char.isDigit (fraction ++ (exponent ++ rest)) :=
      stops_append (fraction_begins _ (by decide)) hexponentDigit
    have hpoint : Stops (· == '.') (exponent ++ rest) :=
      stops_append (exponent_begins _ (by decide) (by decide))
        (hend.imp fun c hc => by simp_all [runsOn])
    have hmark : Stops isExponentMark rest := by
      refine hend.imp fun c hc => Bool.eq_false_iff.mpr fun hmark => ?_
      rcases (by simpa [isExponentMark] using hmark : c = 'e' ∨ c = 'E') with rfl | rfl <;> cases hc
    refine ⟨_, rest, [], ⟨_, exponent ++ rest, exponent, ⟨_, fraction ++ (exponent ++ rest), fraction,
      ⟨sign, whole ++ (fraction ++ (exponent ++ rest)), whole, ⟨by simp, ?_⟩,
        ⟨rfl, hwhole, hfractionDigit⟩, rfl⟩, ⟨rfl, ?_⟩, rfl⟩, ⟨rfl, ?_⟩, rfl⟩, ⟨rfl, rfl, hend⟩, by simp⟩
    · exact hsign.symm.imp_right fun h => ⟨h, hsignStops⟩
    · exact hfraction.symm.imp (⟨·, hexponentDigit⟩) (⟨·, hpoint⟩)
    · exact hexponent.symm.imp (⟨·, hdigit⟩) (⟨·, hmark⟩)

/-- The marks that make a number a float stand at the front of its fraction and its exponent. -/
theorem any_of_number {cs w rest : List Char} (h : number cs = .taken w rest) :
    (w.any fun c => c = '.' || c = 'e' || c = 'E') =
      ((integer (minus cs).rest).rest.head?.any (· == '.') ||
        (fraction (integer (minus cs).rest).rest).rest.head?.any isExponentMark) := by
  simp only [number, andThen_eq_taken] at h
  obtain ⟨_, c₄, _, ⟨_, c₃, exponent, ⟨_, c₂, fraction, ⟨sign, c₁, whole, hsign, hwhole, rfl⟩, hfraction,
    rfl⟩, hexponent, rfl⟩, hend, rfl⟩ := h
  simp only [hsign, taken, hwhole, hfraction]
  obtain ⟨-, hminus⟩ := minus_eq_taken.mp hsign
  obtain ⟨-, hinteger, -⟩ := integer_eq_taken.mp hwhole
  obtain ⟨rfl, hpoint⟩ := fraction_eq_taken.mp hfraction
  obtain ⟨rfl, hmark⟩ := exponent_eq_taken.mp hexponent
  obtain ⟨-, rfl, -⟩ := numberEnd_eq_taken.mp hend
  have hsignAny : (sign.any fun c => c = '.' || c = 'e' || c = 'E') = false := by
    rcases hminus with rfl | ⟨rfl, -⟩ <;> rfl
  have hwholeAny : (whole.any fun c => c = '.' || c = 'e' || c = 'E') = false := by
    have hnone : ['0', '1', '2', '3', '4', '5', '6', '7', '8', '9'].all
        (fun c => !(c = '.' || c = 'e' || c = 'E')) = true := by decide
    refine List.any_eq_false.mpr fun c hc => ?_
    have hdigit := forall_digit hnone ((digits_of_integerPart hinteger).2 c hc)
    simpa using hdigit
  have hfractionAny : (fraction.any fun c => c = '.' || c = 'e' || c = 'E') =
      (fraction ++ (exponent ++ c₄)).head?.any (· == '.') := by
    rcases hpoint with ⟨hmem, -⟩ | ⟨rfl, hstops⟩
    · obtain ⟨ds, rfl, -⟩ := mem_fractionPart.mp hmem
      rfl
    · exact (Bool.eq_false_iff.mpr (not_any_head?.mpr hstops)).symm
  have hexponentAny : (exponent.any fun c => c = '.' || c = 'e' || c = 'E') =
      (exponent ++ c₄).head?.any isExponentMark := by
    rcases hmark with ⟨hmem, -⟩ | ⟨rfl, hstops⟩
    · obtain ⟨mark, sign, ds, rfl, rfl | rfl, -⟩ := mem_exponentPart.mp hmem <;> rfl
    · exact (Bool.eq_false_iff.mpr (not_any_head?.mpr hstops)).symm
  rw [List.append_nil, List.any_append, List.any_append, List.any_append, hsignAny, hwholeAny,
    hfractionAny, hexponentAny, Bool.false_or, Bool.false_or]

end Scan

/-! ## Number Lexemes -/

/-- A numeral is at the front, and no digit, point, underscore or letter goes on with it. -/
def NumeralAt (w cs : List Char) : Prop :=
  ∃ rest, cs = w ++ rest ∧ w ∈ Numeral.expression.matches' ∧ Stops Scan.goesOn rest

theorem numeralAt_iff {w cs : List Char} :
    NumeralAt w cs ↔ ∃ rest, Scan.number cs = .taken w rest := by
  simp only [NumeralAt, Scan.number_eq_taken]

/-- There is one such numeral at most. -/
theorem NumeralAt.unique {v w cs : List Char} (hv : NumeralAt v cs) (hw : NumeralAt w cs) : v = w := by
  obtain ⟨rest, hv⟩ := numeralAt_iff.mp hv
  obtain ⟨rest', hw⟩ := numeralAt_iff.mp hw
  exact congrArg Scan.text (hv.symm.trans hw)

/-- A minus sign or a digit begins a number. -/
theorem scanLexeme_number {c : Char} (hc : c = '-' ∨ c.isDigit) (cs : List Char) :
    scanLexeme c cs = (numberKind (Scan.number (c :: cs)).text, Scan.number (c :: cs)) := by
  have hdigits : ['0', '1', '2', '3', '4', '5', '6', '7', '8', '9'].all
      (fun d => Punctuator.ofChar? d = none && d ≠ '"') = true := by decide
  obtain ⟨hmark, hquote⟩ : Punctuator.ofChar? c = none ∧ c ≠ '"' := by
    rcases hc with rfl | hc
    · decide
    · simpa using Numeral.forall_digit hdigits hc
  have hnumber : (c = '-' || c.isDigit) = true := by simpa using hc
  simp only [scanLexeme, hmark, if_neg hquote, if_pos hnumber]

/-- **Number lexemes**: where a lexeme begins with a minus sign or a digit, it is a token with some text
    exactly if the text is a numeral that nothing goes on with. There is one such text at most. A
    point or an exponent in it makes the token a float. Where there is no such text, the lexeme is
    malformed. -/
theorem number_lexeme {source : String} {l : Lexeme} {front back : List Char} {c : Char}
    (hl : l ∈ lexemes source) (hsource : source.toList = front ++ c :: back)
    (hstart : l.span.start = byteLength front) (hc : c = '-' ∨ c.isDigit) :
    (∀ w, (∃ kind, l = .token ⟨kind, ⟨byteLength front, byteLength (front ++ w)⟩, String.ofList w⟩) ↔
      NumeralAt w (c :: back)) ∧
    (∀ v w, NumeralAt v (c :: back) → NumeralAt w (c :: back) → v = w) ∧
    (∀ token, l = .token token → token.kind =
      if '.' ∈ token.text.toList ∨ 'e' ∈ token.text.toList ∨ 'E' ∈ token.text.toList then .float
      else .int) ∧
    ((¬∃ w, NumeralAt w (c :: back)) → ∃ fault span text, l = .malformed fault span text) := by
  -- the lexeme is what the scan of a number makes of the characters from its place on
  have hscan : l = .ofScan (byteLength front) (numberKind (Scan.number (c :: back)).text)
      (Scan.number (c :: back)) := by
    rw [eq_ofScan_of_mem hl hsource hstart, scanLexeme_number hc]
  subst hscan
  refine ⟨fun w => ?_, fun v w => NumeralAt.unique, fun token htoken => ?_, fun hnone => ?_⟩
  · rw [numeralAt_iff]
    constructor
    · rintro ⟨kind, htoken⟩
      obtain ⟨hfault, htoken⟩ := ofScan_eq_token.mp htoken
      have hw : w = (Scan.number (c :: back)).text := by
        have htext := congrArg (String.toList ∘ Token.text) htoken
        simpa using htext
      exact ⟨(Scan.number (c :: back)).rest, by rw [hw, Scan.taken, ← hfault]⟩
    · rintro ⟨rest, hscan⟩
      rw [hscan, byteLength_append]
      exact ⟨_, ofScan_eq_token.mpr ⟨rfl, rfl⟩⟩
  · obtain ⟨-, rfl⟩ := ofScan_eq_token.mp htoken
    simp only [numberKind, String.toList_ofList, List.any_eq_true, Bool.or_eq_true, decide_eq_true_eq]
    refine if_congr ?_ rfl rfl
    constructor
    · rintro ⟨d, hd, (rfl | rfl) | rfl⟩
      · exact .inl hd
      · exact .inr (.inl hd)
      · exact .inr (.inr hd)
    · rintro (hd | hd | hd)
      · exact ⟨_, hd, .inl (.inl rfl)⟩
      · exact ⟨_, hd, .inl (.inr rfl)⟩
      · exact ⟨_, hd, .inr rfl⟩
  · cases hfault : (Scan.number (c :: back)).fault with
    | none =>
      have hnumeral : NumeralAt (Scan.number (c :: back)).text (c :: back) :=
        numeralAt_iff.mpr ⟨(Scan.number (c :: back)).rest, by rw [Scan.taken, ← hfault]⟩
      exact absurd ⟨_, hnumeral⟩ hnone
    | some fault =>
      unfold Lexeme.ofScan
      simp only [hfault]
      exact ⟨fault, _, _, rfl⟩

/-- The number in a list is all that is between the brackets. -/
theorem number_lexeme_in_list : NumeralAt "-1.5e3".toList "-1.5e3]".toList ∧
    ∀ w, NumeralAt w "-1.5e3]".toList → w = "-1.5e3".toList := by
  have hmem : .token ⟨.float, ⟨1, 7⟩, "-1.5e3"⟩ ∈ lexemes "[-1.5e3]" := by decide +kernel
  have hsource : "[-1.5e3]".toList = ['['] ++ '-' :: "1.5e3]".toList := rfl
  obtain ⟨htoken, hunique, -⟩ := number_lexeme hmem hsource rfl (.inl rfl)
  have hnumeral := (htoken "-1.5e3".toList).mp ⟨.float, rfl⟩
  exact ⟨hnumeral, fun w hw => hunique w _ hw hnumeral⟩

end SchemaModel.Sdl
