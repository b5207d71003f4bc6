import SchemaModel.Proofs.Literals

/-! # Nesting

    The grammar of values without a bound on its brackets, and what the bound makes of it.

    * **AnyValue**: the grammar, in which lists and objects are nested in each other to any depth.
    * **Shallow**: no more than so many brackets and braces are open at once. The shallow values are the
      ones that the parser takes.
    * **Excess**: the first bracket or brace that is open in excess of a bound. In a value that is not
      shallow the parser takes all tokens in front of it, and stops there. -/

namespace SchemaModel.Sdl

open SchemaModel.Sdl.Parser

/-! ## Values of any Depth -/

/-- **Values**: the tokens make up a value, with lists and objects nested in each other to any depth. -/
inductive AnyValue : Phrase Value
  | of {ts : List Token} {v : Value} : ValueAround AnyValue ts v → AnyValue ts v

section

variable {α : Type} {ts us vs : List Token} {v : Value}

theorem EntryOf.imp {inner weaker : Phrase Value} {entry : String × Value} (h : EntryOf inner ts entry)
    (himp : ∀ {us v}, inner us v → weaker us v) : EntryOf weaker ts entry := by
  obtain ⟨hkey, hcolon, hv⟩ := h
  exact .intro hkey hcolon (himp hv)

theorem ValueAround.imp {inner weaker : Phrase Value} (h : ValueAround inner ts v)
    (himp : ∀ {us v}, inner us v → weaker us v) : ValueAround weaker ts v := by
  cases h with
  | plain h => exact .plain h
  | list hopen hitems hclose => exact .list hopen (hitems.imp himp) hclose
  | object hopen hentries hclose =>
    exact .object hopen (hentries.imp fun h => h.imp himp) hclose

/-- A value is one with more levels, too. -/
theorem ValuePhrase.mono {n m : Nat} (h : ValuePhrase n ts v) (hle : n ≤ m) : ValuePhrase m ts v := by
  induction n generalizing m ts v with
  | zero => exact PlainValue.valuePhrase h m
  | succ n ih =>
    obtain ⟨k, rfl⟩ := Nat.exists_eq_add_of_lt hle
    exact ValueAround.imp h fun h => ih h (Nat.le_add_right n k)

/-- A value with a bound on its levels is a value. -/
theorem ValuePhrase.any {n : Nat} (h : ValuePhrase n ts v) : AnyValue ts v := by
  induction n generalizing ts v with
  | zero => exact .of (.plain h)
  | succ n ih => exact .of (ValueAround.imp h ih)

/-- Phrases that each have a level have one together. -/
theorem Many.exists_level {phrase : Phrase α} {leveled : Nat → Phrase α} {as : List α}
    (hmono : ∀ {n m us a}, leveled n us a → n ≤ m → leveled m us a) (h : Many phrase ts as)
    (heach : ∀ {us a}, phrase us a → us.length ≤ ts.length → ∃ n, leveled n us a) :
    ∃ n, Many (leveled n) ts as := by
  induction h with
  | nil => exact ⟨0, .nil⟩
  | @cons us vs a as ha _ ih =>
    rw [List.length_append] at heach
    obtain ⟨n, hn⟩ := heach ha (by omega)
    obtain ⟨m, hm⟩ := ih fun hb hlength => heach hb (by omega)
    exact ⟨max n m, .cons (hmono hn (Nat.le_max_left n m))
      (hm.imp fun hb => hmono hb (Nat.le_max_right n m))⟩

/-- Every value has a bound on its levels. -/
theorem AnyValue.exists_level (h : AnyValue ts v) : ∃ n, ValuePhrase n ts v := by
  -- what is inside of a list or an object is shorter than it
  induction hlength : ts.length using Nat.strongRecOn generalizing ts v with
  | _ length ih =>
    subst hlength
    obtain ⟨h⟩ := h
    cases h with
    | plain h => exact ⟨0, h⟩
    | @list os us cs items hopen hitems hclose =>
      obtain ⟨token, hkind, rfl⟩ := hopen
      have hshorter : us.length < ([token] ++ (us ++ cs)).length := by
        simp only [List.length_append, List.length_singleton]
        omega
      obtain ⟨n, hn⟩ : ∃ n, Many (ValuePhrase n) us items :=
        hitems.exists_level ValuePhrase.mono fun h hle => ih _ (Nat.lt_of_le_of_lt hle hshorter) h rfl
      exact ⟨n + 1, .list ⟨token, hkind, rfl⟩ hn hclose⟩
    | @object os us cs entries hopen hentries hclose =>
      obtain ⟨token, hkind, rfl⟩ := hopen
      have hshorter : us.length < ([token] ++ (us ++ cs)).length := by
        simp only [List.length_append, List.length_singleton]
        omega
      obtain ⟨n, hn⟩ : ∃ n, Many (EntryOf (ValuePhrase n)) us entries := by
        refine hentries.exists_level (fun h hle => h.imp fun h => h.mono hle) ?_
        rintro _ _ ⟨hkey, hcolon, hv⟩ hle
        have hinside := Nat.lt_of_le_of_lt hle hshorter
        simp only [List.length_append] at hinside
        obtain ⟨n, hn⟩ := ih _ (by simp only [List.length_append]; omega) hv rfl
        exact ⟨n, .intro hkey hcolon hn⟩
      exact ⟨n + 1, .object ⟨token, hkind, rfl⟩ hn hclose⟩

end

/-! ## Open Brackets -/

/-- Does a token of this kind open a list or an object? -/
def TokenKind.isOpening (kind : TokenKind) : Bool :=
  kind = .punctuator .bracketOpen || kind = .punctuator .braceOpen

/-- Does a token of this kind close a list or an object? -/
def TokenKind.isClosing (kind : TokenKind) : Bool :=
  kind = .punctuator .bracketClose || kind = .punctuator .braceClose

/-- How many brackets and braces are open behind some tokens. -/
def openBehind (ts : List Token) : Int :=
  ts.countP (·.kind.isOpening) - ts.countP (·.kind.isClosing)

/-- **Shallow**: no more than `limit` brackets and braces are open at once. -/
def Shallow (limit : Int) (ts : List Token) : Prop :=
  ∀ front, front <+: ts → openBehind front ≤ limit

/-- **Excess**: behind `front`, `limit` brackets and braces are open for the first time when one more is
    opened. -/
structure Excess (limit : Int) (ts front : List Token) (token : Token) (back : List Token) : Prop where
  split : ts = front ++ token :: back
  shallow : Shallow limit front
  full : openBehind front = limit
  opens : token.kind.isOpening

section

variable {α : Type} {ts us vs front back : List Token} {token : Token} {v : Value} {limit : Int}

@[simp] theorem openBehind_nil : openBehind [] = 0 := rfl

@[simp] theorem openBehind_append (ts us : List Token) :
    openBehind (ts ++ us) = openBehind ts + openBehind us := by
  simp only [openBehind, List.countP_append]
  omega

/-- What is in front of a bracket or brace counts, and then what is behind it. -/
theorem shallow_append :
    Shallow limit (ts ++ us) ↔ Shallow limit ts ∧ Shallow (limit - openBehind ts) us := by
  constructor
  · intro h
    refine ⟨fun front hfront => h front (hfront.trans (List.prefix_append ts us)), ?_⟩
    intro front hfront
    have hboth := h (ts ++ front) ((List.prefix_append_right_inj ts).mpr hfront)
    rw [openBehind_append] at hboth
    omega
  · rintro ⟨hts, hus⟩ front hfront
    rcases List.prefix_or_prefix_of_prefix hfront (List.prefix_append ts us) with h | ⟨more, rfl⟩
    · exact hts front h
    · have hmore := hus more ((List.prefix_append_right_inj ts).mp hfront)
      rw [openBehind_append]
      omega

theorem Shallow.nonneg (h : Shallow limit ts) : 0 ≤ limit := h [] (List.nil_prefix)

theorem shallow_nil (h : 0 ≤ limit) : Shallow limit [] := by
  intro front hfront
  rw [List.prefix_nil.mp hfront]
  exact h

theorem shallow_singleton (h : 0 ≤ limit) (htoken : openBehind [token] ≤ limit) :
    Shallow limit [token] := by
  intro front hfront
  rcases List.prefix_cons_iff.mp hfront with rfl | ⟨front, rfl, hnil⟩
  · exact h
  · rwa [List.prefix_nil.mp hnil]

/-- The excess of a part is that of the whole. -/
theorem Excess.behind (h : Excess (limit - openBehind us) ts front token back)
    (hus : Shallow limit us) (vs : List Token) :
    Excess limit (us ++ (ts ++ vs)) (us ++ front) token (back ++ vs) where
  split := by simp only [h.split, List.append_assoc, List.cons_append]
  shallow := shallow_append.mpr ⟨hus, h.shallow⟩
  full := by
    rw [openBehind_append, h.full]
    omega
  opens := h.opens

end

/-! ## Depths of Values -/

/-- **Flat**: no list and no object is opened or closed. -/
def Flat (ts : List Token) : Prop :=
  ∀ token ∈ ts, token.kind.isOpening = false ∧ token.kind.isClosing = false

section

variable {α : Type} {ts us vs front back : List Token} {token : Token} {v : Value} {limit : Int}

theorem Flat.openBehind_eq (h : Flat ts) : openBehind ts = 0 := by
  have hopening : ts.countP (·.kind.isOpening) = 0 :=
    List.countP_eq_zero.mpr fun token htoken => by simp [(h token htoken).1]
  have hclosing : ts.countP (·.kind.isClosing) = 0 :=
    List.countP_eq_zero.mpr fun token htoken => by simp [(h token htoken).2]
  rw [openBehind, hopening, hclosing]
  rfl

theorem Flat.shallow (h : Flat ts) (hlimit : 0 ≤ limit) : Shallow limit ts := by
  intro front hfront
  have hflat : Flat front := fun token htoken => h token (hfront.subset htoken)
  rw [hflat.openBehind_eq]
  exact hlimit

theorem flat_singleton (hopening : token.kind.isOpening = false)
    (hclosing : token.kind.isClosing = false) : Flat [token] := by
  intro other hother
  obtain rfl := List.mem_singleton.mp hother
  exact ⟨hopening, hclosing⟩

theorem flat_of_isName (h : token.kind.isName) : Flat [token] := by
  refine flat_singleton ?_ ?_ <;> cases hkind : token.kind <;>
    simp_all [TokenKind.isName, TokenKind.isOpening, TokenKind.isClosing]

theorem NamePhrase.flat {key : Name} (h : NamePhrase ts key) : Flat ts := by
  obtain ⟨hname⟩ := h
  exact flat_of_isName hname

theorem Lone.flat {kind : TokenKind} (h : Lone kind ts) (hopening : kind.isOpening = false)
    (hclosing : kind.isClosing = false) : Flat ts := by
  obtain ⟨token, rfl, rfl⟩ := h
  exact flat_singleton hopening hclosing

/-- A value of one token opens nothing. -/
theorem PlainValue.flat (h : PlainValue ts v) : Flat ts := by
  cases h with
  | enum hname => exact flat_of_isName hname
  | int hkind | float hkind | string hkind | blockString hkind | trueValue hkind | falseValue hkind
  | nullValue hkind => exact flat_singleton (by rw [hkind]; rfl) (by rw [hkind]; rfl)

theorem Lone.openBehind_opening {kind : TokenKind} (h : Lone kind ts) (hkind : kind.isOpening) :
    openBehind ts = 1 := by
  obtain ⟨token, rfl, rfl⟩ := h
  rcases (by simpa [TokenKind.isOpening] using hkind :
    token.kind = .punctuator .bracketOpen ∨ token.kind = .punctuator .braceOpen) with h | h <;>
    simp [openBehind, h, TokenKind.isOpening, TokenKind.isClosing]

theorem Lone.openBehind_closing {kind : TokenKind} (h : Lone kind ts) (hkind : kind.isClosing) :
    openBehind ts = -1 := by
  obtain ⟨token, rfl, rfl⟩ := h
  rcases (by simpa [TokenKind.isClosing] using hkind :
    token.kind = .punctuator .bracketClose ∨ token.kind = .punctuator .braceClose) with h | h <;>
    simp [openBehind, h, TokenKind.isOpening, TokenKind.isClosing]

/-- Phrases that leave nothing open leave nothing open together. -/
theorem Many.openBehind_eq {phrase : Phrase α} {as : List α} (h : Many phrase ts as)
    (heach : ∀ {us a}, phrase us a → openBehind us = 0) : openBehind ts = 0 := by
  induction h with
  | nil => rfl
  | cons ha _ ih => rw [openBehind_append, heach ha, ih, Int.add_zero]

theorem EntryOf.openBehind_eq {inner : Phrase Value} {entry : String × Value}
    (h : EntryOf inner ts entry) (heach : ∀ {us v}, inner us v → openBehind us = 0) :
    openBehind ts = 0 := by
  obtain ⟨hkey, hcolon, hv⟩ := h
  rw [openBehind_append, openBehind_append, hkey.flat.openBehind_eq,
    (hcolon.flat rfl rfl).openBehind_eq, heach hv, Int.add_zero, Int.add_zero]

/-- A value closes all that it opens. -/
theorem ValuePhrase.openBehind_eq {n : Nat} (h : ValuePhrase n ts v) : openBehind ts = 0 := by
  induction n generalizing ts v with
  | zero => exact (PlainValue.flat h).openBehind_eq
  | succ n ih =>
    cases h with
    | plain h => exact h.flat.openBehind_eq
    | list hopen hitems hclose =>
      rw [openBehind_append, openBehind_append, hopen.openBehind_opening rfl, hitems.openBehind_eq ih,
        hclose.openBehind_closing rfl]
      rfl
    | object hopen hentries hclose =>
      rw [openBehind_append, openBehind_append, hopen.openBehind_opening rfl,
        hentries.openBehind_eq fun h => h.openBehind_eq ih, hclose.openBehind_closing rfl]
      rfl

/-- Inside of brackets or braces there is one level less. -/
theorem shallow_enclosed {openKind closeKind : TokenKind} (hopen : Lone openKind ts)
    (hopening : openKind.isOpening) (hclose : Lone closeKind vs) (hclosing : closeKind.isClosing)
    (hus : openBehind us = 0) : Shallow limit (ts ++ (us ++ vs)) ↔ Shallow (limit - 1) us := by
  have hone := hopen.openBehind_opening hopening
  have hlast := hclose.openBehind_closing hclosing
  obtain ⟨token, -, rfl⟩ := hopen
  obtain ⟨last, -, rfl⟩ := hclose
  rw [shallow_append, shallow_append, hone, hus]
  constructor
  · exact fun h => h.2.1
  · intro h
    have hnonneg := h.nonneg
    exact ⟨shallow_singleton (by omega) (by omega), h, shallow_singleton (by omega) (by omega)⟩

/-- If phrases are shallow together, each of them is, as the others leave nothing open. -/
theorem Many.shallow_each {phrase : Phrase α} {as : List α} (h : Many phrase ts as)
    (heach : ∀ {us a}, phrase us a → openBehind us = 0) (hts : Shallow limit ts) :
    Many (fun us a => phrase us a ∧ Shallow limit us) ts as := by
  induction h with
  | nil => exact .nil
  | cons ha _ ih =>
    obtain ⟨hfirst, hothers⟩ := shallow_append.mp hts
    rw [heach ha, Int.sub_zero] at hothers
    exact .cons ⟨ha, hfirst⟩ (ih hothers)

theorem Many.shallow {phrase : Phrase α} {as : List α} (h : Many phrase ts as)
    (heach : ∀ {us a}, phrase us a → openBehind us = 0 ∧ Shallow limit us) (hlimit : 0 ≤ limit) :
    Shallow limit ts := by
  induction h with
  | nil => exact shallow_nil hlimit
  | cons ha _ ih =>
    refine shallow_append.mpr ⟨(heach ha).2, ?_⟩
    rwa [(heach ha).1, Int.sub_zero]

/-- An entry is as deep as its value. -/
theorem shallow_entry {key : Name} (hkey : NamePhrase ts key)
    (hcolon : Lone (.punctuator .colon) us) (hlimit : 0 ≤ limit) :
    Shallow limit (ts ++ (us ++ vs)) ↔ Shallow limit vs := by
  have hus := hcolon.flat rfl rfl
  rw [shallow_append, shallow_append, hkey.flat.openBehind_eq, hus.openBehind_eq, Int.sub_zero,
    Int.sub_zero]
  exact ⟨fun h => h.2.2, fun h => ⟨hkey.flat.shallow hlimit, hus.shallow hlimit, h⟩⟩

/-- A value with a bound on its levels opens no more than that. -/
theorem ValuePhrase.shallow {n : Nat} (h : ValuePhrase n ts v) : Shallow n ts := by
  have hpred : ∀ n : Nat, ((n + 1 : Nat) : Int) - 1 = n := by omega
  induction n generalizing ts v with
  | zero => exact (PlainValue.flat h).shallow (Int.le_refl 0)
  | succ n ih =>
    have hlimit : (0 : Int) ≤ n := Int.natCast_nonneg n
    cases h with
    | plain h => exact h.flat.shallow (Int.natCast_nonneg _)
    | list hopen hitems hclose =>
      rw [shallow_enclosed hopen rfl hclose rfl (hitems.openBehind_eq ValuePhrase.openBehind_eq), hpred]
      exact hitems.shallow (fun h => ⟨h.openBehind_eq, ih h⟩) hlimit
    | object hopen hentries hclose =>
      have hentry : ∀ {us entry}, EntryOf (ValuePhrase n) us entry → openBehind us = 0 :=
        fun h => h.openBehind_eq ValuePhrase.openBehind_eq
      rw [shallow_enclosed hopen rfl hclose rfl (hentries.openBehind_eq hentry), hpred]
      refine hentries.shallow (fun h => ⟨hentry h, ?_⟩) hlimit
      obtain ⟨hkey, hcolon, hv⟩ := h
      exact (shallow_entry hkey hcolon hlimit).mpr (ih hv)

/-- A shallow value needs no more levels than brackets and braces may be open. -/
theorem ValuePhrase.of_shallow {n levels : Nat} (h : ValuePhrase n ts v) (hts : Shallow levels ts) :
    ValuePhrase levels ts v := by
  induction n generalizing levels ts v with
  | zero => exact PlainValue.valuePhrase h levels
  | succ n ih =>
    cases h with
    | plain h => exact h.valuePhrase levels
    | list hopen hitems hclose =>
      rw [shallow_enclosed hopen rfl hclose rfl (hitems.openBehind_eq ValuePhrase.openBehind_eq)] at hts
      obtain ⟨below, rfl⟩ : ∃ below, levels = below + 1 :=
        Nat.exists_eq_succ_of_ne_zero fun hzero => absurd hts.nonneg (by omega)
      rw [show ((below + 1 : Nat) : Int) - 1 = below by omega] at hts
      have heach := hitems.shallow_each ValuePhrase.openBehind_eq hts
      exact .list hopen (heach.imp fun h => ih h.1 h.2) hclose
    | object hopen hentries hclose =>
      have hentry : ∀ {us entry}, EntryOf (ValuePhrase n) us entry → openBehind us = 0 :=
        fun h => h.openBehind_eq ValuePhrase.openBehind_eq
      rw [shallow_enclosed hopen rfl hclose rfl (hentries.openBehind_eq hentry)] at hts
      obtain ⟨below, rfl⟩ : ∃ below, levels = below + 1 :=
        Nat.exists_eq_succ_of_ne_zero fun hzero => absurd hts.nonneg (by omega)
      rw [show ((below + 1 : Nat) : Int) - 1 = below by omega] at hts
      refine .object hopen ((hentries.shallow_each hentry hts).imp ?_) hclose
      rintro _ _ ⟨⟨hkey, hcolon, hv⟩, hshallow⟩
      exact .intro hkey hcolon (ih hv ((shallow_entry hkey hcolon hshallow.nonneg).mp hshallow))

/-- **Levels**: the values with a bound on their levels are the shallow ones. -/
theorem valuePhrase_iff {levels : Nat} :
    ValuePhrase levels ts v ↔ AnyValue ts v ∧ Shallow levels ts := by
  constructor
  · exact fun h => ⟨h.any, h.shallow⟩
  · rintro ⟨hany, hshallow⟩
    obtain ⟨n, hn⟩ := hany.exists_level
    exact hn.of_shallow hshallow

end

/-! ## Overflows -/

/-- **Overflows**: the parser takes `front` and stops at the token behind it, which is one too many. -/
def Overflows {α : Type} (p : Parser α) (front : List Token) (token : Token) (rest : List Token) :
    Prop :=
  ∀ s : ParserState, s.Clear → s.tokens = front ++ token :: rest →
    ∃ t, p s = .error ⟨.nestedTooDeep, token.span⟩ t

/-- **Exceeds**: the parser overflows at the first token that opens more than `limit` allows. -/
def Exceeds {α : Type} (p : Parser α) (limit : Int) (ts : List Token) : Prop :=
  ∃ front token back, Excess limit ts front token back ∧
    ∀ rest, Overflows p front token (back ++ rest)

section

variable {α β : Type} {p : Parser α} {q : α → Parser β} {a : α} {ts us vs front rest : List Token}
  {token : Token} {limit : Int} {usages : List Usage}

theorem Overflows.bind (h : Overflows p front token rest) (q : α → Parser β) :
    Overflows (p >>= q) front token rest := by
  intro s hclear hs
  obtain ⟨t, ht⟩ := h s hclear hs
  exact ⟨t, bind_of_error ht q⟩

theorem Exceeds.bind (h : Exceeds p limit ts) (q : α → Parser β) : Exceeds (p >>= q) limit ts := by
  obtain ⟨front, token, back, hexcess, hoverflows⟩ := h
  exact ⟨front, token, back, hexcess, fun rest => (hoverflows rest).bind q⟩

/-- A step in front of one that overflows. -/
theorem Takes.bind_overflows (hp : Takes p ts a (front ++ token :: rest) usages)
    (hq : Overflows (q a) front token rest) : Overflows (p >>= q) (ts ++ front) token rest := by
  intro s hclear hs
  have hfirst := hp s hclear (by rw [hs, List.append_assoc])
  obtain ⟨t, ht⟩ := hq (s.past (front ++ token :: rest) usages) hclear rfl
  exact ⟨t, by rw [bind_of_ok hfirst, ht]⟩

/-- A step in front of one that opens too much, with tokens behind it that are not reached. -/
theorem Takes.bind_exceeds (hp : ∀ rest, Takes p us a rest []) (hus : Shallow limit us)
    (hq : Exceeds (q a) (limit - openBehind us) ts) (vs : List Token) :
    Exceeds (p >>= q) limit (us ++ (ts ++ vs)) := by
  obtain ⟨front, token, back, hexcess, hoverflows⟩ := hq
  refine ⟨us ++ front, token, back ++ vs, hexcess.behind hus vs, fun rest => ?_⟩
  rw [List.append_assoc]
  exact (hp _).bind_overflows (hoverflows (vs ++ rest))

theorem Takes.bind_exceeds_flat (hp : ∀ rest, Takes p us a rest []) (hus : Flat us) (hlimit : 0 ≤ limit)
    (hq : Exceeds (q a) limit ts) : Exceeds (p >>= q) limit (us ++ ts) := by
  have hrest : Exceeds (q a) (limit - openBehind us) ts := by rwa [hus.openBehind_eq, Int.sub_zero]
  have hbehind := Takes.bind_exceeds hp (hus.shallow hlimit) hrest []
  rwa [List.append_nil] at hbehind

/-- A parser that goes on like another one in front of the first token. -/
theorem Exceeds.congr {p' : Parser α} (h : Exceeds p limit (token :: ts))
    (hrun : ∀ s us, s.tokens = token :: us → p' s = p s) : Exceeds p' limit (token :: ts) := by
  obtain ⟨front, other, back, hexcess, hoverflows⟩ := h
  refine ⟨front, other, back, hexcess, fun rest s hclear hs => ?_⟩
  have hfirst : s.tokens = token :: (ts ++ rest) := by
    have hsplit := congrArg (· ++ rest) hexcess.split
    simpa [hs] using hsplit.symm
  rw [hrun s _ hfirst]
  exact hoverflows rest s hclear hs

/-- A loop takes its items up to the first one that opens too much. -/
theorem exceeds_itemsUntil {item : Parser α} {phrase taken : Phrase α} {first : TokenKind → Bool}
    {close : Punctuator} {as : List α} (hitem : TakesItem item taken (fun _ => []) first [])
    (hclose : first (.punctuator close) = false) (hstarts : ∀ {us a}, phrase us a → Starts first us)
    (hclosed : ∀ {us a}, phrase us a → openBehind us = 0)
    (htaken : ∀ {us a}, phrase us a → Shallow limit us → taken us a)
    (hexceeds : ∀ {us a}, phrase us a → ¬Shallow limit us → Exceeds item limit us)
    (hlimit : 0 ≤ limit) (h : Many phrase ts as) (hts : ¬Shallow limit ts) :
    Exceeds (itemsUntil close item) limit ts := by
  suffices hloop : Exceeds (repeatWhile (fun s => !s.isAt close) item) limit ts from hloop.bind _
  induction h with
  | nil => exact absurd (shallow_nil hlimit) hts
  | @cons us vs a as ha _ ih =>
    -- the first item is there, so that the loop goes on
    have hmore : ∀ (s : ParserState) rest, s.tokens = us ++ rest → !s.isAt close := by
      intro s rest hs
      obtain ⟨token, more, rfl, hfirst⟩ := hstarts ha
      exact not_isAt_of_first hclose hs hfirst
    by_cases hus : Shallow limit us
    · -- this item closes what it opens, so it is one of the others that opens too much
      have hvs : ¬Shallow limit vs := by
        intro hvs
        rw [shallow_append, hclosed ha, Int.sub_zero] at hts
        exact hts ⟨hus, hvs⟩
      obtain ⟨front, token, back, hexcess, hoverflows⟩ := ih hvs
      have hothers : Excess (limit - openBehind us) vs front token back := by
        rwa [hclosed ha, Int.sub_zero]
      have hbehind := hothers.behind hus []
      rw [List.append_nil, List.append_nil] at hbehind
      refine ⟨us ++ front, token, back, hbehind, fun rest s hclear hs => ?_⟩
      rw [List.append_assoc] at hs
      have hfirst := hitem.takes (htaken ha hus) (by simp [Free]) s hclear hs
      have hshorter : (front ++ token :: (back ++ rest)).length < s.tokens.length := by
        have hne := List.length_pos_of_ne_nil (hstarts ha).ne_nil
        simp only [hs, List.length_append]
        omega
      obtain ⟨t, ht⟩ := hoverflows rest (s.past (front ++ token :: (back ++ rest)) []) hclear rfl
      rw [repeatWhile_step (hmore s _ hs) hfirst hshorter, ht]
      exact ⟨t, rfl⟩
    · obtain ⟨front, token, back, hexcess, hoverflows⟩ := hexceeds ha hus
      have hfirst : Excess (limit - openBehind []) us front token back := by
        rwa [openBehind_nil, Int.sub_zero]
      refine ⟨front, token, back ++ vs, hfirst.behind (shallow_nil hlimit) vs, fun rest s hclear hs => ?_⟩
      rw [List.append_assoc] at hs
      obtain ⟨t, ht⟩ := hoverflows (vs ++ rest) s hclear hs
      rw [repeatWhile_eq_bind (hmore s (vs ++ rest) (by rw [hs, hexcess.split]; simp))]
      exact ⟨t, bind_of_error ht _⟩

/-- An entry opens too much if its value does. -/
theorem exceeds_objectEntry {value : Parser Value} {key : Name} (hkey : NamePhrase ts key)
    (hcolon : Lone (.punctuator .colon) us) (hlimit : 0 ≤ limit) (hv : Exceeds value limit vs) :
    Exceeds (objectEntry value) limit (ts ++ (us ++ vs)) := by
  refine Takes.bind_exceeds_flat (Takes.name hkey) hkey.flat hlimit ?_
  refine Takes.bind_exceeds_flat (Takes.expect hcolon) (hcolon.flat rfl rfl) hlimit ?_
  exact hv.bind _

/-- A list or an object opens too much if nothing may be opened, or if what is inside of it opens too
    much. -/
theorem exceeds_enclosed (inside : Nat → Parser Value) {levels : Nat} (hopening : token.kind.isOpening)
    (hzero : ∀ s us, s.tokens = token :: us → value 0 s = (fail .nestedTooDeep : Parser Value) s)
    (hsucc : ∀ below s us, s.tokens = token :: us →
      value (below + 1) s = (advance >>= fun _ => inside below) s)
    (hinside : ∀ below : Nat, ¬Shallow below us → Exceeds (inside below) below us)
    (hus : ¬Shallow (levels - 1) us) (vs : List Token) :
    Exceeds (value levels) levels ([token] ++ (us ++ vs)) := by
  cases levels with
  | zero =>
    refine ⟨[], token, us ++ vs, ⟨rfl, shallow_nil (Int.le_refl 0), rfl, hopening⟩, ?_⟩
    intro rest s _ hs
    have hspan : s.span = token.span := by simp [ParserState.span, hs]
    rw [hzero s _ hs, ← hspan]
    exact ⟨s, rfl⟩
  | succ below =>
    have hpred : ((below + 1 : Nat) : Int) - 1 = below := by omega
    have hone : openBehind [token] = 1 := Lone.openBehind_opening ⟨token, rfl, rfl⟩ hopening
    rw [hpred] at hus
    have hrest : Exceeds (inside below) ((below + 1 : Nat) - openBehind [token]) us := by
      rw [hone, hpred]
      exact hinside below hus
    have hshallow : Shallow ((below + 1 : Nat) : Int) [token] := shallow_singleton (by omega) (by omega)
    exact (Takes.bind_exceeds (Takes.advance token) hshallow hrest vs).congr (hsucc below)

/-- **A value that opens too much** is taken up to the first token that does so. -/
theorem exceeds_value {n levels : Nat} {v : Value} (h : ValuePhrase n ts v) (hts : ¬Shallow levels ts) :
    Exceeds (value levels) levels ts := by
  induction n generalizing levels ts v with
  | zero => exact absurd ((PlainValue.flat h).shallow (Int.natCast_nonneg levels)) hts
  | succ n ih =>
    have hvalue : ∀ {us v}, ValuePhrase n us v → openBehind us = 0 := ValuePhrase.openBehind_eq
    cases h with
    | plain h => exact absurd (h.flat.shallow (Int.natCast_nonneg levels)) hts
    | @list os us cs items hopen hitems hclose =>
      rw [shallow_enclosed hopen rfl hclose rfl (hitems.openBehind_eq hvalue)] at hts
      obtain ⟨token, hkind, rfl⟩ := hopen
      refine exceeds_enclosed (fun below => do return .list (← itemsUntil .bracketClose (value below)))
        (by rw [hkind]; rfl) ?_ ?_ (fun below hus => ?_) hts cs
      · intro s us hs
        rw [value, get_bind, hs]
        simp only [hkind]
      · intro below s us hs
        rw [value, get_bind, hs]
        simp only [hkind]
      · refine Exceeds.bind ?_ _
        have hitem : TakesItem (value below) (ValuePhrase below) (fun _ => [])
            TokenKind.startsValue [] :=
          ⟨ValuePhrase.starts, fun h _ => takes_value h _, by simp⟩
        exact exceeds_itemsUntil hitem rfl ValuePhrase.starts hvalue ValuePhrase.of_shallow ih
          (Int.natCast_nonneg below) hitems hus
    | @object os us cs entries hopen hentries hclose =>
      have hentry : ∀ {us entry}, EntryOf (ValuePhrase n) us entry → openBehind us = 0 :=
        fun h => h.openBehind_eq hvalue
      rw [shallow_enclosed hopen rfl hclose rfl (hentries.openBehind_eq hentry)] at hts
      obtain ⟨token, hkind, rfl⟩ := hopen
      refine exceeds_enclosed
        (fun below => do return .object (← itemsUntil .braceClose (objectEntry (value below))))
        (by rw [hkind]; rfl) ?_ ?_ (fun below hus => ?_) hts cs
      · intro s us hs
        rw [value, get_bind, hs]
        simp only [hkind]
      · intro below s us hs
        rw [value, get_bind, hs]
        simp only [hkind]
      · refine Exceeds.bind ?_ _
        have hlimit : (0 : Int) ≤ below := Int.natCast_nonneg below
        have hitem : TakesItem (objectEntry (value below)) (EntryOf (ValuePhrase below)) (fun _ => [])
            TokenKind.isName [] := takesItem_objectEntry fun h => takes_value h _
        refine exceeds_itemsUntil hitem rfl EntryOf.starts hentry ?_ ?_ hlimit hentries hus
        · rintro _ _ ⟨hkey, hcolon, hv⟩ hshallow
          exact .intro hkey hcolon (hv.of_shallow ((shallow_entry hkey hcolon hlimit).mp hshallow))
        · rintro _ _ ⟨hkey, hcolon, hv⟩ hdeep
          rw [shallow_entry hkey hcolon hlimit] at hdeep
          exact exceeds_objectEntry hkey hcolon hlimit (ih hv hdeep)

end

/-! ## Lone Values -/

/-- The tokens are all that a source has. -/
def Consists (source : String) (ts : List Token) : Prop :=
  ∃ stop, lexemes source = ts.map .token ++ [.endOfInput stop]

section

variable {source : String} {ts : List Token} {v : Value}

/-- A source without malformed lexemes consists of its tokens. -/
theorem consists_iff :
    Consists source ts ↔
      (Feed.ofSource source).ending.fault = none ∧ (Feed.ofSource source).tokens = ts := by
  constructor
  · rintro ⟨stop, hlexemes⟩
    rw [feed_of_lexemes hlexemes]
    exact ⟨rfl, rfl⟩
  · rintro ⟨hfault, rfl⟩
    exact lexemes_of_fault_eq_none hfault

/-- A lone value that opens too much is refused at the first token that does so. -/
theorem readValue_of_not_shallow (hsource : Consists source ts) (hv : AnyValue ts v)
    (hts : ¬Shallow nestingLimit ts) :
    ∃ front token back, Excess nestingLimit ts front token back ∧ readValue source =
      .error (SourceFault.placed (.ofText source.toList) ⟨.nestedTooDeep, token.span⟩) := by
  obtain ⟨n, hn⟩ := hv.exists_level
  obtain ⟨front, token, back, hexcess, hoverflows⟩ := exceeds_value hn hts
  obtain ⟨hfault, htokens⟩ := consists_iff.mp hsource
  refine ⟨front, token, back, hexcess, ?_⟩
  have hcheck := checkNext_of_fault_eq_none (s := .start .skip (.ofSource source)) hfault
  obtain ⟨t, ht⟩ := hoverflows [] (.start .skip (.ofSource source)) ⟨hfault, rfl⟩ (by
    rw [List.append_nil, ← hexcess.split, ← htokens]
    rfl)
  have hrun : loneValue (.start .skip (.ofSource source)) = .error ⟨.nestedTooDeep, token.span⟩ t :=
    (bind_of_ok hcheck _).trans (bind_of_error ht _)
  rw [readValue, hrun]

/-- **Lone values**: a source is read as a value exactly if it consists of the tokens of that value, with
    no more than 128 brackets and braces open at once. If there is nothing else to object to, the source
    is refused at the one that is open in excess of that. -/
theorem readValue_exact (source : String) :
    (∀ v, readValue source = .ok v ↔ ∃ ts, Consists source ts ∧ AnyValue ts v ∧ Shallow 128 ts) ∧
      ∀ ts v, Consists source ts → AnyValue ts v → ¬Shallow 128 ts →
        ∃ front token back, Excess 128 ts front token back ∧ readValue source =
          .error (SourceFault.placed (.ofText source.toList) ⟨.nestedTooDeep, token.span⟩) := by
  refine ⟨fun v => ?_, fun ts v hsource hv hts => readValue_of_not_shallow hsource hv hts⟩
  rw [readValue_eq_ok, valuePhrase_iff]
  constructor
  · rintro ⟨hfault, hphrase⟩
    exact ⟨_, consists_iff.mpr ⟨hfault, rfl⟩, hphrase⟩
  · rintro ⟨ts, hsource, hphrase⟩
    obtain ⟨hfault, rfl⟩ := consists_iff.mp hsource
    exact ⟨hfault, hphrase⟩

/-- Nothing, in so many lists. -/
def nested : Nat → Value
  | 0 => .null
  | n + 1 => .list [nested n]

theorem wellSpelled_nested (n : Nat) : (nested n).WellSpelled := by
  induction n with
  | zero => exact .null
  | succ n ih => exact .list (by simpa using ih)

theorem depth_nested (n : Nat) : (nested n).depth = n := by
  induction n with
  | zero => rfl
  | succ n ih => simp [nested, Value.depth, Value.itemsDepth, ih]

/-- One list more is one too many. -/
theorem readValue_exact_nested :
    readValue (nested 128).text = .ok (nested 128) ∧
      ∃ ts, Consists (nested 129).text ts ∧ AnyValue ts (nested 129) ∧ ¬Shallow 128 ts ∧
        ∃ front token back, Excess 128 ts front token back ∧
          readValue (nested 129).text = .error (SourceFault.placed (.ofText (nested 129).text.toList)
            ⟨.nestedTooDeep, token.span⟩) := by
  have htokens : ∀ n, ∃ ts, Consists (nested n).text ts ∧ ValuePhrase n ts (nested n) := by
    intro n
    obtain ⟨hphrase, hfault⟩ := feed_of_spells
      (spells_of_wellSpelled (wellSpelled_nested n) (depth_nested n).le) (by simp [Apart])
    exact ⟨_, consists_iff.mpr ⟨hfault, rfl⟩, hphrase⟩
  obtain ⟨ts, hsource, hts⟩ := htokens 128
  obtain ⟨us, hsource', hus⟩ := htokens 129
  have hdeep : ¬Shallow 128 us := by
    intro hshallow
    have hphrase : ValuePhrase 128 us (nested 129) := hus.of_shallow hshallow
    obtain ⟨-, rfl⟩ := consists_iff.mp hsource'
    obtain ⟨-, hdepth⟩ := hphrase.wellSpelled portable_of_mem_tokens
    rw [depth_nested] at hdepth
    omega
  exact ⟨((readValue_exact _).1 _).mpr ⟨ts, hsource, hts.any, hts.shallow⟩,
    us, hsource', hus.any, hdeep, (readValue_exact _).2 us _ hsource' hus.any hdeep⟩

end

end SchemaModel.Sdl
