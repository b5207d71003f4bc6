import SchemaModel.Proofs.Bytes
import SchemaModel.Proofs.Numerals

/-! # Scanning over Bytes

    The lexer over bytes gives the lexemes of a source.

    * **Place**: a position between two characters of a source that is small enough.
    * **Follows**: a step of a cursor moves over what a scan takes from the characters. A step over the
      bytes of one character may end inside of it, and no byte in there is taken for another one.
    * **Calls**: what the lexer gives call after call, up to the end of the source. -/

namespace SchemaModel.Sdl

namespace ByteLexer

variable {c : Char} {cs : List Char}

/-! ## Places -/

/-- **Places**: the position lies between two characters, and these are the ones behind it. The source
    is so small that the lexer can look ahead from its end. -/
structure Place (source : String) (pos : Nat) (cs : List Char) : Prop where
  small : source.utf8ByteSize + 4 < positionLimit
  exists_front : ∃ front, source.toList = front ++ cs ∧ pos = byteLength front

section

variable {source : String} {pos : Nat} {text rest : List Char}

theorem Place.drop_eq (h : Place source pos cs) : (bytes source).drop pos = utf8 cs := by
  obtain ⟨-, front, hfront, rfl⟩ := h
  rw [bytes_eq_utf8, hfront, utf8, List.flatMap_append, ← length_utf8]
  exact List.drop_left

theorem Place.get_eq (h : Place source pos cs) (n : Nat) : (bytes source)[pos + n]? = (utf8 cs)[n]? := by
  rw [← h.drop_eq, List.getElem?_drop]

theorem Place.head_eq (h : Place source pos cs) : (bytes source)[pos]? = (utf8 cs).head? := by
  rw [← h.drop_eq, List.head?_drop]

theorem Place.size_eq (h : Place source pos cs) : source.utf8ByteSize = pos + byteLength cs := by
  obtain ⟨-, front, hfront, rfl⟩ := h
  rw [utf8ByteSize_eq, hfront, byteLength_append]

theorem Place.behind (h : Place source pos (text ++ rest)) :
    Place source (pos + byteLength text) rest := by
  obtain ⟨hsmall, front, hfront, rfl⟩ := h
  exact ⟨hsmall, front ++ text, by rw [hfront, List.append_assoc], (byteLength_append _ _).symm⟩

theorem Place.next (h : Place source pos (c :: cs)) : Place source (pos + c.utf8Size) cs := by
  have h : Place source pos ([c] ++ cs) := h
  exact h.behind

theorem Place.lt_limit (h : Place source pos cs) {n : Nat} (hn : n ≤ byteLength cs + 4) :
    pos + n < positionLimit := by
  have hsize := h.size_eq
  have hsmall := h.small
  omega

theorem Place.slice?_eq (h : Place source pos (text ++ rest)) :
    slice? source pos (pos + byteLength text) = some text := by
  obtain ⟨-, front, hfront, rfl⟩ := h
  exact slice?_append front text rest hfront

end

/-! ## Runs -/

section

variable {source : String} {α β : Type} {scan : Scan} {a : α} {b : β} {pos : Nat}

theorem run_bind (m : Cursor α) (f : α → Cursor β) (pos : Nat) :
    (m >>= f).run.run pos = (m.run.run pos).bind fun r =>
      match r.1 with
      | .ok a => (f a).run.run r.2
      | .error fault => some (.error fault, r.2) := by
  rw [ExceptT.run_bind, StateT.run_bind]
  show Option.bind _ _ = _
  congr 1
  funext r
  obtain ⟨_ | _, _⟩ := r <;> rfl

/-- What a scan comes to. -/
def outcome (scan : Scan) (a : α) : Except LexicalFault α :=
  match scan.fault with
  | none => .ok a
  | some fault => .error fault

/-- **Follows**: wherever the characters lie in a source, the step moves over what the scan takes from
    them, and it stops at the same fault or gives the value. -/
structure Follows (source : String) (m : Cursor α) (cs : List Char) (scan : Scan) (a : α) : Prop where
  split : cs = scan.text ++ scan.rest
  run : ∀ pos, Place source pos cs →
    m.run.run pos = some (outcome scan a, pos + byteLength scan.text)

theorem Follows.place {m : Cursor α} (h : Follows source m cs scan a) (hpos : Place source pos cs) :
    Place source (pos + byteLength scan.text) scan.rest := by
  rw [h.split] at hpos
  exact hpos.behind

/-- What a step has moved over is a text of its own. -/
theorem Follows.slice?_eq {m : Cursor α} (h : Follows source m cs scan a) (hpos : Place source pos cs) :
    slice? source pos (pos + byteLength scan.text) = some scan.text := by
  rw [h.split] at hpos
  exact hpos.slice?_eq

theorem Follows.of_value {m : Cursor α} {a' : α} (h : Follows source m cs scan a)
    (hvalue : scan.fault = none → a = a') : Follows source m cs scan a' := by
  refine ⟨h.split, fun pos hpos => ?_⟩
  rw [h.run pos hpos, outcome, outcome]
  cases hfault : scan.fault with
  | none => rw [hvalue hfault]
  | some fault => rfl

theorem follows_pure (a : α) (cs : List Char) : Follows source (pure a) cs (.taken [] cs) a :=
  ⟨rfl, fun _ _ => rfl⟩

theorem follows_throw (fault : LexicalFault) (a : α) (cs : List Char) :
    Follows source (throw fault) cs (.stuck fault cs) a :=
  ⟨rfl, fun _ _ => rfl⟩

/-- Two steps follow two scans. -/
theorem Follows.bind {m : Cursor α} {f : α → Cursor β} {next : List Char → Scan}
    (hm : Follows source m cs scan a)
    (hf : Follows source (f a) scan.rest (next scan.rest) b) :
    Follows source (m >>= f) cs (scan.andThen next) b := by
  cases hfault : scan.fault with
  | some fault =>
    rw [Scan.andThen_of_fault hfault]
    refine ⟨hm.split, fun pos hpos => ?_⟩
    rw [run_bind, hm.run pos hpos]
    simp only [outcome, hfault, Option.bind_some]
  | none =>
    rw [Scan.andThen_of_none hfault]
    refine ⟨?_, fun pos hpos => ?_⟩
    · show cs = scan.text ++ (next scan.rest).text ++ (next scan.rest).rest
      rw [List.append_assoc, ← hf.split]
      exact hm.split
    · rw [run_bind, hm.run pos hpos]
      simp only [outcome, hfault, Option.bind_some]
      rw [hf.run _ (hm.place hpos)]
      show some (_, pos + byteLength scan.text + byteLength (next scan.rest).text) = _
      rw [Nat.add_assoc, ← byteLength_append]
      rfl

/-- A step that takes characters first. -/
theorem Follows.bind_taken {m : Cursor α} {f : α → Cursor β} {text rest : List Char}
    (hm : Follows source m cs (.taken text rest) a) (hf : Follows source (f a) rest scan b) :
    Follows source (m >>= f) cs (scan.after text) b :=
  (hm.bind hf : Follows source (m >>= f) cs ((Scan.taken text rest).andThen fun _ => scan) b)

/-- A step that takes nothing first. -/
theorem Follows.bind_nothing {m : Cursor α} {f : α → Cursor β}
    (hm : Follows source m cs (.taken [] cs) a) (hf : Follows source (f a) cs scan b) :
    Follows source (m >>= f) cs scan b :=
  hm.bind_taken hf

/-- A step that takes nothing last. -/
theorem Follows.bind_idle {m : Cursor α} {f : α → Cursor β} (hm : Follows source m cs scan a)
    (hf : Follows source (f a) scan.rest (.taken [] scan.rest) b) :
    Follows source (m >>= f) cs scan b := by
  have hscan : scan.andThen (.taken []) = scan := by
    cases hfault : scan.fault with
    | some fault => exact Scan.andThen_of_fault hfault _
    | none =>
      rw [Scan.andThen_of_none hfault, Scan.after, Scan.taken, List.append_nil, ← hfault]
  have h : Follows source (m >>= f) cs (scan.andThen (.taken [])) b := hm.bind hf
  rwa [hscan] at h

/-- A step that gives another value in the end. -/
theorem Follows.pure_behind {m : Cursor α} (hm : Follows source m cs scan a) (b : β) :
    Follows source (do let _ ← m; return b) cs scan b :=
  hm.bind_idle (follows_pure b scan.rest)

theorem run_get_bind (f : Nat → Cursor β) (pos : Nat) :
    (get >>= f).run.run pos = (f pos).run.run pos := by
  rw [run_bind]
  rfl

theorem run_sliceFrom {start stop : Nat} {text : List Char} (h : slice? source start stop = some text) :
    (sliceFrom source start).run.run stop = some (.ok text, stop) := by
  rw [sliceFrom, run_get_bind, h]
  rfl

theorem run_peek_bind (f : Option Char → Cursor β) (pos : Nat) :
    (peek source >>= f).run.run pos = (f (bytes source)[pos]?).run.run pos := by
  rw [run_bind]
  rfl

theorem follows_peek (cs : List Char) :
    Follows source (peek source) cs (.taken [] cs) (utf8 cs).head? := by
  refine ⟨rfl, fun pos hpos => ?_⟩
  rw [← hpos.head_eq]
  rfl

/-- The byte at a character of ASCII is the character. -/
theorem follows_peek_ascii {c : Char} (hc : c.toNat < 128) (cs : List Char) :
    Follows source (peek source) (c :: cs) (.taken [] (c :: cs)) (some c) := by
  have h : Follows source (peek source) (c :: cs) _ (utf8 (c :: cs)).head? := follows_peek (c :: cs)
  rwa [utf8_cons_of_ascii hc] at h

theorem run_checked (h : pos < positionLimit) (p : Nat) :
    (checked pos).run.run p = some (.ok pos, p) := by
  rw [checked, if_pos h]
  rfl

theorem run_advance {n : Nat} (h : pos + n < positionLimit) :
    (advance n).run.run pos = some (.ok (), pos + n) := by
  show ((checked (pos + n) >>= fun p => set p : Cursor Unit)).run.run pos = _
  rw [run_bind, run_checked h]
  rfl

theorem follows_advance (text rest : List Char) :
    Follows source (advance (byteLength text)) (text ++ rest) (.taken text rest) () := by
  refine ⟨rfl, fun pos hpos => ?_⟩
  rw [run_advance (hpos.lt_limit (by rw [byteLength_append]; omega))]
  rfl

/-- One byte on there is the next character, if this one is of ASCII. -/
theorem follows_advance_one {c : Char} (hc : c.toNat < 128) (cs : List Char) :
    Follows source (advance 1) (c :: cs) (.taken [c] cs) () := by
  have hsize : c.utf8Size = 1 :=
    Char.utf8Size_eq_one_iff.mpr (UInt32.le_iff_toNat_le.mpr (Nat.le_of_lt_succ hc))
  have h : Follows source (advance (byteLength [c])) (c :: cs) (.taken [c] cs) () :=
    follows_advance [c] cs
  rwa [byteLength_cons, hsize] at h

/-- A step that depends on the class of the next character. -/
theorem follows_if_any {p : Char → Bool} (hp : Ascii p) {m m' : Cursor α}
    (hyes : ∀ c rest, cs = c :: rest → p c = true → Follows source m cs scan a)
    (hno : Stops p cs → Follows source m' cs scan a) :
    Follows source (do if (← peek source).any p then m else m') cs scan a := by
  refine (follows_peek cs).bind_nothing ?_
  rw [any_head?_utf8 hp]
  cases cs with
  | nil => exact hno (by simp [Stops])
  | cons c rest =>
    by_cases hc : p c = true
    · rw [if_pos (by simpa using hc)]
      exact hyes c rest rfl hc
    · rw [if_neg (by simpa using hc)]
      exact hno (stops_cons (by simpa using hc) rest)

/-- A step that depends on the next character. -/
theorem follows_if_eq {c : Char} (hc : c.toNat < 128) {m m' : Cursor α}
    (hyes : ∀ rest, cs = c :: rest → Follows source m cs scan a)
    (hno : Stops (· == c) cs → Follows source m' cs scan a) :
    Follows source (do if (← peek source) = some c then m else m') cs scan a := by
  refine (follows_peek cs).bind_nothing ?_
  by_cases hhead : cs.head? = some c
  · rw [if_pos ((head?_utf8_eq_some hc).mpr hhead)]
    obtain ⟨rest, hrest⟩ := List.head?_eq_some_iff.mp hhead
    exact hyes rest hrest
  · rw [if_neg fun h => hhead ((head?_utf8_eq_some hc).mp h)]
    exact hno fun d hd => beq_eq_false_iff_ne.mpr fun hdc => hhead (hdc ▸ hd)

/-- Bytes ahead are compared with the bytes of the characters. -/
theorem run_isAhead {n : Nat} {as : List Char} (hpos : Place source pos cs) (hn : n + as.length ≤ 4) :
    (isAhead source n as).run.run pos =
      some (.ok (as.isPrefixOf ((utf8 cs).drop n)), pos) := by
  induction as generalizing n with
  | nil => rw [isAhead]; rfl
  | cons a as ih =>
    rw [List.length_cons] at hn
    have hpeek : (peekAt source n).run.run pos = some (.ok (utf8 cs)[n]?, pos) := by
      show (do return (bytes source)[← checked (pos + n)]? : Cursor (Option Char)).run.run pos = _
      rw [run_bind, run_checked (hpos.lt_limit (by omega)), ← hpos.get_eq]
      rfl
    rw [isAhead, run_bind, hpeek]
    simp only [Option.bind_some]
    cases hdrop : (utf8 cs).drop n with
    | nil =>
      have hget : (utf8 cs)[n]? = none := by rw [← List.head?_drop, hdrop]; rfl
      rw [hget]
      rfl
    | cons b bs =>
      have hget : (utf8 cs)[n]? = some b := by rw [← List.head?_drop, hdrop]; rfl
      have hnext : (utf8 cs).drop (n + 1) = bs := by rw [← List.tail_drop, hdrop]; rfl
      rw [hget, List.isPrefixOf]
      by_cases hb : b = a
      · rw [if_pos (by rw [hb]), ih (by omega), hnext, hb, beq_self_eq_true, Bool.true_and]
      · rw [if_neg (by simpa using hb), beq_eq_false_iff_ne.mpr (Ne.symm hb)]
        rfl

/-- Characters of ASCII that are ahead, behind others of ASCII. -/
theorem follows_isAhead {front rest as : List Char} (hfront : ∀ a ∈ front, a.toNat < 128)
    (has : ∀ a ∈ as, a.toNat < 128) (hn : front.length + as.length ≤ 4) :
    Follows source (isAhead source front.length as) (front ++ rest) (.taken [] (front ++ rest))
      (as.isPrefixOf rest) := by
  refine ⟨rfl, fun pos hpos => ?_⟩
  have hdrop : (utf8 (front ++ rest)).drop front.length = utf8 rest := by
    clear hpos hn
    induction front with
    | nil => rfl
    | cons a front ih =>
      obtain ⟨ha, hfront⟩ := List.forall_mem_cons.mp hfront
      rw [List.cons_append, utf8_cons_of_ascii ha, List.length_cons, List.drop_succ_cons, ih hfront]
  have hprefix : as.isPrefixOf (utf8 rest) = as.isPrefixOf rest := by
    rw [Bool.eq_iff_iff, List.isPrefixOf_iff_prefix, List.isPrefixOf_iff_prefix, prefix_utf8_iff has]
  rw [run_isAhead hpos hn, hdrop, hprefix]
  rfl

/-! ## Loops -/

/-- A loop is a step with the loop behind it, if the step tells to go on. -/
theorem loop_eq (step : Cursor Bool) :
    loop step = step >>= fun goOn => if goOn then loop step else pure () := by
  have hbody : loop step = repeatM.body (fun _ => do return if ← step then .inl () else .inr ())
      (fun _ => loop step) () := repeatM_eq_of_monadTail ()
  refine hbody.trans ?_
  unfold repeatM.body
  rw [bind_assoc]
  congr 1
  funext goOn
  rw [pure_bind]
  cases goOn <;> rfl

/-- A loop that goes on behind the characters that a step has taken. -/
theorem Follows.loop_on {step : Cursor Bool} {text rest : List Char}
    (hstep : Follows source step cs (.taken text rest) true)
    (hloop : Follows source (loop step) rest scan ()) :
    Follows source (loop step) cs (scan.after text) () := by
  rw [loop_eq]
  exact hstep.bind_taken hloop

/-- A loop that ends with a step. -/
theorem Follows.loop_off {step : Cursor Bool} (hstep : Follows source step cs scan false) :
    Follows source (loop step) cs scan () := by
  rw [loop_eq]
  exact hstep.bind_idle (follows_pure () scan.rest)

theorem run_loop_on {step : Cursor Bool} {pos stop : Nat}
    (hstep : step.run.run pos = some (.ok true, stop)) :
    (loop step).run.run pos = (loop step).run.run stop := by
  conv_lhs => rw [loop_eq, run_bind, hstep]
  rfl

/-- Bytes of a class of ASCII are characters of that class. -/
theorem follows_skipWhile {p : Char → Bool} (hp : Ascii p) (cs : List Char) :
    Follows source (skipWhile source p) cs (Scan.run p cs) () := by
  have hend : ∀ {cs}, Stops p cs → Follows source (skip source p) cs (.taken [] cs) false := by
    intro cs hcs
    refine follows_if_any hp ?_ fun _ => follows_pure false cs
    rintro c rest rfl hc
    exact absurd (hcs c rfl) (by simp [hc])
  induction cs with
  | nil => exact (hend (by simp [Stops])).loop_off
  | cons c cs ih =>
    cases hc : p c with
    | true =>
      have hrun : Scan.run p (c :: cs) = (Scan.run p cs).after [c] := by
        simp [Scan.run, Scan.taken, Scan.after, hc]
      have hstep : Follows source (skip source p) (c :: cs) (.taken [c] cs) true := by
        refine follows_if_any hp ?_ fun hstops => absurd (hstops c rfl) (by simp [hc])
        rintro _ _ ⟨rfl, rfl⟩ -
        exact (follows_advance_one (hp c hc) cs).pure_behind true
      rw [hrun]
      exact hstep.loop_on ih
    | false =>
      have hrun : Scan.run p (c :: cs) = .taken [] (c :: cs) := by
        simp [Scan.run, Scan.taken, hc]
      rw [hrun]
      exact (hend (stops_cons hc cs)).loop_off

/-! ## Trivia -/

/-- The first line end in the bytes is the first one in the characters. -/
theorem findIdx?_utf8 (cs : List Char) : (utf8 cs).findIdx? isLineEnd =
    if cs.dropWhile (fun c => !isLineEnd c) = [] then none
    else some (byteLength (cs.takeWhile fun c => !isLineEnd c)) := by
  induction cs with
  | nil => rfl
  | cons c cs ih =>
    cases hc : isLineEnd c with
    | true =>
      rw [utf8_cons_of_ascii (ascii_isLineEnd c hc), List.findIdx?_cons]
      simp [hc]
    | false =>
      rw [utf8_cons, List.findIdx?_append, List.findIdx?_eq_none_iff.mpr fun b hb =>
        ascii_isLineEnd.eq_false_of_mem hc hb, ih]
      by_cases hrest : cs.dropWhile (fun c => !isLineEnd c) = []
      · simp [hc, hrest]
      · simp [hc, hrest, Nat.add_comm]

/-- A comment goes up to the next line end. -/
theorem follows_comment (cs : List Char) :
    Follows source (comment source) cs (Scan.run (fun c => !isLineEnd c) cs) () := by
  refine ⟨List.takeWhile_append_dropWhile.symm, fun pos hpos => ?_⟩
  have hlength : byteLength cs = byteLength (cs.takeWhile fun c => !isLineEnd c) +
      byteLength (cs.dropWhile fun c => !isLineEnd c) := by
    rw [← byteLength_append, List.takeWhile_append_dropWhile]
  have hlimit : pos + byteLength cs < positionLimit := hpos.lt_limit (by omega)
  rw [comment, run_get_bind, hpos.drop_eq, findIdx?_utf8]
  by_cases hrest : cs.dropWhile (fun c => !isLineEnd c) = []
  · rw [if_pos hrest, hpos.size_eq, Nat.mod_eq_of_lt hlimit, hlength, hrest]
    rfl
  · have hsmall : byteLength (cs.takeWhile fun c => !isLineEnd c) < positionLimit := by omega
    rw [if_neg hrest]
    show (advance (_ % positionLimit)).run.run pos = _
    rw [Nat.mod_eq_of_lt hsmall]
    exact run_advance (by omega)

/-- Inside a comment the lexer goes on to its end, and then over what there is behind it. -/
theorem splitTrivia_true (cs : List Char) : splitTrivia true cs =
    (cs.takeWhile (fun c => !isLineEnd c) ++
        (splitTrivia false (cs.dropWhile fun c => !isLineEnd c)).1,
      (splitTrivia false (cs.dropWhile fun c => !isLineEnd c)).2) := by
  induction cs with
  | nil => rfl
  | cons c cs ih =>
    cases hc : isLineEnd c with
    | true =>
      rcases (by simpa [isLineEnd] using hc : c = '\n' ∨ c = '\r') with rfl | rfl <;> rfl
    | false => simp [splitTrivia, hc, ih]

/-- The scan of trivia. -/
def triviaScan (cs : List Char) : Scan := .taken (splitTrivia false cs).1 (splitTrivia false cs).2

theorem triviaScan_cons_blank {c : Char} (hc : isBlank c) (cs : List Char) :
    triviaScan (c :: cs) = (triviaScan cs).after [c] := by
  have hcomment : ¬c = '#' := by
    rintro rfl
    exact absurd hc (by decide)
  simp [triviaScan, splitTrivia, hc, hcomment, Scan.taken, Scan.after]

theorem triviaScan_comment (cs : List Char) : triviaScan ('#' :: cs) =
    (triviaScan (cs.dropWhile fun c => !isLineEnd c)).after
      ('#' :: cs.takeWhile fun c => !isLineEnd c) := by
  simp [triviaScan, splitTrivia, isLineEnd, splitTrivia_true, Scan.taken, Scan.after]

theorem triviaScan_of_not_isTrivia {c : Char} (hc : isTrivia c = false) (cs : List Char) :
    triviaScan (c :: cs) = .taken [] (c :: cs) := by
  have hc : isBlank c = false ∧ ¬c = '#' := by simpa [isTrivia] using hc
  simp [triviaScan, splitTrivia, hc]

theorem isBlank_eq (c : Char) : isBlank c = (isByteBlank c || c = '\ufeff') := rfl

/-- Two more bytes of a byte order mark are ahead of its first one, if the mark is next. -/
theorem follows_isAhead_mark {c : Char} {bs : List Char} (hbytes : bytesOf c = '\xEF' :: bs)
    (cs : List Char) : Follows source (isAhead source 1 ['\xBB', '\xBF']) (c :: cs)
      (.taken [] (c :: cs)) (decide (c = '\ufeff')) := by
  refine ⟨rfl, fun pos hpos => ?_⟩
  -- the three bytes of the mark are those of one character only
  have hmark := mark_prefix_iff (c :: cs)
  rw [utf8_cons, hbytes, List.cons_append, List.cons_prefix_cons, List.head?_cons,
    Option.some_inj] at hmark
  have hdecide : ['\xBB', '\xBF'].isPrefixOf ((utf8 (c :: cs)).drop 1) = decide (c = '\ufeff') := by
    rw [Bool.eq_iff_iff, List.isPrefixOf_iff_prefix, decide_eq_true_iff, ← hmark, utf8_cons, hbytes]
    simp
  rw [run_isAhead hpos (by decide), hdecide]
  rfl

theorem follows_skipTrivia_blank {c : Char} (hc : isByteBlank c) (cs : List Char) :
    Follows source (skipTrivia source) (c :: cs) (.taken [c] cs) true := by
  have hascii := ascii_isByteBlank c hc
  refine (follows_peek_ascii hascii cs).bind_nothing ?_
  show Follows source (if isByteBlank c then _ else _) _ _ _
  rw [if_pos hc]
  exact (follows_advance_one hascii cs).pure_behind true

theorem follows_skipTrivia_comment (cs : List Char) :
    Follows source (skipTrivia source) ('#' :: cs)
      (.taken ('#' :: cs.takeWhile fun c => !isLineEnd c) (cs.dropWhile fun c => !isLineEnd c)) true :=
  (follows_peek_ascii (by decide) cs).bind_nothing ((follows_comment ('#' :: cs)).pure_behind true)

theorem follows_skipTrivia_mark (cs : List Char) :
    Follows source (skipTrivia source) ('\ufeff' :: cs) (.taken ['\ufeff'] cs) true := by
  have hpeek : Follows source (peek source) ('\ufeff' :: cs) _ (some '\xEF') := follows_peek _
  refine hpeek.bind_nothing ?_
  refine (follows_isAhead_mark rfl cs).bind_nothing ?_
  exact (follows_advance ['\ufeff'] cs).pure_behind true

/-- Nothing else is stepped over, be its first byte that of a byte order mark. -/
theorem follows_skipTrivia_other {c : Char} (hc : isTrivia c = false) (cs : List Char) :
    Follows source (skipTrivia source) (c :: cs) (.taken [] (c :: cs)) false := by
  obtain ⟨⟨hblank, hmark⟩, hsharp⟩ : (isByteBlank c = false ∧ ¬c = '\ufeff') ∧ ¬c = '#' := by
    simpa [isTrivia, isBlank_eq] using hc
  obtain ⟨b, bs, hbytes⟩ := exists_bytesOf c
  have hblank' : ¬isByteBlank b = true := by
    rw [ascii_isByteBlank.first_eq hbytes, hblank]
    exact Bool.false_ne_true
  have hsharp' : ¬b = '#' := by
    have hfirst := (ascii_eq (by decide : '#'.toNat < 128)).first_eq hbytes
    simpa [hsharp] using hfirst
  refine (follows_peek (c :: cs)).bind_nothing ?_
  rw [utf8_cons, hbytes, List.cons_append, List.head?_cons]
  show Follows source (if isByteBlank b then _ else if b = '#' then _ else if b = '\xEF' then _ else _)
    _ _ _
  rw [if_neg hblank', if_neg hsharp']
  split
  · rename_i hb
    subst hb
    refine (follows_isAhead_mark hbytes cs).bind_nothing ?_
    rw [if_neg (by simpa using hmark)]
    exact follows_pure false _
  · exact follows_pure false _

/-- The lexer steps over trivia byte by byte. -/
theorem follows_trivia (cs : List Char) :
    Follows source (trivia source) cs (triviaScan cs) () := by
  -- a comment is stepped over at once, so that more than one character may be left behind
  induction hn : cs.length using Nat.strongRecOn generalizing cs with
  | _ n ih =>
    subst hn
    cases cs with
    | nil =>
      have hend : Follows source (skipTrivia source) [] (.taken [] []) false :=
        (follows_peek []).bind_nothing (follows_pure false [])
      exact hend.loop_off
    | cons c cs =>
      have hcs : Follows source (trivia source) cs (triviaScan cs) () := ih _ (Nat.lt_succ_self _) cs rfl
      by_cases hblank : isByteBlank c = true
      · rw [triviaScan_cons_blank (by rw [isBlank_eq, hblank]; rfl)]
        exact (follows_skipTrivia_blank hblank cs).loop_on hcs
      by_cases hcomment : c = '#'
      · subst hcomment
        have hrest : (cs.dropWhile fun c => !isLineEnd c).length < ('#' :: cs).length :=
          Nat.lt_succ_of_le (List.dropWhile_sublist _).length_le
        rw [triviaScan_comment]
        exact (follows_skipTrivia_comment cs).loop_on (ih _ hrest _ rfl)
      by_cases hmark : c = '\ufeff'
      · subst hmark
        rw [triviaScan_cons_blank (by decide)]
        exact (follows_skipTrivia_mark cs).loop_on hcs
      · have hother : isTrivia c = false := by simp [isTrivia, isBlank_eq, hblank, hcomment, hmark]
        rw [triviaScan_of_not_isTrivia hother]
        exact (follows_skipTrivia_other hother cs).loop_off

/-! ## Words and Numbers -/

theorem follows_word (cs : List Char) : Follows source (word source) cs (Scan.run isNamePart cs)
    (wordKind (Scan.run isNamePart cs).text) := by
  have hskip : Follows source (skipWhile source isNamePart) cs (Scan.run isNamePart cs) () :=
    follows_skipWhile ascii_isNamePart cs
  refine ⟨hskip.split, fun pos hpos => ?_⟩
  rw [word, run_get_bind, run_bind, hskip.run pos hpos]
  show (sliceFrom source pos >>= fun text => return wordKind text : Cursor TokenKind).run.run
    (pos + byteLength (Scan.run isNamePart cs).text) = _
  rw [run_bind, run_sliceFrom (hskip.slice?_eq hpos)]
  rfl

theorem follows_digits (missing : LexicalFault) (cs : List Char) :
    Follows source (digits source missing) cs (Scan.digits missing cs) () := by
  have hskip : Follows source (skipWhile source Char.isDigit) cs (Scan.run Char.isDigit cs) () :=
    follows_skipWhile ascii_isDigit cs
  have hnil : cs.takeWhile Char.isDigit = [] ↔ byteLength (cs.takeWhile Char.isDigit) = 0 :=
    byteLength_eq_zero.symm
  have hdigits : Scan.digits missing cs =
      if byteLength (cs.takeWhile Char.isDigit) = 0 then .stuck missing cs
      else Scan.run Char.isDigit cs := by
    simp only [Scan.digits, List.isEmpty_iff, hnil]
  have hrun : ∀ pos, Place source pos cs → (digits source missing).run.run pos =
      (if byteLength (cs.takeWhile Char.isDigit) = 0 then throw missing
        else pure () : Cursor Unit).run.run (pos + byteLength (cs.takeWhile Char.isDigit)) := by
    intro pos hpos
    show (skipWhile source Char.isDigit >>= fun _ => do
      if (← get) - pos = 0 then throw missing : Cursor Unit).run.run pos = _
    rw [run_bind, hskip.run pos hpos]
    show (if pos + byteLength (cs.takeWhile Char.isDigit) - pos = 0 then throw missing
      else pure () : Cursor Unit).run.run _ = _
    rw [Nat.add_sub_cancel_left]
    rfl
  -- the cursor has not moved exactly if there is no digit
  rw [hdigits]
  split
  · rename_i hzero
    refine ⟨rfl, fun pos hpos => ?_⟩
    rw [hrun pos hpos, if_pos hzero, hzero]
    rfl
  · rename_i hzero
    refine ⟨hskip.split, fun pos hpos => ?_⟩
    rw [hrun pos hpos, if_neg hzero]
    rfl

theorem follows_minus (cs : List Char) : Follows source (minus source) cs (Scan.minus cs) () := by
  refine follows_if_eq (by decide) ?_ fun hstops => ?_
  · rintro rest rfl
    exact follows_advance_one (by decide) rest
  · rw [Scan.minus_of_stops hstops]
    exact follows_pure () cs

theorem follows_integer (cs : List Char) :
    Follows source (integer source) cs (Scan.integer cs) () := by
  refine follows_if_eq (by decide) ?_ fun hstops => ?_
  · rintro rest rfl
    have hscan : Scan.integer ('0' :: rest) =
        (if rest.head?.any Char.isDigit then .stuck .leadingZero rest else .taken [] rest : Scan).after
          ['0'] := by
      rw [Scan.integer_zero]
      split <;> rfl
    rw [hscan]
    refine (follows_advance_one (by decide) rest).bind_taken (follows_if_any ascii_isDigit ?_ ?_)
    · rintro c rest rfl hc
      rw [if_pos (by simpa using hc)]
      exact follows_throw _ _ _
    · intro hrest
      rw [if_neg (Scan.not_any_head?.mpr hrest)]
      exact follows_pure () rest
  · have hhead : cs.head? ≠ some '0' := fun h => absurd (hstops '0' h) (by decide)
    rw [Scan.integer_of_ne hhead]
    exact follows_digits .missingDigit cs

theorem follows_fraction (cs : List Char) : Follows source (fraction source) cs (Scan.fraction cs)
    (cs.head?.any (· == '.')) := by
  refine follows_if_eq (by decide) ?_ fun hstops => ?_
  · rintro rest rfl
    exact (follows_advance_one (by decide) rest).bind_taken
      ((follows_digits .missingFraction rest).pure_behind true)
  · rw [Scan.fraction_of_stops hstops, Bool.eq_false_iff.mpr (Scan.not_any_head?.mpr hstops)]
    exact follows_pure false cs

theorem follows_exponentSign (cs : List Char) :
    Follows source (exponentSign source) cs (Scan.exponentSign cs) () := by
  refine follows_if_any ((ascii_eq (by decide)).or (ascii_eq (by decide))) ?_ fun hstops => ?_
  · rintro c rest rfl hc
    rcases (by simpa using hc : c = '+' ∨ c = '-') with rfl | rfl
    · exact follows_advance_one (by decide) rest
    · exact follows_advance_one (by decide) rest
  · rw [Scan.exponentSign_of_stops hstops]
    exact follows_pure () cs

theorem follows_exponent (cs : List Char) : Follows source (exponent source) cs (Scan.exponent cs)
    (cs.head?.any Scan.isExponentMark) := by
  have hmarks : Ascii Scan.isExponentMark := (ascii_eq (by decide)).or (ascii_eq (by decide))
  refine follows_if_any hmarks ?_ fun hstops => ?_
  · rintro c rest rfl hc
    have hscan : Scan.exponent (c :: rest) =
        ((Scan.exponentSign rest).andThen (Scan.digits .missingExponent)).after [c] := if_pos hc
    have hvalue : (c :: rest).head?.any Scan.isExponentMark = true := hc
    rw [hscan, hvalue]
    exact (follows_advance_one (hmarks c hc) rest).bind_taken
      ((follows_exponentSign rest).bind ((follows_digits .missingExponent _).pure_behind true))
  · rw [Scan.exponent_of_stops hstops, Bool.eq_false_iff.mpr (Scan.not_any_head?.mpr hstops)]
    exact follows_pure false cs

theorem follows_numberEnd (cs : List Char) :
    Follows source (numberEnd source) cs (Scan.numberEnd cs) () := by
  refine follows_if_any (((ascii_eq (by decide)).or (ascii_eq (by decide))).or ascii_isAlpha) ?_
    fun hstops => ?_
  · rintro c rest rfl hc
    have hscan : Scan.numberEnd (c :: rest) = .stuck .numberRunsOn (c :: rest) := if_pos hc
    rw [hscan]
    exact follows_throw _ _ _
  · rw [Scan.numberEnd_of_stops hstops]
    exact follows_pure () cs

theorem follows_number (cs : List Char) : Follows source (number source) cs (Scan.number cs)
    (numberKind (Scan.number cs).text) := by
  have hend : ∀ f e cs, Follows source
      (do numberEnd source; return if f || e then TokenKind.float else .int) cs (Scan.numberEnd cs)
      (if f || e then .float else .int) := fun f e cs => (follows_numberEnd cs).pure_behind _
  have hexponent : ∀ f cs, Follows source
      (do let e ← exponent source; numberEnd source; return if f || e then TokenKind.float else .int) cs
      ((Scan.exponent cs).andThen Scan.numberEnd)
      (if f || cs.head?.any Scan.isExponentMark then .float else .int) :=
    fun f cs => (follows_exponent cs).bind (hend f _ _)
  have hfraction : ∀ cs, Follows source
      (do
        let f ← fraction source
        let e ← exponent source
        numberEnd source
        return if f || e then TokenKind.float else .int) cs
      ((Scan.fraction cs).andThen fun cs => (Scan.exponent cs).andThen Scan.numberEnd)
      (if cs.head?.any (· == '.') || (Scan.fraction cs).rest.head?.any Scan.isExponentMark then .float
        else .int) :=
    fun cs => (follows_fraction cs).bind (hexponent _ _)
  have hnumber : Follows source (number source) cs
      ((Scan.minus cs).andThen fun cs => (Scan.integer cs).andThen fun cs =>
        (Scan.fraction cs).andThen fun cs => (Scan.exponent cs).andThen Scan.numberEnd) _ :=
    (follows_minus cs).bind ((follows_integer _).bind (hfraction _))
  have hscan : Scan.number cs = (Scan.minus cs).andThen fun cs => (Scan.integer cs).andThen fun cs =>
      (Scan.fraction cs).andThen fun cs => (Scan.exponent cs).andThen Scan.numberEnd := by
    simp only [Scan.number, Scan.andThen_assoc]
  rw [← hscan] at hnumber
  refine hnumber.of_value fun hfault => ?_
  have htaken : Scan.number cs = .taken (Scan.number cs).text (Scan.number cs).rest := by
    rw [Scan.taken, ← hfault]
  rw [numberKind, Scan.any_of_number htaken]

/-! ## Strings

    A backslash takes one byte with it, which may be only a part of a character. The other bytes of that
    character are beyond ASCII, so the loop steps over them one by one and is back between characters. -/

/-- A loop that skips every byte outside of a class. -/
def Skips (source : String) (special : Char → Bool) (step : Cursor Bool) : Prop :=
  ∀ pos b, (bytes source)[pos]? = some b → special b = false → pos + 1 < positionLimit →
    step.run.run pos = some (.ok true, pos + 1)

section

variable {special : Char → Bool} {step : Cursor Bool}

/-- Any number of bytes outside of the class are skipped. -/
theorem Skips.run_eq (h : Skips source special step) {bs more : List Char}
    (hbs : ∀ b ∈ bs, special b = false) {pos : Nat} (hdrop : (bytes source).drop pos = bs ++ more)
    (hlimit : pos + bs.length < positionLimit) :
    (loop step).run.run pos = (loop step).run.run (pos + bs.length) := by
  induction bs generalizing pos with
  | nil => rfl
  | cons b bs ih =>
    obtain ⟨hb, hbs⟩ := List.forall_mem_cons.mp hbs
    have hbyte : (bytes source)[pos]? = some b := by rw [← List.head?_drop, hdrop]; rfl
    have hnext : (bytes source).drop (pos + 1) = bs ++ more := by rw [← List.tail_drop, hdrop]; rfl
    rw [List.length_cons] at hlimit ⊢
    rw [run_loop_on (h pos b hbyte hb (by omega)), ih hbs hnext (by omega)]
    congr 1
    omega

/-- A character outside of a class of ASCII is skipped. -/
theorem Skips.over (h : Skips source special step) (hspecial : Ascii special) {c : Char}
    (hc : special c = false) (hm : Follows source (loop step) cs scan ()) :
    Follows source (loop step) (c :: cs) (scan.after [c]) () := by
  refine ⟨congrArg (c :: ·) hm.split, fun pos hpos => ?_⟩
  have hlimit := hpos.lt_limit (n := c.utf8Size) (by rw [byteLength_cons]; omega)
  have hbytes : ∀ b ∈ bytesOf c, special b = false := fun b hb => hspecial.eq_false_of_mem hc hb
  have hskipped := h.run_eq hbytes (hpos.drop_eq.trans (utf8_cons c cs))
    (by rwa [length_bytesOf])
  rw [hskipped, length_bytesOf, hm.run _ hpos.next, Nat.add_assoc]
  rfl

end

theorem skips_quoted :
    Skips source (fun c => isLineEnd c || c = '"' || c = '\\') (skipQuoted source) := by
  intro pos b hbyte hb hlimit
  have hb : isLineEnd b = false ∧ ¬b = '"' ∧ ¬b = '\\' := by simpa [and_assoc] using hb
  rw [skipQuoted, run_peek_bind, hbyte]
  show (if isLineEnd b = true then throw .unterminatedString else _ : Cursor Bool).run.run pos = _
  rw [if_neg (by simp [hb.1]), if_neg hb.2.1, if_neg hb.2.2, run_bind, run_advance hlimit]
  rfl

theorem ascii_quotedSpecial : Ascii fun c => isLineEnd c || c = '"' || c = '\\' :=
  (ascii_isLineEnd.or (ascii_eq (by decide))).or (ascii_eq (by decide))

/-- Behind a backslash one byte is stepped over, and what is left of its character is skipped. -/
theorem follows_quoted_escape {c : Char} (hm : Follows source (quoted source) cs scan ()) :
    Follows source (quoted source) ('\\' :: c :: cs) (scan.after ['\\', c]) () := by
  refine ⟨congrArg ('\\' :: c :: ·) hm.split, fun pos hpos => ?_⟩
  obtain ⟨b, bs, hbytes⟩ := exists_bytesOf c
  have hsize : c.utf8Size = 1 + bs.length := by
    rw [← length_bytesOf, hbytes, List.length_cons, Nat.add_comm]
  have hplace : Place source (pos + 1) (c :: cs) := hpos.next
  have hlimit : pos + 1 + c.utf8Size < positionLimit :=
    hplace.lt_limit (by rw [byteLength_cons]; omega)
  have hbackslash : (bytes source)[pos]? = some '\\' := hpos.head_eq
  have hdrop : (bytes source).drop (pos + 1) = b :: (bs ++ utf8 cs) := by
    rw [hplace.drop_eq, utf8_cons, hbytes, List.cons_append]
  have hbyte : (bytes source)[pos + 1]? = some b := by rw [← List.head?_drop, hdrop]; rfl
  have hnext : (bytes source).drop (pos + 1 + 1) = bs ++ utf8 cs := by
    rw [← List.tail_drop, hdrop]
    rfl
  have hstep : (skipQuoted source).run.run pos = some (.ok true, pos + 1 + 1) := by
    rw [skipQuoted, run_peek_bind, hbackslash]
    show (do advance 1; escaped source; return true : Cursor Bool).run.run pos = _
    rw [run_bind, run_advance (by omega)]
    show (escaped source >>= fun _ => pure true : Cursor Bool).run.run (pos + 1) = _
    rw [run_bind, escaped, run_peek_bind, hbyte]
    show Option.bind ((advance 1).run.run (pos + 1)) _ = _
    rw [run_advance (by omega)]
    rfl
  -- the bytes behind the first one of a character are beyond ASCII, so none of them is special
  have hrest := skips_quoted.run_eq (ascii_quotedSpecial.eq_false_of_tail hbytes) hnext (by omega)
  have hstop : pos + 1 + 1 + bs.length = pos + 1 + c.utf8Size := by omega
  rw [quoted, run_loop_on hstep, hrest, hstop]
  show (quoted source).run.run _ = _
  rw [hm.run _ hplace.next, Nat.add_assoc, Nat.add_assoc]
  rfl

/-- The lexer steps over a quoted string byte by byte. -/
theorem follows_quoted (cs : List Char) :
    Follows source (quoted source) cs (Scan.quoted cs) () := by
  have hquote : '"'.toNat < 128 := by decide
  have hend : Follows source (quoted source) [] (.stuck .unterminatedString []) () := by
    have hstep : Follows source (skipQuoted source) [] (.stuck .unterminatedString []) false :=
      (follows_peek []).bind_nothing (follows_throw _ _ _)
    exact hstep.loop_off
  fun_induction Scan.quoted cs with
  | case1 => exact hend
  | case2 =>
    have hbackslash : '\\'.toNat < 128 := by decide
    have hescaped : Follows source (escaped source) [] (.taken [] []) () :=
      (follows_peek []).bind_nothing (follows_pure () [])
    have hrest : Follows source (do escaped source; return true) [] (.taken [] []) true :=
      hescaped.pure_behind true
    have hstep : Follows source (skipQuoted source) ['\\'] (.taken ['\\'] []) true := by
      refine (follows_peek_ascii hbackslash []).bind_nothing ?_
      exact Follows.bind_taken (f := fun _ => do escaped source; return true)
        (follows_advance_one hbackslash []) hrest
    exact hstep.loop_on hend
  | case3 c cs ih => exact follows_quoted_escape ih
  | case4 cs =>
    have hstep : Follows source (skipQuoted source) ('"' :: cs) (.taken ['"'] cs) false :=
      (follows_peek_ascii hquote cs).bind_nothing ((follows_advance_one hquote cs).pure_behind false)
    exact hstep.loop_off
  | case5 c cs _ _ _ hc =>
    have hstep : Follows source (skipQuoted source) (c :: cs) (.stuck .unterminatedString (c :: cs))
        false := by
      refine (follows_peek_ascii (ascii_isLineEnd c hc) cs).bind_nothing ?_
      show Follows source (if isLineEnd c = true then _ else _) _ _ _
      rw [if_pos hc]
      exact follows_throw _ _ _
    exact hstep.loop_off
  | case6 c cs h₁ h₂ h₃ hc ih =>
    refine skips_quoted.over ascii_quotedSpecial ?_ ih
    have hne : ¬c = '\\' := by
      rintro rfl
      cases cs with
      | nil => exact h₁ rfl rfl
      | cons d ds => exact h₂ d ds rfl rfl
    have hquote : ¬c = '"' := h₃
    simp [hc, hne, hquote]

theorem skips_block : Skips source (fun c => c = '"' || c = '\\') (skipBlock source) := by
  intro pos b hbyte hb hlimit
  have hb : ¬b = '"' ∧ ¬b = '\\' := by simpa using hb
  rw [skipBlock, run_peek_bind, hbyte]
  show (if b = '"' then _ else _ : Cursor Bool).run.run pos = _
  rw [if_neg hb.1, if_neg hb.2, run_bind, run_advance hlimit]
  rfl

/-- Quotes that are ahead of a character. -/
theorem follows_isAhead_quotes {c : Char} (hc : c.toNat < 128) {n : Nat} (hn : n ≤ 3) (cs : List Char) :
    Follows source (isAhead source 1 (List.replicate n '"')) (c :: cs) (.taken [] (c :: cs))
      ((List.replicate n '"').isPrefixOf cs) := by
  have hquotes : ∀ d ∈ List.replicate n '"', d.toNat < 128 := by
    intro d hd
    rw [List.eq_of_mem_replicate hd]
    decide
  have hfront : ∀ d ∈ [c], d.toNat < 128 := by simpa using hc
  exact follows_isAhead hfront hquotes (by simp; omega)

/-- A quote ends a block string if two more are ahead of it. -/
theorem follows_skipBlock_quote (cs : List Char) :
    Follows source (skipBlock source) ('"' :: cs)
      (if ['"', '"'].isPrefixOf cs then .taken ['"', '"', '"'] (cs.drop 2) else .taken ['"'] cs)
      (!(['"', '"'].isPrefixOf cs)) := by
  have hquote : '"'.toNat < 128 := by decide
  refine (follows_peek_ascii hquote _).bind_nothing ?_
  refine (follows_isAhead_quotes hquote (by decide : 2 ≤ 3) _).bind_nothing ?_
  by_cases h : ['"', '"'].isPrefixOf cs = true
  · obtain ⟨cs, rfl⟩ := List.isPrefixOf_iff_prefix.mp h
    exact (follows_advance ['"', '"', '"'] cs).pure_behind false
  · rw [Bool.not_eq_true] at h
    show Follows source (if ['"', '"'].isPrefixOf cs then _ else _) _ _ _
    rw [h]
    exact (follows_advance_one hquote cs).pure_behind true

/-- A backslash takes three quotes with it if they are ahead of it. -/
theorem follows_skipBlock_backslash (cs : List Char) :
    Follows source (skipBlock source) ('\\' :: cs)
      (if ['"', '"', '"'].isPrefixOf cs then .taken ['\\', '"', '"', '"'] (cs.drop 3)
        else .taken ['\\'] cs) true := by
  have hbackslash : '\\'.toNat < 128 := by decide
  refine (follows_peek_ascii hbackslash _).bind_nothing ?_
  refine (follows_isAhead_quotes hbackslash (Nat.le_refl 3) _).bind_nothing ?_
  by_cases h : ['"', '"', '"'].isPrefixOf cs = true
  · obtain ⟨cs, rfl⟩ := List.isPrefixOf_iff_prefix.mp h
    exact (follows_advance ['\\', '"', '"', '"'] cs).pure_behind true
  · rw [Bool.not_eq_true] at h
    show Follows source (do advance (if ['"', '"', '"'].isPrefixOf cs then 4 else 1); return true) _ _ _
    rw [h]
    exact (follows_advance_one hbackslash cs).pure_behind true

/-- The lexer steps over a block string byte by byte. -/
theorem follows_block (cs : List Char) : Follows source (block source) cs (Scan.block cs) () := by
  have hquote : '"'.toNat < 128 := by decide
  have hbackslash : '\\'.toNat < 128 := by decide
  fun_induction Scan.block cs with
  | case1 cs =>
    have hstep : Follows source (skipBlock source) ('"' :: '"' :: '"' :: cs) _ false :=
      follows_skipBlock_quote ('"' :: '"' :: cs)
    exact hstep.loop_off
  | case2 cs ih =>
    have hstep : Follows source (skipBlock source) ('\\' :: '"' :: '"' :: '"' :: cs) _ true :=
      follows_skipBlock_backslash ('"' :: '"' :: '"' :: cs)
    exact hstep.loop_on ih
  | case3 c cs hquotes hescape ih =>
    -- any character but three quotes, or a backslash in front of them, is taken alone
    by_cases hc : c = '"'
    · subst hc
      have hnot : ['"', '"'].isPrefixOf cs = false := by
        refine Bool.eq_false_iff.mpr fun h => ?_
        obtain ⟨rest, rfl⟩ := List.isPrefixOf_iff_prefix.mp h
        exact hquotes rest rfl rfl
      have hstep : Follows source (skipBlock source) ('"' :: cs) _ _ := follows_skipBlock_quote cs
      rw [hnot] at hstep
      exact hstep.loop_on ih
    by_cases hc' : c = '\\'
    · subst hc'
      have hnot : ['"', '"', '"'].isPrefixOf cs = false := by
        refine Bool.eq_false_iff.mpr fun h => ?_
        obtain ⟨rest, rfl⟩ := List.isPrefixOf_iff_prefix.mp h
        exact hescape rest rfl rfl
      have hstep : Follows source (skipBlock source) ('\\' :: cs) _ _ := follows_skipBlock_backslash cs
      rw [hnot] at hstep
      exact hstep.loop_on ih
    · refine skips_block.over ((ascii_eq hquote).or (ascii_eq hbackslash)) ?_ ih
      simp [hc, hc']
  | case4 =>
    have hstep : Follows source (skipBlock source) [] (.stuck .unterminatedBlockString []) false :=
      (follows_peek []).bind_nothing (follows_throw _ _ _)
    exact hstep.loop_off

/-- A string is told from a block string by the two bytes behind its first quote. -/
theorem follows_string (cs : List Char) :
    Follows source (string source) ('"' :: cs) (scanLexeme '"' cs).2 (scanLexeme '"' cs).1 := by
  have hquote : '"'.toNat < 128 := by decide
  have hahead : Follows source (isAhead source 0 ['"', '"']) cs (.taken [] cs)
      (['"', '"'].isPrefixOf cs) :=
    follows_isAhead (List.forall_mem_nil _) (by simp) (by decide)
  by_cases hblock : ∀ body, cs ≠ '"' :: '"' :: body
  · have hnot : ['"', '"'].isPrefixOf cs = false := by
      refine Bool.eq_false_iff.mpr fun h => ?_
      obtain ⟨body, rfl⟩ := List.isPrefixOf_iff_prefix.mp h
      exact hblock body rfl
    rw [scanLexeme_quoted hblock]
    refine (follows_advance_one hquote cs).bind_taken (hahead.bind_nothing ?_)
    rw [hnot]
    exact (follows_quoted cs).pure_behind _
  · obtain ⟨body, rfl⟩ : ∃ body, cs = '"' :: '"' :: body := by simpa using hblock
    have hrest : Follows source (do advance 2; block source; return TokenKind.blockString)
        ('"' :: '"' :: body) ((Scan.block body).after ['"', '"']) .blockString :=
      (follows_advance ['"', '"'] body).bind_taken ((follows_block body).pure_behind _)
    have hscan : scanLexeme '"' ('"' :: '"' :: body) =
        (.blockString, ((Scan.block body).after ['"', '"']).after ['"']) := rfl
    rw [hscan]
    refine (follows_advance_one hquote _).bind_taken ?_
    exact hahead.bind_nothing hrest

/-! ## Lexemes -/

theorem follows_unexpected (c : Char) (cs : List Char) (kind : TokenKind) :
    Follows source (unexpected source) (c :: cs) ⟨[c], cs, some (.unexpectedCharacter c)⟩ kind := by
  refine ⟨rfl, fun pos hpos => ?_⟩
  have hslice : slice? source pos source.utf8ByteSize = some (c :: cs) := by
    have hall : Place source pos (c :: cs ++ []) := (List.append_nil (c :: cs)).symm ▸ hpos
    rw [hpos.size_eq]
    exact hall.slice?_eq
  rw [unexpected, run_get_bind, hslice]
  show (advance c.utf8Size >>= fun _ => throw (.unexpectedCharacter c)).run.run pos = _
  rw [run_bind, run_advance (hpos.lt_limit (by rw [byteLength_cons]; omega))]
  rfl

/-- Nothing beyond ASCII begins a lexeme. -/
theorem unclassified {c : Char} (hc : 128 ≤ c.toNat) : Punctuator.ofChar? c = none ∧
    ¬c = '"' ∧ ¬(c = '-' || c.isDigit) = true ∧ ¬isNameStart c = true := by
  have hquote : ¬c = '"' := by
    rintro rfl
    exact absurd hc (by decide)
  exact ⟨Option.isSome_eq_false_iff.mp (ascii_ofChar?.eq_false hc) |> Option.isNone_iff_eq_none.mp,
    hquote, Bool.eq_false_iff.mp (((ascii_eq (by decide)).or ascii_isDigit).eq_false hc),
    Bool.eq_false_iff.mp (ascii_isNameStart.eq_false hc)⟩

/-- A lexeme of bytes is scanned as one of characters. -/
theorem follows_lexeme {c b : Char} {bs : List Char} (hbytes : bytesOf c = b :: bs) (cs : List Char) :
    Follows source (lexeme source b) (c :: cs) (scanLexeme c cs).2 (scanLexeme c cs).1 := by
  by_cases hascii : c.toNat < 128
  · rw [bytesOf_ascii hascii] at hbytes
    obtain ⟨rfl, -⟩ := List.cons.inj hbytes
    cases hmark : Punctuator.ofChar? c with
    | some mark =>
      simp only [lexeme, scanLexeme, hmark]
      exact (follows_advance_one hascii cs).pure_behind _
    | none =>
      by_cases hquote : c = '"'
      · subst hquote
        exact follows_string cs
      by_cases hnumber : c = '-' || c.isDigit
      · simp only [lexeme, scanLexeme, hmark, if_neg hquote, if_pos hnumber]
        exact follows_number (c :: cs)
      by_cases hname : isNameStart c
      · simp only [lexeme, scanLexeme, hmark, if_neg hquote, if_neg hnumber, if_pos hname]
        exact follows_word (c :: cs)
      · simp only [lexeme, scanLexeme, hmark, if_neg hquote, if_neg hnumber, if_neg hname]
        exact follows_unexpected c cs _
  · -- neither the character nor its first byte, which the lexer decides by, begins anything else
    have hbeyond := Nat.not_lt.mp hascii
    obtain ⟨hmark, hquote, hnumber, hname⟩ := unclassified hbeyond
    obtain ⟨hmark', hquote', hnumber', hname'⟩ :=
      unclassified (beyond_of_mem hbeyond (hbytes ▸ List.mem_cons_self))
    simp only [lexeme, scanLexeme, hmark, hmark', if_neg hquote, if_neg hquote', if_neg hnumber,
      if_neg hnumber', if_neg hname, if_neg hname']
    exact follows_unexpected c cs _

/-! ## Calls -/

variable {pos : Nat}

/-- One call gives the lexeme behind the trivia. -/
theorem next_eq {d : Char} {ds : List Char} (h : Place source pos cs)
    (hrest : (splitTrivia false cs).2 = d :: ds) :
    next source pos = some
      (.ofScan (pos + byteLength (splitTrivia false cs).1) (scanLexeme d ds).1 (scanLexeme d ds).2,
        pos + byteLength (splitTrivia false cs).1 + byteLength (scanLexeme d ds).2.text) := by
  have htrivia : (trivia source).run pos = some (.ok (), pos + byteLength (splitTrivia false cs).1) :=
    (follows_trivia cs).run pos h
  have hplace : Place source (pos + byteLength (splitTrivia false cs).1) (d :: ds) :=
    hrest ▸ (follows_trivia cs).place h
  generalize pos + byteLength (splitTrivia false cs).1 = start at *
  obtain ⟨b, bs, hbytes⟩ := exists_bytesOf d
  have hhead : (bytes source)[start]? = some b := by
    rw [hplace.head_eq, utf8_cons, hbytes]
    rfl
  have hlexeme : Follows source (lexeme source b) (d :: ds) _ _ := follows_lexeme hbytes ds
  have hslice := hlexeme.slice?_eq hplace
  have hrun : (lexeme source b).run start = _ := hlexeme.run start hplace
  simp only [next, htrivia, hhead, hrun, hslice, Option.bind_eq_bind, Option.bind_some]
  rw [Lexeme.ofScan, outcome]
  cases (scanLexeme d ds).2.fault <;> rfl

/-- At the end of a source a call gives the end. -/
theorem next_eq_end (h : Place source pos cs) (hrest : (splitTrivia false cs).2 = []) :
    next source pos = some (.endOfInput (pos + byteLength (splitTrivia false cs).1),
      pos + byteLength (splitTrivia false cs).1) := by
  have htrivia : (trivia source).run pos = some (.ok (), pos + byteLength (splitTrivia false cs).1) :=
    (follows_trivia cs).run pos h
  have hplace : Place source (pos + byteLength (splitTrivia false cs).1) [] :=
    hrest ▸ (follows_trivia cs).place h
  have hhead : (bytes source)[pos + byteLength (splitTrivia false cs).1]? = none := hplace.head_eq
  simp only [next, htrivia, hhead, Option.bind_eq_bind, Option.bind_some]
  rfl

/-- Call after call gives the lexemes of what is left. -/
theorem calls_eq (h : Place source pos cs) :
    calls source (lexemesFrom pos cs).length pos = some (lexemesFrom pos cs) := by
  fun_induction lexemesFrom pos cs with
  | case1 pos cs start hrest =>
    rw [List.length_singleton, calls, next_eq_end h hrest]
    rfl
  | case2 pos cs start d ds hrest scan ih =>
    have hplace : Place source start (d :: ds) := hrest ▸ (follows_trivia cs).place h
    obtain ⟨b, bs, hbytes⟩ := exists_bytesOf d
    rw [List.length_cons, calls, next_eq h hrest]
    show (do
      let ls ← calls source _ (start + byteLength scan.text)
      return _ :: ls) = _
    rw [ih ((follows_lexeme hbytes ds).place hplace)]
    rfl

/-- **The lexer reaches the end of every source that is small enough**, breaking down nowhere, and what
    it gives call after call tiles the source. -/
theorem calls_tile (source : String) (h : source.utf8ByteSize + 4 < 2 ^ 32) :
    calls source (lexemes source).length 0 = some (lexemes source) ∧ Tiling source (lexemes source) :=
  ⟨calls_eq ⟨h, [], rfl, rfl⟩, tiling_lexemes source⟩

/-- The string is cut off inside of an escape, and the one byte that this takes with it is only half of a
    character. -/
theorem calls_tile_unterminated : "\"\\é".utf8ByteSize + 4 < 2 ^ 32 ∧
    calls "\"\\é" 2 0 = some [.malformed .unterminatedString ⟨0, 4⟩ "\"\\é", .endOfInput 4] ∧
    Tiling "\"\\é" [.malformed .unterminatedString ⟨0, 4⟩ "\"\\é", .endOfInput 4] := by
  have hsmall : "\"\\é".utf8ByteSize + 4 < 2 ^ 32 := by decide +kernel
  have hlexemes : lexemes "\"\\é" =
      [.malformed .unterminatedString ⟨0, 4⟩ "\"\\é", .endOfInput 4] := by decide +kernel
  have htile := calls_tile "\"\\é" hsmall
  rw [hlexemes] at htile
  exact ⟨hsmall, htile⟩

end

end ByteLexer

end SchemaModel.Sdl
