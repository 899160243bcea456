import SolSyntax.Lexing.Lexer

/-!
# Lexemes on their own

The scanner looks past a lexeme only to see that it does not go on.  So a lexeme is scanned the same way
where nothing follows it; and where a space follows, unless spaces go on in it or a quote meets another.

Principal results: `scan_again`; `Progress.run_blank`, `Progress.run_lexeme`, `Progress.run_error`,
`Progress.run_stray` — how lexing goes on after a piece.
-/

namespace SolSyntax.Lexing

/-! ## Runs -/

/-- A text that goes on with no character of a class. -/
def Stops (p : Char → Bool) (cs : List Char) : Prop := ∀ c ∈ cs.head?, p c = false

/-- Nothing, or a text that begins with a space. -/
def Ends (cs : List Char) : Prop := ∀ c ∈ cs.head?, c = ' '

theorem Ends.stops {cs : List Char} (h : Ends cs) {p : Char → Bool} (hp : p ' ' = false) : Stops p cs :=
  fun c hc => h c hc ▸ hp

theorem Stops.append {p : Char → Bool} {as bs : List Char} (ha : Stops p as)
    (hb : as = [] → Stops p bs) : Stops p (as ++ bs) := by
  cases as with
  | nil => exact hb rfl
  | cons a as => exact ha

/-- What a text begins with tells where a run stops. -/
theorem Stops.of_append {p : Char → Bool} {as bs : List Char} (h : Stops p (as ++ bs)) : Stops p as := by
  cases as with
  | nil => exact fun c hc => by cases hc
  | cons a as => exact h

/-- A run takes what belongs to its class, and no more. -/
theorem run_of_stops {p : Char → Bool} {us v : List Char} (hu : ∀ c ∈ us, p c = true) (hv : Stops p v) :
    run p (us ++ v) = (us, v) := by
  induction us with
  | nil =>
    cases v with
    | nil => rfl
    | cons c v => simp [run, hv c rfl]
  | cons u us ih =>
    obtain ⟨hhead, htail⟩ := List.forall_mem_cons.1 hu
    have := ih htail
    simp only [run, Prod.mk.injEq] at this ⊢
    simp [hhead, this]

structure IsRun (p : Char → Bool) (cs us rest : List Char) : Prop where
  append : us ++ rest = cs
  all : ∀ c ∈ us, p c = true
  stops : Stops p rest

theorem isRun_run (p : Char → Bool) (cs : List Char) : IsRun p cs (run p cs).1 (run p cs).2 where
  append := run_append p cs
  all := fun c hc => List.all_eq_true.1 List.all_takeWhile c hc
  stops := fun c hc => by
    have := List.head?_dropWhile_not p cs
    rw [show cs.dropWhile p = (run p cs).2 from rfl, hc] at this
    simpa using this

theorem isRun_of_eq {p : Char → Bool} {cs us rest : List Char} (h : run p cs = (us, rest)) :
    IsRun p cs us rest := by
  have := isRun_run p cs
  rwa [h] at this

/-! ## Numbers -/

theorem isWordChar_of_isDigitOrSeparator {c : Char} (h : isDigitOrSeparator c = true) :
    isWordChar c = true := by
  simp only [isDigitOrSeparator, isWordChar, isNameStart, Bool.or_eq_true] at h ⊢
  exact h.elim .inr fun h => .inl (.inr h)

/-- A word that begins with a digit is an integer. -/
theorem scanNumber_word (first : Char) {word v : List Char} (hword : ∀ c ∈ word, isWordChar c = true)
    (hv : Ends v) : scanNumber first (word ++ v) =
      .lexeme (.int (radixOf first word)) (first :: word) v := by
  have hrun := run_of_stops hword (hv.stops (p := isWordChar) (by decide))
  obtain ⟨digits, more, hdigits⟩ : ∃ digits more, IsRun isDigitOrSeparator word digits more :=
    ⟨_, _, isRun_run _ _⟩
  have hwhole : run isDigitOrSeparator (word ++ v) = (digits, more ++ v) := by
    rw [← hdigits.append, List.append_assoc]
    exact run_of_stops hdigits.all (hdigits.stops.append fun _ => hv.stops (by decide))
  -- no point follows the digits
  have hpoint : ∀ d ds, more ++ v ≠ '.' :: d :: ds := by
    intro d ds h
    cases more with
    | nil =>
      rw [List.nil_append] at h
      exact absurd (hv '.' (by rw [h]; rfl)) (by decide)
    | cons c more =>
      obtain ⟨rfl, -⟩ := List.cons.inj h
      exact absurd (hword '.' (by rw [← hdigits.append]; simp)) (by decide)
  unfold scanNumber
  rw [hwhole, hrun]
  dsimp only
  split
  · rename_i d ds h
    exact (hpoint d ds h).elim
  · rfl

/-- A whole exponent. -/
structure IsExponent (exp rest : List Char) : Prop where
  parts : ∃ e sign digits, exp = e :: (sign ++ digits) ∧ (e = 'e' ∨ e = 'E') ∧
    (sign = [] ∨ sign = ['+'] ∨ sign = ['-']) ∧ digits ≠ [] ∧ ∀ c ∈ digits, isDigit c = true
  stops : Stops isDigit rest

theorem IsExponent.exponent_eq {exp rest : List Char} (h : IsExponent exp rest) :
    exponent (exp ++ rest) = (exp, rest) := by
  obtain ⟨⟨e, sign, digits, rfl, he, hsign, hne, hall⟩, hstops⟩ := h
  have hrun := run_of_stops hall hstops
  obtain ⟨d, ds, rfl⟩ := List.exists_cons_of_ne_nil hne
  have hd : isDigit d = true := hall d List.mem_cons_self
  have hplus : d ≠ '+' := by rintro rfl; exact absurd hd (by decide)
  have hminus : d ≠ '-' := by rintro rfl; exact absurd hd (by decide)
  rw [List.cons_append] at hrun
  rcases hsign with rfl | rfl | rfl <;> simp [exponent, he, hrun, hplus, hminus]

/-- There is a whole exponent, or none is taken. -/
theorem exponent_cases (cs : List Char) :
    IsExponent (exponent cs).1 (exponent cs).2 ∨ exponent cs = ([], cs) := by
  unfold exponent
  split
  · exact .inr rfl
  · rename_i e cs
    split
    · rename_i he
      split
      rename_i sign ds hs
      have hsign : sign = [] ∨ sign = ['+'] ∨ sign = ['-'] := by
        split at hs <;> cases hs <;> simp
      split
      · exact .inr rfl
      · rename_i digits rest hne hrun
        have := isRun_of_eq hrun
        exact .inl ⟨⟨e, sign, digits, rfl, he, hsign, hne, this.all⟩, this.stops⟩
    · exact .inr rfl

/-- Neither a sign nor a digit follows. -/
theorem exponent_of_stops (e : Char) {cs : List Char}
    (h : Stops (fun c => c == '+' || c == '-' || isDigit c) cs) : exponent (e :: cs) = ([], e :: cs) := by
  cases cs with
  | nil => simp [exponent, run]
  | cons c cs =>
    obtain ⟨⟨hplus, hminus⟩, hdigit⟩ : (c ≠ '+' ∧ c ≠ '-') ∧ isDigit c = false := by
      simpa using h c rfl
    simp [exponent, run, hplus, hminus, hdigit]

/-- If no exponent is taken, none is taken where the word ends. -/
theorem exponent_of_none {cs v : List Char} (h : exponent cs = ([], cs)) (hv : Ends v) :
    exponent (cs.takeWhile isWordChar ++ v) = ([], cs.takeWhile isWordChar ++ v) := by
  have alone : exponent v = ([], v) := by
    cases v with
    | nil => rfl
    | cons c v =>
      obtain rfl := hv c rfl
      simp [exponent]
  cases cs with
  | nil => exact alone
  | cons e cs =>
    by_cases hword : isWordChar e = true
    · rw [List.takeWhile_cons_of_pos hword, List.cons_append]
      by_cases he : e = 'e' ∨ e = 'E'
      · refine exponent_of_stops e (.append ?_ fun _ => hv.stops (by decide))
        cases cs with
        | nil => exact fun c hc => by cases hc
        | cons d ds =>
          by_cases hd : isWordChar d = true
          · rw [List.takeWhile_cons_of_pos hd]
            rintro c ⟨⟩
            have hplus : d ≠ '+' := by rintro rfl; exact absurd hd (by decide)
            have hminus : d ≠ '-' := by rintro rfl; exact absurd hd (by decide)
            -- a digit would be an exponent
            have hdigit : isDigit d = false := by
              cases hdigit : isDigit d with
              | false => rfl
              | true => simp [exponent, he, run, hplus, hminus, hdigit] at h
            simp [hplus, hminus, hdigit]
          · rw [List.takeWhile_cons_of_neg hd]
            exact fun c hc => by cases hc
      · simp [exponent, he]
    · rw [List.takeWhile_cons_of_neg hword]
      exact alone

theorem exponent_again (cs : List Char) {v : List Char} (hv : Ends v) :
    exponent ((exponent cs).1 ++ ((exponent cs).2.takeWhile isWordChar ++ v)) =
      ((exponent cs).1, (exponent cs).2.takeWhile isWordChar ++ v) := by
  rcases exponent_cases cs with h | h
  · refine IsExponent.exponent_eq ⟨h.parts, ?_⟩
    refine Stops.append ?_ fun _ => hv.stops (by decide)
    rw [← List.takeWhile_append_dropWhile (p := isWordChar) (l := (exponent cs).2)] at h
    exact h.stops.of_append
  · rw [h]
    exact exponent_of_none h hv

/-- What may be asked of the text behind a lexeme, for the lexeme to be scanned the same way. -/
def Shape.Allows : Shape → List Char → Prop
  | .comment, v | .quote, v | .openString, v | .openChar, v => v = []
  | _, v => Ends v

/-- The parts of a float. -/
theorem scanNumber_float (first : Char) {d : Char} {whole fraction exp suffix v : List Char}
    (hwhole : ∀ c ∈ whole, isDigitOrSeparator c = true) (hd : isDigit d = true)
    (hfraction : ∀ c ∈ fraction, isDigitOrSeparator c = true)
    (hstops : Stops isDigitOrSeparator (exp ++ (suffix ++ v)))
    (hexp : exponent (exp ++ (suffix ++ v)) = (exp, suffix ++ v))
    (hsuffix : ∀ c ∈ suffix, isWordChar c = true) (hv : Stops isWordChar v) :
    scanNumber first (whole ++ '.' :: d :: (fraction ++ (exp ++ (suffix ++ v)))) =
      .lexeme .float (first :: (whole ++ '.' :: d :: (fraction ++ (exp ++ suffix)))) v := by
  have hpoint : Stops isDigitOrSeparator ('.' :: d :: (fraction ++ (exp ++ (suffix ++ v)))) := by
    rintro c ⟨⟩
    decide
  simp [scanNumber, run_of_stops hwhole hpoint, hd, run_of_stops hfraction hstops, hexp,
    run_of_stops hsuffix hv]

/-- Without a marker a number is decimal. -/
theorem radixOf_digits (first : Char) {digits : List Char}
    (h : ∀ c ∈ digits, isDigitOrSeparator c = true) : radixOf first digits = .decimal := by
  unfold radixOf
  split
  · split
    · exact absurd (h _ List.mem_cons_self) (by decide)
    · exact absurd (h _ List.mem_cons_self) (by decide)
    · exact absurd (h _ List.mem_cons_self) (by decide)
    · rfl
  · rfl

theorem scanNumber_again {first : Char} {cs text rest v : List Char} {shape : Shape}
    (h : scanNumber first cs = .lexeme shape text rest) (hv : shape.Allows v) :
    scanNumber first (text.tail ++ v) = .lexeme shape text v := by
  unfold scanNumber at h
  have hwhole := isRun_run isDigitOrSeparator cs
  generalize run isDigitOrSeparator cs = taken at h hwhole
  obtain ⟨whole, after⟩ := taken
  dsimp only at h hwhole
  split at h
  · rename_i d ds
    split at h
    · rename_i hd
      cases h
      have hv : Ends v := hv
      have hfraction := isRun_run isDigitOrSeparator ds
      generalize run isDigitOrSeparator ds = taken at hfraction ⊢
      obtain ⟨fraction, after⟩ := taken
      dsimp only at hfraction ⊢
      have hexp := exponent_again after hv
      have happend := exponent_append after
      generalize exponent after = taken at hexp happend ⊢
      obtain ⟨exp, more⟩ := taken
      dsimp only at hexp happend ⊢
      have hsuffix := isRun_run isWordChar more
      have hstops : Stops isDigitOrSeparator (exp ++ ((run isWordChar more).1 ++ v)) := by
        rw [← List.append_assoc]
        refine .append ?_ fun _ => hv.stops (by decide)
        have := hfraction.stops
        rw [← happend, ← hsuffix.append, ← List.append_assoc] at this
        exact this.of_append
      have := scanNumber_float first hwhole.all hd hfraction.all hstops hexp hsuffix.all
        (hv.stops (by decide))
      simpa only [List.tail_cons, List.append_assoc, List.cons_append] using this
    · cases h
      have hword : ∀ c ∈ whole, isWordChar c = true := fun c hc =>
        isWordChar_of_isDigitOrSeparator (hwhole.all c hc)
      have := scanNumber_word first hword hv
      rwa [radixOf_digits first hwhole.all] at this
  · cases h
    exact scanNumber_word first (isRun_run isWordChar cs).all hv

/-! ## Line breaks -/

/-- What is a run of line breaks is one also where it ends. -/
theorem lineBreaks_again (acc cs : List Char) :
    ∃ us, (lineBreaks acc cs).1 = acc.reverse ++ us ∧
      ∀ more v, Ends v → lineBreaks more (us ++ v) = (more.reverse ++ us, v) := by
  have ended {v : List Char} (hv : Ends v) (more : List Char) :
      lineBreaks more v = (more.reverse, v) := by
    cases v with
    | nil => simp [lineBreaks]
    | cons c v =>
      obtain rfl := hv c rfl
      simp [lineBreaks]
  fun_induction lineBreaks acc cs with
  | case1 acc cs ih =>
    obtain ⟨us, hus, hagain⟩ := ih
    refine ⟨'\n' :: us, by simp [hus], fun more v hv => ?_⟩
    rw [List.cons_append, lineBreaks, hagain _ v hv]
    simp
  | case2 acc cs ih =>
    obtain ⟨us, hus, hagain⟩ := ih
    refine ⟨';' :: us, by simp [hus], fun more v hv => ?_⟩
    rw [List.cons_append, lineBreaks, hagain _ v hv]
    simp
  | case3 acc cs ih =>
    obtain ⟨us, hus, hagain⟩ := ih
    refine ⟨'\r' :: '\n' :: us, by simp [hus], fun more v hv => ?_⟩
    rw [List.cons_append, List.cons_append, lineBreaks, hagain _ v hv]
    simp
  | case4 acc cs => exact ⟨[], by simp, fun more v hv => by simpa using ended hv more⟩

/-! ## Literals -/

/-- What a string holds it holds also where it ends. -/
theorem stringBody_again (acc cs : List Char) :
    ∃ us, (stringBody acc cs).1 = acc.reverse ++ us ∧
      ∀ more v, (v = [] ∨ v.head? = some '\x22') → stringBody more (us ++ v) = (more.reverse ++ us, v) := by
  have ended {v : List Char} (hv : v = [] ∨ v.head? = some '\x22') (more : List Char) :
      stringBody more v = (more.reverse, v) := by
    cases v with
    | nil => simp [stringBody]
    | cons c v =>
      obtain rfl : c = '\x22' := by simpa using hv
      rw [stringBody]
      · rfl
      all_goals simp
  fun_induction stringBody acc cs with
  | case1 acc => exact ⟨[], by simp, fun more v hv => by simpa using ended hv more⟩
  | case2 acc => exact ⟨[], by simp, fun more v hv => by simpa using ended hv more⟩
  | case3 acc cs => exact ⟨[], by simp, fun more v hv => by simpa using ended hv more⟩
  | case4 acc c cs hc ih =>
    obtain ⟨us, hus, hagain⟩ := ih
    refine ⟨'\\' :: c :: us, by simp [hus], fun more v hv => ?_⟩
    rw [List.cons_append, List.cons_append, stringBody, if_neg hc, hagain _ v hv]
    simp
  | case5 acc c cs hne hne' hc ih =>
    obtain ⟨us, hus, hagain⟩ := ih
    refine ⟨c :: us, by simp [hus], fun more v hv => ?_⟩
    have hbackslash : c ≠ '\\' := by rintro rfl; exact absurd hc (by decide)
    rw [List.cons_append, stringBody, if_pos hc, hagain _ v hv]
    · simp
    all_goals simp [hbackslash]
  | case6 acc c cs => exact ⟨[], by simp, fun more v hv => by simpa using ended hv more⟩

theorem scanString_again {cs text rest v : List Char} {shape : Shape}
    (h : scanString cs = .lexeme shape text rest) (hv : shape.Allows v) :
    scanString (text.tail ++ v) = .lexeme shape text v := by
  unfold scanString at h
  obtain ⟨us, hus, hagain⟩ := stringBody_again [] cs
  split at h
  · rename_i body rest hbody
    rw [hbody] at hus
    cases h
    have hus : body = us := hus
    have := hagain [] ('\x22' :: v) (.inr rfl)
    simp only [List.tail_cons, List.append_assoc, List.cons_append, List.nil_append, hus, scanString]
    rw [this]
    rfl
  · rename_i body rest _ hbody
    rw [hbody] at hus
    cases h
    have hus : body = us := hus
    obtain rfl : v = [] := hv
    have := hagain [] [] (.inl rfl)
    rw [List.append_nil] at this
    simp only [List.tail_cons, List.append_nil, hus, scanString]
    rw [this]
    rfl

theorem scanCodePoint_again {cs text rest v : List Char} {shape : Shape}
    (h : scanCodePoint cs = .lexeme shape text rest) :
    ∃ digits, text = '\x27' :: '\\' :: 'u' :: '\x7b' :: (digits ++ ['\x7d', '\x27']) ∧
      scanCodePoint (digits ++ '\x7d' :: '\x27' :: v) = .lexeme shape text v := by
  unfold scanCodePoint at h
  have hdigits := isRun_run isHexDigit cs
  generalize run isHexDigit cs = taken at h hdigits
  obtain ⟨digits, after⟩ := taken
  dsimp only at h hdigits
  split at h
  · cases h
    have hrun : run isHexDigit (digits ++ '\x7d' :: '\x27' :: v) = (digits, '\x7d' :: '\x27' :: v) :=
      run_of_stops hdigits.all (by rintro c ⟨⟩; decide)
    refine ⟨digits, rfl, ?_⟩
    simp [scanCodePoint, hrun]
  · cases h

theorem scanQuote_again {cs text rest v : List Char} {shape : Shape}
    (h : scanQuote cs = .lexeme shape text rest) (hv : shape.Allows v) :
    scanQuote (text.tail ++ v) = .lexeme shape text v := by
  unfold scanQuote at h
  split at h
  · obtain ⟨digits, rfl, hagain⟩ := scanCodePoint_again (v := v) h
    simpa [scanQuote] using hagain
  · split at h
    · cases h
      obtain rfl : v = [] := hv
      rfl
    · rename_i hc
      cases h
      simp [scanQuote, hc]
  · split at h
    · cases h
      obtain rfl : v = [] := hv
      rfl
    · rename_i hc
      cases h
      obtain rfl : v = [] := hv
      simp [scanQuote, hc]
  · cases h
    obtain rfl : v = [] := hv
    rfl
  · rename_i c rest _ _
    split at h
    · rename_i hc
      cases h
      have hbackslash : c ≠ '\\' := by rintro rfl; exact absurd hc (by decide)
      simp [scanQuote, hbackslash, hc]
    · cases h
      obtain rfl : v = [] := hv
      rfl
  · cases h
    obtain rfl : v = [] := hv
    rfl

/-! ## Operators and symbols -/

theorem scanOperator_again {first : Char} {cs text rest v : List Char} {shape : Shape}
    (h : scanOperator first cs = .lexeme shape text rest) (hv : shape.Allows v) :
    scanOperator first (text.tail ++ v) = .lexeme shape text v := by
  unfold scanOperator at h
  split at h
  · rename_i cs
    have hline := isRun_run (· != '\n') cs
    generalize run (· != '\n') cs = taken at h hline
    obtain ⟨line, after⟩ := taken
    cases h
    obtain rfl : v = [] := hv
    have hagain := run_of_stops hline.all (v := []) fun c hc => by cases hc
    simp only [List.tail_cons, List.cons_append, scanOperator, hagain]
  · rename_i hcomment
    have hrun := isRun_run isOperatorChar cs
    generalize run isOperatorChar cs = taken at h hrun
    obtain ⟨us, after⟩ := taken
    cases h
    have hv : Ends v := hv
    have hagain := run_of_stops hrun.all (hv.stops (by decide))
    rw [List.tail_cons]
    unfold scanOperator
    split
    · -- it would have been a comment
      rename_i more hmore
      cases us with
      | nil => exact absurd (hv '/' (by rw [← List.nil_append v, hmore]; rfl)) (by decide)
      | cons c us =>
        obtain ⟨rfl, -⟩ := List.cons.inj hmore
        exact (hcomment (us ++ rest) rfl hrun.append.symm).elim
    · rw [hagain]

theorem scanSymbol_again {cs text rest v : List Char} {shape : Shape}
    (h : scanSymbol cs = .lexeme shape text rest) (hv : shape.Allows v) :
    scanSymbol (text.tail ++ v) = .lexeme shape text v := by
  unfold scanSymbol at h
  split at h
  · cases h
  · rename_i us rest hne hus
    cases h
    have hagain := run_of_stops (isRun_of_eq hus).all (Ends.stops hv (p := isOperatorChar) (by decide))
    rw [List.tail_cons]
    unfold scanSymbol
    split
    · rename_i hnil
      rw [hagain] at hnil
      exact (hne (Prod.mk.inj hnil).1).elim
    · rename_i hsome
      rw [hagain] at hsome
      obtain ⟨rfl, rfl⟩ := Prod.mk.inj hsome
      rfl

/-! ## All lexemes -/

/-- What begins no line break and is no blank begins no line break anywhere. -/
theorem beginsLineBreak_eq_false {first : Char} {cs : List Char}
    (h : ¬beginsLineBreak first cs = true) (hblank : ¬isBlank first = true) (ds : List Char) :
    beginsLineBreak first ds = false := by
  have hreturn : first ≠ '\r' := by rintro rfl; exact absurd hblank (by decide)
  simp only [beginsLineBreak, Bool.or_eq_true, not_or, beq_iff_eq] at h
  simp [beginsLineBreak, h.1.1, h.1.2, hreturn]

theorem scan_again_of_lineBreak {first : Char} {cs text rest v : List Char} {shape : Shape}
    (hbreak : beginsLineBreak first cs = true) (h : scan first cs = .lexeme shape text rest)
    (hv : shape.Allows v) : scan first (text.tail ++ v) = .lexeme shape text v := by
  unfold scan at h
  rw [if_pos hbreak] at h
  obtain ⟨us, hus, hagain⟩ := lineBreaks_again [] (first :: cs)
  have happend := lineBreaks_append [] (first :: cs)
  have hne := lineBreaks_ne_nil hbreak
  rw [hus] at happend hne
  cases h
  rw [hus]
  simp only [List.reverse_nil, List.nil_append] at happend hne ⊢
  obtain ⟨c, us, rfl⟩ := List.exists_cons_of_ne_nil hne
  obtain ⟨rfl, htail⟩ := List.cons.inj happend
  have hbreak' : beginsLineBreak c (us ++ v) = true := by
    cases us with
    | nil =>
      -- a carriage return alone is no line break
      have hreturn : c ≠ '\r' := by
        rintro rfl
        exact absurd (hagain [] [] fun c hc => by cases hc) (by decide)
      simp only [beginsLineBreak, Bool.or_eq_true, Bool.and_eq_true, beq_iff_eq, hreturn, false_and,
        or_false] at hbreak ⊢
      exact hbreak
    | cons d us =>
      rw [← htail] at hbreak
      exact hbreak
  unfold scan
  have := hagain [] v hv
  rw [List.cons_append] at this
  rw [List.tail_cons, if_pos hbreak', this]
  rfl

/-- A lexeme is scanned again where nothing follows, or a space that it allows. -/
theorem scan_again {first : Char} {cs text rest v : List Char} {shape : Shape}
    (h : scan first cs = .lexeme shape text rest) (hv : shape.Allows v) :
    scan first (text.tail ++ v) = .lexeme shape text v := by
  by_cases hbreak : beginsLineBreak first cs = true
  · exact scan_again_of_lineBreak hbreak h hv
  unfold scan at h
  rw [if_neg hbreak] at h
  split at h
  · cases h
  rename_i hblank
  unfold scan
  rw [if_neg (by rw [beginsLineBreak_eq_false hbreak hblank]; simp), if_neg hblank]
  split at h
  · rename_i hname
    rw [if_pos hname]
    have hword := isRun_run isNameChar cs
    generalize run isNameChar cs = taken at h hword
    obtain ⟨word, after⟩ := taken
    cases h
    have hagain := run_of_stops hword.all (Ends.stops hv (p := isNameChar) (by decide))
    rw [List.tail_cons, hagain]
  rename_i hname
  rw [if_neg hname]
  split at h
  · rename_i hdigit
    rw [if_pos hdigit]
    exact scanNumber_again h hv
  rename_i hdigit
  rw [if_neg hdigit]
  split at h
  · rename_i hoperator
    rw [if_pos hoperator]
    exact scanOperator_again h hv
  rename_i hoperator
  rw [if_neg hoperator]
  split at h
  · rename_i hstring
    rw [if_pos hstring]
    exact scanString_again h hv
  rename_i hstring
  rw [if_neg hstring]
  split at h
  · rename_i hquote
    rw [if_pos hquote]
    exact scanQuote_again h hv
  rename_i hquote
  rw [if_neg hquote]
  split at h
  · rename_i hsymbol
    rw [if_pos hsymbol]
    exact scanSymbol_again h hv
  rename_i hsymbol
  rw [if_neg hsymbol]
  split at h
  · rename_i kind hkind
    cases h
    rfl
  · cases h

theorem Shape.allows_nil (shape : Shape) : shape.Allows [] := by
  cases shape with
  | comment | quote | openString | openChar => exact rfl
  | _ => exact fun c hc => by cases hc

/-- A lexeme begins where its text begins. -/
theorem eq_cons_of_scan {first : Char} {cs text rest : List Char} {shape : Shape}
    (h : scan first cs = .lexeme shape text rest) : text = first :: text.tail := by
  have hcuts := cuts_of_scan h
  cases text with
  | nil => exact (hcuts.text_ne_nil rfl).elim
  | cons c text => exact congrArg (· :: text) (List.cons.inj hcuts.text_append_rest).1

/-! ## One step of lexing -/

namespace Progress

variable {s : Progress} {first : Char} {cs text rest : List Char}

theorem run_nil (s : Progress) : s.run [] = (none, s) := by rw [run]

theorem run_blank (h : scan first cs = .blank text rest) :
    s.run (first :: cs) = run { s with place := s.place.advance text } rest := by
  rw [run]
  split <;> simp_all

theorem run_lexeme {shape : Shape} {i : Item} {names : Interner}
    (h : scan first cs = .lexeme shape text rest) (hi : item s.names shape text = (.ok i, names)) :
    s.run (first :: cs) = run (s.add text i names) rest := by
  rw [run]
  split <;> simp_all

theorem run_error {shape : Shape} {e : LexErrorKind} {names : Interner}
    (h : scan first cs = .lexeme shape text rest) (he : item s.names shape text = (.error e, names)) :
    s.run (first :: cs) = (some (s.errorAt text e), { s with names }) := by
  rw [run]
  split <;> simp_all

theorem run_stray (h : scan first cs = .stray text rest) :
    s.run (first :: cs) = (some (s.errorAt text (.unexpectedChar first)), s) := by
  rw [run]
  split <;> simp_all

end Progress

end SolSyntax.Lexing
