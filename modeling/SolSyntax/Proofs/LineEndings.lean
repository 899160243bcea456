import SolSyntax.Proofs.LexedNames
import SolSyntax.Proofs.Positions

/-!
# Line endings

A carriage return before a line feed belongs to a run of blanks, to a line break, to a comment or to the
`#!` line, ends a string, and may be part of an escape.  Whichever it is, the two runs over a source with and
without carriage returns meet again: what is left is the same but for the line endings, and at most the
carriage return of the next line feed was taken already.

Principal results: `scan_alike` — one piece; `Progress.run_alike` — all pieces; `line_endings` — whole
sources.
-/

namespace SolSyntax.Lexing

/-! ## Carriage returns before line feeds -/

/-- The text with a carriage return before every line feed. -/
def crlf : List Char → List Char
  | [] => []
  | c :: cs => if c = '\n' then '\r' :: '\n' :: crlf cs else c :: crlf cs

theorem crlf_lineFeed (cs : List Char) : crlf ('\n' :: cs) = '\r' :: '\n' :: crlf cs := by
  rw [crlf, if_pos rfl]

theorem crlf_cons {c : Char} (h : c ≠ '\n') (cs : List Char) : crlf (c :: cs) = c :: crlf cs := by
  rw [crlf, if_neg h]

/-- What begins the text with carriage returns begins the text, or stands before a line feed. -/
theorem crlf_eq_cons {cs ds : List Char} {c : Char} (h : crlf cs = c :: ds) :
    (∃ cs', cs = c :: cs' ∧ crlf cs' = ds) ∨ ∃ cs', c = '\r' ∧ ds = '\n' :: crlf cs' := by
  rcases cs with _ | ⟨d, cs⟩
  · cases h
  by_cases hn : d = '\n'
  · subst hn
    rw [crlf_lineFeed] at h
    obtain ⟨rfl, rfl⟩ := List.cons.inj h
    exact .inr ⟨cs, rfl, rfl⟩
  · rw [crlf_cons hn] at h
    obtain ⟨rfl, rfl⟩ := List.cons.inj h
    exact .inl ⟨cs, rfl, rfl⟩

theorem exists_of_crlf_eq {cs ds : List Char} {c : Char} (hr : c ≠ '\r') (h : crlf cs = c :: ds) :
    ∃ cs', cs = c :: cs' ∧ crlf cs' = ds :=
  (crlf_eq_cons h).resolve_right fun ⟨_, e, _⟩ => hr e

/-- What is left of a text and of the same text with carriage returns. -/
inductive Left : List Char → List Char → Prop
  | same (cs : List Char) : Left cs (crlf cs)
  /-- The carriage return of the next line feed was taken already. -/
  | taken (cs : List Char) : Left ('\n' :: cs) ('\n' :: crlf cs)

/-- A run that takes neither is the same, and so is what follows. -/
theorem run_crlf {p : Char → Bool} (hn : p '\n' = false) (hr : p '\r' = false) (cs : List Char) :
    run p (crlf cs) = ((run p cs).1, crlf (run p cs).2) := by
  induction cs with
  | nil => rfl
  | cons c cs ih =>
    simp only [run, Prod.mk.injEq] at ih
    by_cases hc : c = '\n'
    · subst hc
      simp [crlf_lineFeed, run, hn, hr]
    · by_cases hp : p c = true
      · simp [crlf_cons hc, run, hp, ih]
      · simp [crlf_cons hc, run, hp]

/-- A run that takes carriage returns takes that of the line feed at which it stops. -/
theorem run_left {p : Char → Bool} (hn : p '\n' = false) (hr : p '\r' = true) (cs : List Char) :
    Left (run p cs).2 (run p (crlf cs)).2 ∧
      ∃ end', (run p (crlf cs)).1 = (run p cs).1 ++ end' ∧ ∀ c ∈ end', c = '\r' := by
  induction cs with
  | nil => exact ⟨.same [], [], rfl, by simp⟩
  | cons c cs ih =>
    obtain ⟨hleft, end', htext, hend⟩ := ih
    by_cases hc : c = '\n'
    · subst hc
      rw [crlf_lineFeed]
      simp only [run, hn, hr, List.takeWhile_cons, List.dropWhile_cons, Bool.false_eq_true, if_true, if_false]
      exact ⟨.taken cs, ['\r'], rfl, by simp⟩
    · rw [crlf_cons hc]
      by_cases hp : p c = true
      · simp only [run] at hleft htext
        simp only [run, hp, List.takeWhile_cons, List.dropWhile_cons, if_true]
        exact ⟨hleft, end', congrArg (c :: ·) htext, hend⟩
      · simp only [run, hp, List.takeWhile_cons, List.dropWhile_cons]
        rw [← crlf_cons hc]
        exact ⟨.same _, [], rfl, by simp⟩

theorem Stops.crlf {p : Char → Bool} (hr : p '\r' = false) {cs : List Char} (h : Stops p cs) :
    Stops p (crlf cs) := by
  rcases cs with _ | ⟨c, cs⟩
  · exact h
  by_cases hn : c = '\n'
  · subst hn
    rw [crlf_lineFeed]
    rintro c ⟨⟩
    exact hr
  · rw [crlf_cons hn]
    exact h

/-- A sign, or none where none comes. -/
def IsSign (sign ds : List Char) : Prop :=
  sign = ['+'] ∨ sign = ['-'] ∨ sign = [] ∧ Stops (fun c => c == '+' || c == '-') ds

theorem exists_isSign (cs : List Char) : ∃ sign ds, cs = sign ++ ds ∧ IsSign sign ds := by
  rcases cs with _ | ⟨c, ds⟩
  · exact ⟨[], [], rfl, .inr (.inr ⟨rfl, by simp [Stops]⟩)⟩
  by_cases hplus : c = '+'
  · exact ⟨['+'], ds, hplus ▸ rfl, .inl rfl⟩
  by_cases hminus : c = '-'
  · exact ⟨['-'], ds, hminus ▸ rfl, .inr (.inl rfl)⟩
  · exact ⟨[], c :: ds, rfl, .inr (.inr ⟨rfl, by simp [Stops, hplus, hminus]⟩)⟩

theorem exponent_eq {e : Char} (he : e = 'e' ∨ e = 'E') {sign ds : List Char} (h : IsSign sign ds) :
    exponent (e :: (sign ++ ds)) =
      if (run isDigit ds).1 = [] then ([], e :: (sign ++ ds))
      else (e :: (sign ++ (run isDigit ds).1), (run isDigit ds).2) := by
  cases hrun : run isDigit ds with
  | mk digits rest =>
    rcases h with rfl | rfl | ⟨rfl, hstops⟩
    · cases digits <;> simp [exponent, he, hrun]
    · cases digits <;> simp [exponent, he, hrun]
    · rcases ds with _ | ⟨c, ds⟩
      · cases digits <;> simp [exponent, he, hrun]
      · obtain ⟨hplus, hminus⟩ : c ≠ '+' ∧ c ≠ '-' := by simpa using hstops c rfl
        cases digits <;> simp [exponent, he, hrun, hplus, hminus]

theorem exponent_crlf (cs : List Char) :
    exponent (crlf cs) = ((exponent cs).1, crlf (exponent cs).2) := by
  rcases cs with _ | ⟨e, cs⟩
  · rfl
  by_cases hn : e = '\n'
  · subst hn
    simp [crlf_lineFeed, exponent]
  by_cases he : e = 'e' ∨ e = 'E'
  · obtain ⟨sign, ds, rfl, hsign⟩ := exists_isSign cs
    have happend : crlf (sign ++ ds) = sign ++ crlf ds := by
      rcases hsign with rfl | rfl | ⟨rfl, -⟩ <;> rfl
    have hsign' : IsSign sign (crlf ds) := hsign.imp_right (.imp_right fun h => ⟨h.1, h.2.crlf rfl⟩)
    rw [crlf_cons hn, happend, exponent_eq he hsign', exponent_eq he hsign,
      run_crlf (by decide) (by decide)]
    split
    · rw [crlf_cons hn, happend]
    · rfl
  · simp [exponent, he, crlf_cons hn]

theorem lineBreaks_crlf (acc acc' : List Char) {cs : List Char} (hcr : '\r' ∉ cs) :
    (lineBreaks acc' (crlf cs)).2 = crlf (lineBreaks acc cs).2 := by
  fun_induction lineBreaks acc cs generalizing acc' with
  | case1 acc cs ih =>
    rw [crlf_lineFeed, lineBreaks]
    exact ih _ fun h => hcr (List.mem_cons_of_mem _ h)
  | case2 acc cs ih =>
    rw [crlf_cons (by decide), lineBreaks]
    exact ih _ fun h => hcr (List.mem_cons_of_mem _ h)
  | case3 acc cs ih => exact absurd List.mem_cons_self hcr
  | case4 acc cs hlf hsemi hreturn =>
    cases cs with
    | nil => rfl
    | cons c cs =>
      have hn : c ≠ '\n' := fun e => hlf cs (e ▸ rfl)
      have hs : c ≠ ';' := fun e => hsemi cs (e ▸ rfl)
      have hr : c ≠ '\r' := fun e => hcr (e ▸ List.mem_cons_self)
      rw [crlf_cons hn, lineBreaks]
      all_goals simp_all

/-! ## Pieces -/

/-- Lexemes of this shape are always errors of one kind. -/
def Shape.Fails (shape : Shape) : Prop :=
  ∃ kind, ∀ (names : Interner) (text : List Char), item names shape text = (.error kind, names)

/-- Pieces that come to the same, and what is left behind them. -/
inductive Alike : Piece → Piece → Prop
  | blank {text text' rest rest' : List Char} : Left rest rest' → Alike (.blank text rest) (.blank text' rest')
  | lexeme {shape : Shape} {text text' rest rest' : List Char} :
      (∀ names : Interner, item names shape text = item names shape text') → Left rest rest' →
      Alike (.lexeme shape text rest) (.lexeme shape text' rest')
  | fails {shape : Shape} {text text' rest rest' : List Char} :
      shape.Fails → Alike (.lexeme shape text rest) (.lexeme shape text' rest')
  | stray {text rest rest' : List Char} : Alike (.stray text rest) (.stray text rest')

/-- What comes to the same as a lexeme. -/
theorem Alike.of_lexeme {shape : Shape} {text rest : List Char} {p : Piece}
    (h : Alike (.lexeme shape text rest) p) :
    ∃ text' rest', p = .lexeme shape text' rest' ∧
      ((∀ names : Interner, item names shape text = item names shape text') ∧ Left rest rest' ∨
        shape.Fails) := by
  cases h with
  | lexeme hsame hleft => exact ⟨_, _, rfl, .inl ⟨hsame, hleft⟩⟩
  | fails hfails => exact ⟨_, _, rfl, .inr hfails⟩

/-- The same text, and the same is left but for the line endings. -/
theorem Alike.same (shape : Shape) (text rest : List Char) :
    Alike (.lexeme shape text rest) (.lexeme shape text (crlf rest)) := .lexeme (fun _ => rfl) (.same rest)

theorem scanNumber_alike (first : Char) (cs : List Char) :
    Alike (scanNumber first cs) (scanNumber first (crlf cs)) := by
  unfold scanNumber
  rw [run_crlf (p := isDigitOrSeparator) (by decide) (by decide),
    run_crlf (p := isWordChar) (by decide) (by decide)]
  obtain ⟨whole, after⟩ := run isDigitOrSeparator cs
  dsimp only
  split
  · rename_i d ds
    by_cases hd : d = '\n'
    · subst hd
      exact Alike.same _ _ ('.' :: '\n' :: ds)
    · have hpoint : crlf ('.' :: d :: ds) = '.' :: d :: crlf ds := by
        rw [crlf_cons (by decide), crlf_cons hd]
      split
      · rename_i hdigit
        simp only [hpoint, hdigit, if_true]
        rw [run_crlf (by decide) (by decide), exponent_crlf, run_crlf (by decide) (by decide)]
        exact .same ..
      · rename_i hdigit
        simp only [hpoint, hdigit]
        rw [if_neg Bool.false_ne_true, ← hpoint]
        exact .same ..
  · rename_i hpoint
    split
    · -- no point and digit come up
      rename_i d ds h
      obtain ⟨after, rfl, h⟩ := exists_of_crlf_eq (by decide) h
      rcases after with _ | ⟨d, after⟩
      · cases h
      · exact (hpoint d after rfl).elim
    · exact .same ..

/-- A string ends with the same quote, or in neither text. -/
theorem stringBody_crlf (acc : List Char) {cs : List Char} (hcr : '\r' ∉ cs) :
    (∃ body rest, stringBody acc cs = (body, '\x22' :: rest) ∧
      stringBody acc (crlf cs) = (body, '\x22' :: crlf rest)) ∨
    (∀ rest, (stringBody acc cs).2 ≠ '\x22' :: rest) ∧
      ∀ rest, (stringBody acc (crlf cs)).2 ≠ '\x22' :: rest := by
  fun_induction stringBody acc cs with
  | case1 acc => exact .inr ⟨by simp, by simp [crlf, stringBody]⟩
  | case2 acc => exact .inr ⟨by simp, by simp [crlf, stringBody]⟩
  | case3 acc cs => exact .inr ⟨by simp, by simp [crlf, stringBody, isPlainInString]⟩
  | case4 acc c cs hc ih =>
    rw [crlf_cons (by decide), crlf_cons hc, stringBody, if_neg hc]
    exact ih fun h => hcr (List.mem_cons_of_mem _ (List.mem_cons_of_mem _ h))
  | case5 acc c cs hend hescape hplain ih =>
    have hn : c ≠ '\n' := by rintro rfl; exact absurd hplain (by decide)
    have hslash : c ≠ '\\' := by rintro rfl; exact absurd hplain (by decide)
    have hbody : stringBody acc (c :: crlf cs) = stringBody (c :: acc) (crlf cs) := by
      rw [stringBody, if_pos hplain] <;> simp [hslash]
    rw [crlf_cons hn, hbody]
    exact ih fun h => hcr (List.mem_cons_of_mem _ h)
  | case6 acc c cs hend hescape hplain =>
    have hr : c ≠ '\r' := fun e => hcr (e ▸ List.mem_cons_self)
    have hslash : c ≠ '\\' := by
      rintro rfl
      rcases cs with _ | ⟨c, cs⟩
      · exact hend rfl rfl
      · exact hescape c cs rfl rfl
    by_cases hn : c = '\n'
    · subst hn
      rw [crlf_lineFeed]
      exact .inr ⟨by simp, by simp [stringBody, isPlainInString]⟩
    · obtain rfl : c = '\x22' := by
        simpa [isPlainInString, hr, hslash, hn] using hplain
      exact .inl ⟨acc.reverse, cs, rfl, by simp [crlf_cons hn, stringBody, isPlainInString]⟩

theorem scanString_alike {cs : List Char} (hcr : '\r' ∉ cs) :
    Alike (scanString cs) (scanString (crlf cs)) := by
  unfold scanString
  rcases stringBody_crlf [] hcr with ⟨body, rest, h, h'⟩ | ⟨h, h'⟩
  · rw [h, h']
    exact .same ..
  · split
    · rename_i body rest hbody
      exact (h rest (congrArg Prod.snd hbody)).elim
    · split
      · rename_i body rest hbody
        exact (h' rest (congrArg Prod.snd hbody)).elim
      · exact .fails ⟨.unterminatedString, fun _ _ => rfl⟩

theorem scanCodePoint_alike (cs : List Char) : Alike (scanCodePoint cs) (scanCodePoint (crlf cs)) := by
  unfold scanCodePoint
  rw [run_crlf (by decide) (by decide)]
  obtain ⟨digits, rest⟩ := run isHexDigit cs
  dsimp only
  split
  · exact .same ..
  · rename_i hclose
    split
    · rename_i after h
      obtain ⟨quoted, rfl, hquoted⟩ := exists_of_crlf_eq (by decide) h
      obtain ⟨more, rfl, -⟩ := exists_of_crlf_eq (by decide) hquoted
      exact (hclose more rfl).elim
    · exact .stray

/-- A quote that neither an escape nor another quote follows in time. -/
theorem scanQuote_alone {cs : List Char} (hescape : ∀ ds, cs ≠ '\\' :: ds)
    (hquote : ∀ c ds, cs ≠ c :: '\x27' :: ds) : scanQuote cs = .lexeme .quote ['\x27'] cs := by
  unfold scanQuote
  split
  · exact (hescape _ rfl).elim
  · exact (hescape _ rfl).elim
  · exact (hescape _ rfl).elim
  · exact (hescape _ rfl).elim
  · exact (hquote _ _ rfl).elim
  · rfl

/-- A quote and an escape that no quote follows. -/
theorem scanQuote_open {c : Char} {cs : List Char} (hpoint : ∀ ds, c = 'u' → cs ≠ '\x7b' :: ds)
    (hquote : ∀ ds, cs ≠ '\x27' :: ds) :
    ∃ text rest, scanQuote ('\\' :: c :: cs) = .lexeme .openChar text rest := by
  generalize hall : '\\' :: c :: cs = all
  unfold scanQuote
  split
  · cases hall
    exact (hpoint _ rfl rfl).elim
  · cases hall
    exact (hquote _ rfl).elim
  · split <;> exact ⟨_, _, rfl⟩
  · cases hall
  · rename_i hslash
    exact (hslash (List.cons.inj hall).1.symm).elim
  · rename_i hescape _ _
    exact (hescape _ _ hall.symm).elim

/-- A quote and the quote after the next character, which is no backslash. -/
theorem scanQuote_closed {c : Char} (hslash : c ≠ '\\') (rest : List Char) :
    scanQuote (c :: '\x27' :: rest) =
      if isPlainInChar c then .lexeme .char ['\x27', c, '\x27'] rest
      else .lexeme .quote ['\x27'] (c :: '\x27' :: rest) := by
  generalize hall : c :: '\x27' :: rest = all
  unfold scanQuote
  split
  · exact (hslash (List.cons.inj hall).1).elim
  · exact (hslash (List.cons.inj hall).1).elim
  · exact (hslash (List.cons.inj hall).1).elim
  · exact (hslash (List.cons.inj hall).1).elim
  · cases hall
    rfl
  · rename_i hquote
    exact (hquote _ _ hall.symm).elim

theorem scanQuote_alike {cs : List Char} (hcr : '\r' ∉ cs) :
    Alike (scanQuote cs) (scanQuote (crlf cs)) := by
  have fails : ∀ {text rest : List Char} {p : Piece}, (∃ text rest, p = .lexeme .openChar text rest) →
      Alike (.lexeme .openChar text rest) p := by
    rintro text rest p ⟨text', rest', rfl⟩
    exact .fails ⟨.unterminatedChar, fun _ _ => rfl⟩
  rw [scanQuote.eq_def cs]
  split
  · exact scanCodePoint_alike _
  · rename_i c rest
    split
    · rename_i hn
      subst hn
      exact fails (scanQuote_open (by simp) (by simp))
    · rename_i hn
      have hchar : scanQuote (crlf ('\\' :: c :: '\x27' :: rest)) =
          .lexeme .char ['\x27', '\\', c, '\x27'] (crlf rest) := by
        rw [crlf_cons (by decide), crlf_cons hn, crlf_cons (by decide)]
        simp [scanQuote, hn]
      rw [hchar]
      exact .same ..
  · rename_i c rest hpoint hquote
    have hopen : ∃ text rest', scanQuote (crlf ('\\' :: c :: rest)) = .lexeme .openChar text rest' := by
      by_cases hn : c = '\n'
      · subst hn
        exact scanQuote_open (by simp) (by simp)
      · rw [crlf_cons (by decide), crlf_cons hn]
        refine scanQuote_open (fun ds hu h => ?_) fun ds h => ?_
        · obtain ⟨ds, rfl, -⟩ := exists_of_crlf_eq (by decide) h
          exact hpoint ds hu rfl
        · obtain ⟨ds, rfl, -⟩ := exists_of_crlf_eq (by decide) h
          exact hquote ds rfl
    split <;> exact fails hopen
  · exact fails ⟨_, _, rfl⟩
  · rename_i c rest _ hslash
    by_cases hn : c = '\n'
    · subst hn
      rw [crlf_lineFeed, scanQuote_alone (by simp) (by simp)]
      exact .same _ _ ('\n' :: '\x27' :: rest)
    · have hquoted : crlf (c :: '\x27' :: rest) = c :: '\x27' :: crlf rest := by
        rw [crlf_cons hn, crlf_cons (by decide)]
      rw [hquoted, scanQuote_closed hslash]
      split
      · exact .same ..
      · rw [← hquoted]
        exact .same ..
  · rename_i _ _ hescape hend hquote
    rw [scanQuote_alone]
    · exact .same ..
    · intro ds h
      obtain ⟨ds, rfl, -⟩ := exists_of_crlf_eq (by decide) h
      rcases ds with _ | ⟨c, ds⟩
      · exact hend rfl
      · exact hescape c ds rfl
    · intro c ds h
      rcases crlf_eq_cons h with ⟨after, rfl, hafter⟩ | ⟨_, rfl, hafter⟩
      · obtain ⟨after, rfl, -⟩ := exists_of_crlf_eq (by decide) hafter
        exact hquote c after rfl
      · exact absurd (List.cons.inj hafter).1 (by decide)

theorem scanOperator_alike (first : Char) (cs : List Char) :
    Alike (scanOperator first cs) (scanOperator first (crlf cs)) := by
  unfold scanOperator
  split
  · rename_i cs
    obtain ⟨hleft, end', htext, hend⟩ := run_left (p := (· != '\n')) rfl rfl cs
    rw [crlf_cons (by decide)]
    show Alike _ (.lexeme .comment ('/' :: '/' :: (run (· != '\n') (crlf cs)).1) _)
    rw [htext]
    refine .lexeme (fun names => ?_) hleft
    have htrim := trimEnd_append (p := (· == '\r')) (fun c hc => beq_iff_eq.2 (hend c hc))
      (run (· != '\n') cs).1
    show commentItem names _ = commentItem names _
    unfold commentItem
    simp only [List.drop_succ_cons, List.drop_zero]
    rw [htrim]
    rfl
  · rename_i hslash
    dsimp only
    split
    · rename_i cs' h
      obtain ⟨cs, rfl, -⟩ := exists_of_crlf_eq (by decide) h
      exact (hslash cs rfl rfl).elim
    · rw [run_crlf (by decide) (by decide)]
      exact .same ..

theorem scanSymbol_alike (cs : List Char) : Alike (scanSymbol cs) (scanSymbol (crlf cs)) := by
  unfold scanSymbol
  rw [run_crlf (by decide) (by decide)]
  obtain ⟨_ | ⟨c, text⟩, rest⟩ := run isOperatorChar cs
  · exact .stray
  · exact .same ..

/-- Line breaks come to the same. -/
theorem lineBreaks_alike {cs cs' : List Char} (h : (lineBreaks [] cs').2 = crlf (lineBreaks [] cs).2) :
    Alike (.lexeme .lineBreak (lineBreaks [] cs).1 (lineBreaks [] cs).2)
      (.lexeme .lineBreak (lineBreaks [] cs').1 (lineBreaks [] cs').2) :=
  .lexeme (fun _ => rfl) (h ▸ .same _)

theorem scan_lineBreak {first : Char} {cs : List Char} (h : beginsLineBreak first cs = true) :
    scan first cs = .lexeme .lineBreak (lineBreaks [] (first :: cs)).1 (lineBreaks [] (first :: cs)).2 := by
  rw [scan, if_pos h]

theorem scan_crlf {c : Char} {cs : List Char} (hn : c ≠ '\n') (hcr : '\r' ∉ c :: cs) :
    Alike (scan c cs) (scan c (crlf cs)) := by
  have hr : c ≠ '\r' := fun e => hcr (e ▸ List.mem_cons_self)
  have hcr' : '\r' ∉ cs := fun h => hcr (List.mem_cons_of_mem _ h)
  have hbreak : ∀ ds, beginsLineBreak c ds = (c == ';') := fun ds => by
    rw [beginsLineBreak, beq_false_of_ne hn, beq_false_of_ne hr, Bool.false_and, Bool.or_false,
      Bool.false_or]
  unfold scan
  rw [hbreak, hbreak]
  split
  · rename_i hsemi
    rw [eq_of_beq hsemi]
    exact lineBreaks_alike (by simpa only [lineBreaks] using lineBreaks_crlf _ _ hcr')
  split
  · exact .blank (run_left (by decide) (by decide) cs).1
  split
  · rw [run_crlf (by decide) (by decide)]
    exact .same ..
  split
  · exact scanNumber_alike c cs
  split
  · exact scanOperator_alike c cs
  split
  · exact scanString_alike hcr'
  split
  · exact scanQuote_alike hcr'
  split
  · exact scanSymbol_alike cs
  split
  · exact .same ..
  · exact .stray

/-- The first pieces of a text and of the same text with carriage returns come to the same. -/
theorem scan_alike {c : Char} {cs : List Char} (hcr : '\r' ∉ c :: cs) {c' : Char} {cs' : List Char}
    (hleft : Left (c :: cs) (c' :: cs')) : Alike (scan c cs) (scan c' cs') := by
  have hcr' : '\r' ∉ cs := fun h => hcr (List.mem_cons_of_mem _ h)
  generalize hfirst : c :: cs = left at hleft
  generalize hfirst' : c' :: cs' = right at hleft
  cases hleft with
  | taken ds =>
    obtain ⟨rfl, rfl⟩ := List.cons.inj hfirst
    obtain ⟨rfl, rfl⟩ := List.cons.inj hfirst'
    rw [scan_lineBreak rfl, scan_lineBreak rfl]
    exact lineBreaks_alike (by simpa only [lineBreaks] using lineBreaks_crlf _ _ hcr')
  | same ds =>
    subst hfirst
    by_cases hn : c = '\n'
    · subst hn
      rw [crlf_lineFeed] at hfirst'
      obtain ⟨rfl, rfl⟩ := List.cons.inj hfirst'
      rw [scan_lineBreak rfl, scan_lineBreak rfl]
      exact lineBreaks_alike (by simpa only [lineBreaks] using lineBreaks_crlf _ _ hcr')
    · rw [crlf_cons hn] at hfirst'
      obtain ⟨rfl, rfl⟩ := List.cons.inj hfirst'
      exact scan_crlf hn hcr

/-! ## Runs -/

theorem Left.exists_cons {c : Char} {cs cs' : List Char} (h : Left (c :: cs) cs') :
    ∃ c' ds, cs' = c' :: ds := by
  cases h with
  | taken => exact ⟨_, _, rfl⟩
  | same =>
    rw [crlf]
    split <;> exact ⟨_, _, rfl⟩

theorem not_mem_rest {a c : Char} {cs : List Char} (h : a ∉ c :: cs) : a ∉ (scan c cs).rest := fun ha =>
  h ((scan_cuts c cs).text_append_rest ▸ List.mem_append_right _ ha)

theorem first_of_stray {c c' : Char} {cs cs' text rest rest' : List Char}
    (h : scan c cs = .stray text rest) (h' : scan c' cs' = .stray text rest') : c = c' := by
  have cuts := scan_cuts c cs
  have cuts' := scan_cuts c' cs'
  rw [h] at cuts
  rw [h'] at cuts'
  rcases text with _ | ⟨d, text⟩
  · exact (cuts.text_ne_nil rfl).elim
  · exact (List.cons.inj cuts.text_append_rest).1.symm.trans (List.cons.inj cuts'.text_append_rest).1

namespace Progress

/-- Two runs have found the same kinds of tokens and the same texts of comments. -/
structure Alike (s s' : Progress) : Prop where
  kinds : ∀ more more', s.names.Kept more → s'.names.Kept more' →
    more.Same more' (s.tokens.map Token.kind) (s'.tokens.map Token.kind)
  texts : ∀ more more', s.names.Kept more → s'.names.Kept more' →
    more.Same more' (s.comments.map Comment.text) (s'.comments.map Comment.text)

namespace Alike

variable {s s' : Progress}

theorem grow (h : s.Alike s') {names names' : Interner} (hn : s.names.Kept names)
    (hn' : s'.names.Kept names') : Alike { s with names } { s' with names := names' } :=
  ⟨fun more more' hm hm' => h.kinds more more' (hn.trans hm) (hn'.trans hm'),
    fun more more' hm hm' => h.texts more more' (hn.trans hm) (hn'.trans hm')⟩

theorem add (h : s.Alike s') {i i' : Item} {names names' : Interner} (hn : s.names.Kept names)
    (hn' : s'.names.Kept names')
    (hi : ∀ more more', names.Kept more → names'.Kept more' → more.Same more' i i')
    (text text' : List Char) : (s.add text i names).Alike (s'.add text' i' names') := by
  have grown := h.grow hn hn'
  cases i with
  | token k =>
    cases i' with
    | comment n => cases hi names names' (.refl _) (.refl _) fun _ => .empty
    | token k' =>
      refine ⟨fun more more' hm hm' => ?_, grown.texts⟩
      simp only [Progress.add, Array.map_push]
      exact (grown.kinds more more' hm hm').push fun code => Item.token.inj (hi more more' hm hm' code)
  | comment n =>
    cases i' with
    | token k => cases hi names names' (.refl _) (.refl _) fun _ => .empty
    | comment n' =>
      refine ⟨grown.kinds, fun more more' hm hm' => ?_⟩
      simp only [Progress.add, Array.map_push]
      exact (grown.texts more more' hm hm').push fun code => Item.comment.inj (hi more more' hm hm' code)

end Alike

/-- Runs over what is left find the same kinds and texts, or end in the same kind of error. -/
theorem run_alike {s s' : Progress} (h : s.Alike s') {cs cs' : List Char} (hcr : '\r' ∉ cs)
    (hleft : Left cs cs') :
    (s.run cs).1.map LexError.kind = (s'.run cs').1.map LexError.kind ∧
      (s.run cs).2.Alike (s'.run cs').2 := by
  fun_induction s.run cs generalizing s' cs' with
  | case1 s =>
    cases hleft
    rw [crlf, run_nil]
    exact ⟨rfl, h⟩
  | case2 s c cs _ text rest hscan _ ih =>
    obtain ⟨c', cs', rfl⟩ := hleft.exists_cons
    have alike := scan_alike hcr hleft
    have hrest := not_mem_rest hcr
    rw [hscan] at alike hrest
    cases hscan' : scan c' cs' with
    | blank text' rest' =>
      rw [hscan'] at alike
      cases alike with
      | blank hleft =>
        rw [run_blank hscan']
        refine ih ?_ hrest hleft
        exact ⟨h.kinds, h.texts⟩
    | _ => rw [hscan'] at alike; cases alike
  | case3 s c cs _ shape text rest hscan _ i names hitem ih =>
    obtain ⟨c', cs', rfl⟩ := hleft.exists_cons
    have alike := scan_alike hcr hleft
    have hrest := not_mem_rest hcr
    rw [hscan] at alike hrest
    obtain ⟨text', rest', hscan', ⟨hsame, hleft⟩ | ⟨kind, hkind⟩⟩ := alike.of_lexeme
    · rcases (uniform_of_scan hscan).ends s.names s'.names with
        ⟨kind, more, more', hi, hi', -, -⟩ | ⟨i, i', more, more', hi, hi', kept, kept', same⟩
      · cases hitem.symm.trans hi
      · cases hitem.symm.trans hi
        rw [run_lexeme hscan' ((hsame s'.names).symm.trans hi')]
        exact ih (h.add kept kept' same text text') hrest hleft
    · cases hitem.symm.trans (hkind s.names text)
  | case4 s c cs _ shape text rest hscan _ kind names hitem =>
    obtain ⟨c', cs', rfl⟩ := hleft.exists_cons
    have alike := scan_alike hcr hleft
    rw [hscan] at alike
    obtain ⟨text', rest', hscan', ⟨hsame, hleft⟩ | ⟨kind, hkind⟩⟩ := alike.of_lexeme
    · rcases (uniform_of_scan hscan).ends s.names s'.names with
        ⟨kind, more, more', hi, hi', kept, kept'⟩ | ⟨i, i', more, more', hi, -⟩
      · cases hitem.symm.trans hi
        rw [run_error hscan' ((hsame s'.names).symm.trans hi')]
        exact ⟨rfl, h.grow kept kept'⟩
      · cases hitem.symm.trans hi
    · cases hitem.symm.trans (hkind s.names text)
      rw [run_error hscan' (hkind s'.names text')]
      exact ⟨rfl, h⟩
  | case5 s c cs _ text rest hscan =>
    obtain ⟨c', cs', rfl⟩ := hleft.exists_cons
    have alike := scan_alike hcr hleft
    rw [hscan] at alike
    cases hscan' : scan c' cs' with
    | stray text' rest' =>
      rw [hscan'] at alike
      cases alike
      rw [run_stray hscan', first_of_stray hscan hscan']
      exact ⟨rfl, h⟩
    | _ => rw [hscan'] at alike; cases alike

end Progress

/-! ## Whole sources -/

theorem splitHashBang_eq (rest : List Char) :
    splitHashBang ('#' :: '!' :: rest) =
      ('#' :: '!' :: ((run (· != '\n') rest).1 ++ (run (· != '\n') rest).2.take 1),
        (run (· != '\n') rest).2.drop 1) := by
  have hstops := (isRun_run (· != '\n') rest).stops
  obtain ⟨⟨text, after⟩, h⟩ : ∃ r, run (· != '\n') rest = r := ⟨_, rfl⟩
  rw [h] at hstops
  rcases after with _ | ⟨c, after⟩
  · simp [splitHashBang, h]
  · obtain rfl : c = '\n' := by simpa using hstops c rfl
    simp [splitHashBang, h]

/-- The first line ends with the end of the text or with a line feed, before which the carriage return is
part of the line. -/
theorem splitHashBang_crlf (cs : List Char) :
    Left (splitHashBang cs).2 (splitHashBang (crlf cs)).2 ∧
      ((splitHashBang cs).1 = [] ∧ (splitHashBang (crlf cs)).1 = [] ∨
        ∃ text end' end'' : List Char, (splitHashBang cs).1 = '#' :: '!' :: (text ++ end') ∧
          (splitHashBang (crlf cs)).1 = '#' :: '!' :: (text ++ end'') ∧
          ∀ c ∈ end' ++ end'', (c == '\r' || c == '\n') = true) := by
  by_cases hbang : ∃ rest, cs = '#' :: '!' :: rest
  · obtain ⟨rest, rfl⟩ := hbang
    obtain ⟨hleft, more, htext, hmore⟩ := run_left (p := (· != '\n')) rfl rfl rest
    have hstops := (isRun_run (· != '\n') rest).stops
    have hstops' := (isRun_run (· != '\n') (crlf rest)).stops
    rw [crlf_cons (by decide), crlf_cons (by decide), splitHashBang_eq, splitHashBang_eq, htext]
    generalize (run (· != '\n') rest).1 = text
    generalize hafter : (run (· != '\n') rest).2 = after at hleft hstops ⊢
    generalize hafter' : (run (· != '\n') (crlf rest)).2 = after' at hleft hstops' ⊢
    cases hleft with
    | taken ds =>
      refine ⟨.same ds, .inr ⟨text, ['\n'], more ++ ['\n'], rfl, by simp, ?_⟩⟩
      simpa [or_imp, forall_and] using fun c hc => Or.inl (hmore c hc)
    | same ds =>
      obtain rfl : after = [] := by
        -- it could only begin with a line feed, and a carriage return does not stop the line
        rcases after with _ | ⟨c, after⟩
        · rfl
        · obtain rfl : c = '\n' := by simpa using hstops c rfl
          exact absurd ( hstops' '\r' (by rw [crlf_lineFeed]; rfl)) (by decide)
      refine ⟨.same [], .inr ⟨text, [], more, by simp, by simp [crlf], ?_⟩⟩
      simpa using fun c hc => Or.inl (hmore c hc)
  · have hnone : ∀ rest, cs ≠ '#' :: '!' :: rest := fun rest e => hbang ⟨rest, e⟩
    have hnone' : ∀ rest, crlf cs ≠ '#' :: '!' :: rest := fun rest e => by
      obtain ⟨cs, rfl, h⟩ := exists_of_crlf_eq (by decide) e
      obtain ⟨cs, rfl, -⟩ := exists_of_crlf_eq (by decide) h
      exact hnone cs rfl
    rw [splitHashBang_none hnone, splitHashBang_none hnone']
    exact ⟨.same cs, .inl ⟨rfl, rfl⟩⟩

theorem start_alike (names names' : Interner) (cs : List Char) :
    (start names (splitHashBang cs).1).Alike (start names' (splitHashBang (crlf cs)).1) := by
  have fresh : Progress.Alike ⟨names, .first, #[], #[]⟩ ⟨names', .first, #[], #[]⟩ :=
    ⟨fun _ _ _ _ => .of_fixed fun _ => by rw [Array.map_empty]; exact Array.map_empty,
      fun _ _ _ _ => .of_fixed fun _ => by rw [Array.map_empty]; exact Array.map_empty⟩
  rcases (splitHashBang_crlf cs).2 with ⟨h, h'⟩ | ⟨text, end', end'', h, h', hends⟩
  · rw [h, h']
    exact fresh
  · rw [h, h']
    have htrim := trimEnd_append (fun c hc => hends c (List.mem_append_left _ hc)) text
    have htrim' := trimEnd_append (fun c hc => hends c (List.mem_append_right _ hc)) text
    unfold start
    simp only [List.isEmpty_cons, Bool.false_eq_true, if_false, List.drop_succ_cons, List.drop_zero, htrim,
      htrim']
    refine fresh.add (.intern names _) (.intern names' _) (fun more more' hm hm' code => ?_) _ _
    show Item.token (.hashBang (code _)) = Item.token (.hashBang (code _))
    rw [hm.lookup_intern, hm'.lookup_intern]

theorem position_crlf (cs : List Char) {p p' : Place} (h : p.position = p'.position) :
    (p.advance cs).position = (p'.advance (crlf cs)).position := by
  induction cs generalizing p p' with
  | nil => exact h
  | cons c cs ih =>
    by_cases hn : c = '\n'
    · subst hn
      rw [crlf_lineFeed]
      refine ih ?_
      simp [Place.after, Position.after, h]
    · rw [crlf_cons hn]
      exact ih (congrArg (Position.after · c) h)

theorem byteLength_le_crlf (cs : List Char) : byteLength cs ≤ byteLength (crlf cs) := by
  induction cs with
  | nil => exact Nat.le_refl _
  | cons c cs ih =>
    rw [crlf]
    split
    · rename_i hn
      subst hn
      simp only [byteLength_cons]
      omega
    · simpa only [byteLength_cons] using Nat.add_le_add_left ih _

end Lexing

open Lexing

/-- The source with a carriage return before every line feed. -/
def withCarriageReturns (source : String) : String := String.ofList (crlf source.toList)

/-- Both lex to the same kinds of tokens and the same texts of comments, or both fail in the same way. -/
inductive LexedAlike : Except LexFailure LexOutput × Interner → Except LexFailure LexOutput × Interner → Prop
  | ok {o o' : LexOutput} {names names' : Interner} :
      names.Same names' (o.tokens.tokens.map Token.kind) (o'.tokens.tokens.map Token.kind) →
      names.Same names' (o.comments.map Comment.text) (o'.comments.map Comment.text) →
      LexedAlike (.ok o, names) (.ok o', names')
  | error {e e' : LexError} {names names' : Interner} :
      e.kind = e'.kind → LexedAlike (.error (.error e), names) (.error (.error e'), names')
  /-- A line or column cannot be counted. -/
  | fault {f : Fault} {names names' : Interner} :
      LexedAlike (.error (.fault f), names) (.error (.fault f), names')

theorem outcome_alike {r r' : Option LexError × Progress}
    (he : r.1.map LexError.kind = r'.1.map LexError.kind) (h : r.2.Alike r'.2)
    (hposition : r.1 = none → r'.1 = none → r.2.place.position = r'.2.place.position) :
    LexedAlike (outcome r, r.2.names) (outcome r', r'.2.names) := by
  obtain ⟨_ | e, s⟩ := r <;> obtain ⟨_ | e', s'⟩ := r'
  · unfold outcome
    dsimp only
    have hposition : s.place.position = s'.place.position := hposition rfl rfl
    rw [hposition]
    split
    · refine .ok ?_ ?_
      · rw [Array.map_push, Array.map_push]
        exact (h.kinds _ _ (.refl _) (.refl _)).push fun _ => rfl
      · have htexts := (h.texts _ _ (.refl _) (.refl _)).toList
        rwa [Array.toList_map, Array.toList_map] at htexts
    · exact .fault
  · cases he
  · cases he
  · exact .error (Option.some.inj he)

/-- A source lexes as it does with carriage returns before its line feeds, unless these make it too
large. -/
theorem line_endings {source : String} (hcr : '\r' ∉ source.toList) (names names' : Interner) :
    ((withCarriageReturns source).utf8ByteSize < wordLimit →
      LexedAlike (lexWithComments source names) (lexWithComments (withCarriageReturns source) names')) ∧
    (wordLimit ≤ (withCarriageReturns source).utf8ByteSize →
      (lexWithComments (withCarriageReturns source) names').1 =
        .error (.error ⟨.sourceTooLarge (withCarriageReturns source).utf8ByteSize, .dummy, .first⟩)) := by
  refine ⟨fun hsize => ?_, fun hsize => ?_⟩
  · have hlist : (withCarriageReturns source).toList = crlf source.toList := String.toList_ofList
    have hless : source.utf8ByteSize < wordLimit := by
      refine Nat.lt_of_le_of_lt ?_ hsize
      rw [withCarriageReturns, utf8ByteSize_ofList]
      refine Nat.le_trans (Nat.le_of_eq ?_) (byteLength_le_crlf source.toList)
      rw [← utf8ByteSize_ofList, String.ofList_toList]
    rw [lexWithComments_eq_outcome hless, lexWithComments_eq_outcome hsize, hlist]
    have hbody : '\r' ∉ (splitHashBang source.toList).2 := fun h =>
      hcr (splitHashBang_append source.toList ▸ List.mem_append_right _ h)
    obtain ⟨he, alike⟩ := Progress.run_alike (start_alike names names' source.toList) hbody
      (splitHashBang_crlf source.toList).1
    refine outcome_alike he alike fun hnone hnone' => ?_
    have counts := (lexText_counts names source.toList).1 _ (Prod.ext hnone rfl)
    have counts' := (lexText_counts names' (crlf source.toList)).1 _ (Prod.ext hnone' rfl)
    have hplace := position_crlf source.toList (Eq.refl Place.first.position)
    exact (congrArg Place.position counts.place).trans
      (hplace.trans (congrArg Place.position counts'.place).symm)
  · rw [lexWithComments, if_pos hsize]

/-- A first line, a comment at the end of a line, and blanks before a line break. -/
theorem lines_and_comment_line_endings :
    '\r' ∉ "#! sol\nf = g // h \n\t\n".toList ∧
      (withCarriageReturns "#! sol\nf = g // h \n\t\n").utf8ByteSize < wordLimit ∧
      LexedAlike (lexWithComments "#! sol\nf = g // h \n\t\n" .new)
        (lexWithComments "#! sol\r\nf = g // h \r\n\t\r\n" .new) := by
  have hsource : withCarriageReturns "#! sol\nf = g // h \n\t\n" = "#! sol\r\nf = g // h \r\n\t\r\n" := by
    decide
  have hcr : '\r' ∉ "#! sol\nf = g // h \n\t\n".toList := by decide
  have hsize : (withCarriageReturns "#! sol\nf = g // h \n\t\n").utf8ByteSize < wordLimit := by
    rw [hsource]
    decide
  exact ⟨hcr, hsize, hsource ▸ (line_endings hcr .new .new).1 hsize⟩

end SolSyntax
