import SolSyntax.Proofs.IntegerWords
import SolSyntax.Proofs.Positions

/-!
# Sources that do not lex

Lexing fails at a lexeme that becomes nothing or at a character that begins nothing, at the place that
counting leads to.  If the lexeme is a number, the error quotes it, but without the marker of its base if
its suffix is wrong.  Lines and columns stay in range in every source that is not too long, except at the
end of a source that has the greatest size allowed and consists of line feeds, or of characters of one
byte on one line.

Principal results: `lex_failed` — where and why lexing fails; `lex_quotes_number`; `behind_fits_iff` —
positions that cannot be reported; `lex_positions_fit`.
-/

namespace SolSyntax

open Lexing

/-- A source that does not lex is too long, or fails at a place in it. -/
theorem lex_failed {source : String} {names : Interner} {e : LexError}
    (h : (lex source names).1 = .error (.error e)) :
    wordLimit ≤ source.utf8ByteSize ∧ e.kind = .sourceTooLarge source.utf8ByteSize ∨
      FailsIn source.toList e := by
  rw [lex, lexWithComments_eq, byteLength_toList] at h
  split at h
  · cases h
  rename_i failure names' hfailed
  cases h
  split at hfailed
  · rename_i hlarge
    cases hfailed
    exact .inl ⟨hlarge, rfl⟩
  · split at hfailed
    · rename_i e s hrun
      cases hfailed
      exact .inr (lexText_failsIn hrun)
    · split at hfailed
      · cases hfailed
      · cases hfailed

/-! ## Numbers -/

namespace Lexing

/-- What is wrong with escapes is one of them. -/
theorem exists_of_unescapeInto {acc cs : List Char} {kind : LexErrorKind}
    (h : unescapeInto acc cs = .error kind) : ∃ escape, kind = .invalidEscape escape := by
  fun_induction unescapeInto acc cs with
  | case1 => cases h
  | case2 | case4 =>
    cases h
    exact ⟨_, rfl⟩
  | case3 _ _ _ _ _ _ _ _ _ ih | case5 _ _ _ _ ih | case6 _ _ _ _ _ ih => exact ih h

theorem exists_of_unescapeChar {cs : List Char} {kind : LexErrorKind} (h : unescapeChar cs = .error kind) :
    ∃ escape, kind = .invalidEscape escape := by
  unfold unescapeChar at h
  split at h
  · rename_i e he
    cases h
    exact exists_of_unescapeInto he
  · cases h
  · cases h
    exact ⟨_, rfl⟩

theorem error_of_plain_map {β : Type} {value : Except LexErrorKind β} {wrap : β → TokenKind}
    {names names' : Interner} {kind : LexErrorKind}
    (h : plain names (value.map wrap) = (.error kind, names')) : value = .error kind := by
  cases value with
  | error e =>
    cases h
    rfl
  | ok b => cases h

/-- What a lexeme can fail to become. -/
theorem item_failed {names names' : Interner} {shape : Shape} {text : List Char} {kind : LexErrorKind}
    (h : item names shape text = (.error kind, names')) :
    (∃ radix, shape = .int radix ∧ readInt radix text = .error kind) ∨
      (shape = .float ∧ readFloat text = .error kind) ∨
      kind = .unterminatedString ∨ kind = .unterminatedChar ∨ ∃ escape, kind = .invalidEscape escape := by
  unfold item at h
  cases shape with
  | comment =>
    dsimp only at h
    unfold commentItem at h
    split at h <;> cases h
  | lineBreak | quote | sign | symbol => cases h
  | word | operator =>
    dsimp only at h
    split at h <;> cases h
  | int radix => exact .inl ⟨radix, rfl, error_of_plain_map h⟩
  | float => exact .inr (.inl ⟨rfl, error_of_plain_map h⟩)
  | string =>
    dsimp only at h
    split at h
    · cases h
    · rename_i e he
      cases h
      exact .inr (.inr (.inr (.inr (exists_of_unescapeInto he))))
  | openString =>
    cases h
    exact .inr (.inr (.inl rfl))
  | char => exact .inr (.inr (.inr (.inr (exists_of_unescapeChar (error_of_plain_map h)))))
  | openChar =>
    cases h
    exact .inr (.inr (.inr (.inl rfl)))

/-- A wrong suffix is complained about without the marker, and a value that is too large with it. -/
theorem readInt_failed {radix : Radix} {text : List Char} {kind : LexErrorKind}
    (h : readInt radix text = .error kind) :
    kind = .invalidNumber (String.ofList (text.drop radix.marker.length)) ∨
      kind = .intOverflow (String.ofList text) := by
  unfold readInt at h
  cases hsplit : splitSuffix radix (text.drop radix.marker.length) with
  | error e =>
    rw [hsplit] at h
    cases h
    unfold splitSuffix at hsplit
    dsimp only at hsplit
    split at hsplit
    · cases hsplit
    · split at hsplit
      · cases hsplit
      · cases hsplit
        exact .inl rfl
  | ok parts =>
    rw [hsplit] at h
    dsimp only [bind, Except.bind] at h
    split at h
    · cases h
    · cases h
      exact .inr rfl

theorem readFloat_failed {text : List Char} {kind : LexErrorKind} (h : readFloat text = .error kind) :
    kind = .invalidNumber (String.ofList text) := by
  unfold readFloat at h
  dsimp only at h
  split at h
  · cases h
  · split at h
    · cases h
    · cases h
      rfl

/-- A number is scanned as one. -/
theorem scanNumber_of_scan {first : Char} {cs text rest : List Char} {shape : Shape}
    (h : scan first cs = .lexeme shape text rest) (hshape : shape = .float ∨ ∃ radix, shape = .int radix) :
    scanNumber first cs = .lexeme shape text rest := by
  unfold scan at h
  split at h
  · grind
  split at h
  · cases h
  split at h
  · grind
  split at h
  · exact h
  unfold scanOperator scanString scanQuote scanCodePoint scanSymbol at h
  grind

/-- The base of a number is told by its first characters. -/
theorem radixOf_of_scanNumber {first : Char} {cs text rest : List Char} {shape : Shape}
    (h : scanNumber first cs = .lexeme shape text rest) : ∃ more, text = first :: more ∧
      (shape = .int (radixOf first more) ∨ shape = .float ∧ radixOf first more = .decimal) := by
  unfold scanNumber at h
  have hwhole := isRun_run isDigitOrSeparator cs
  generalize run isDigitOrSeparator cs = taken at h hwhole
  obtain ⟨whole, after⟩ := taken
  dsimp only at h hwhole
  split at h
  · split at h
    · cases h
      refine ⟨_, rfl, .inr ⟨rfl, radixOf_of_head first fun c hc hmarker => ?_⟩⟩
      cases whole with
      | nil =>
        cases hc
        exact absurd hmarker (by decide)
      | cons d ds =>
        cases hc
        have all : ∀ c ∈ ['x', 'o', 'b'], (!isDigitOrSeparator c) = true := List.all_eq_true.1 rfl
        have hother := all c hmarker
        rw [hwhole.all c List.mem_cons_self] at hother
        cases hother
    · cases h
      exact ⟨whole, rfl, .inl (by rw [radixOf_digits first hwhole.all])⟩
  · cases h
    exact ⟨_, rfl, .inl rfl⟩

end Lexing

/-- What an error quotes of a number: all of one that is too large, and of a wrong one what is behind
the marker of its base. -/
theorem Lexing.Fails.quotes {text : List Char} {kind : LexErrorKind} (h : Fails text kind) :
    kind = .intOverflow (String.ofList text) ∨
    (∃ radix, HasBase text radix ∧
      kind = .invalidNumber (String.ofList (text.drop radix.marker.length))) ∨
    ∀ quoted, kind ≠ .intOverflow quoted ∧ kind ≠ .invalidNumber quoted := by
  obtain ⟨first, cs, shape, rest, names, names', hscan, hitem⟩ | ⟨c, rfl⟩ := h
  · rcases item_failed hitem with ⟨radix, rfl, hread⟩ | ⟨rfl, hread⟩ | rfl | rfl | ⟨escape, rfl⟩
    · obtain ⟨more, rfl, hshape⟩ := radixOf_of_scanNumber (scanNumber_of_scan hscan (.inr ⟨radix, rfl⟩))
      obtain rfl : radix = radixOf first more := by
        rcases hshape with hshape | ⟨hshape, -⟩ <;> cases hshape
        rfl
      rcases readInt_failed hread with hkind | hkind
      · exact .inr (.inl ⟨_, hasBase_radixOf first more, hkind⟩)
      · exact .inl hkind
    · obtain ⟨more, rfl, hshape⟩ := radixOf_of_scanNumber (scanNumber_of_scan hscan (.inl rfl))
      have hdecimal : radixOf first more = .decimal := by
        rcases hshape with hshape | ⟨-, hdecimal⟩
        · cases hshape
        · exact hdecimal
      have hbase := hasBase_radixOf first more
      rw [hdecimal] at hbase
      exact .inr (.inl ⟨.decimal, hbase, readFloat_failed hread⟩)
    all_goals exact .inr (.inr fun quoted => ⟨by rintro ⟨⟩, by rintro ⟨⟩⟩)
  · exact .inr (.inr fun quoted => ⟨by rintro ⟨⟩, by rintro ⟨⟩⟩)

/-- The text under the span of an error is what fails. -/
theorem Lexing.FailsIn.exists_slice {source : List Char} {e : LexError} (h : FailsIn source e) :
    ∃ text, sliceBytes e.span.start e.span.stop source = some text ∧ Fails text e.kind := by
  obtain ⟨before, text, after, hsource, -, hspan, -, hfails⟩ := h
  exact ⟨text, sliceBytes_eq_some.2 ⟨before, after, hsource, by rw [hspan], by rw [hspan]⟩, hfails⟩

/-- An integer that is too large is quoted as it stands under the span of the error, and so is a wrong
number, except that the marker of its base is left out. -/
theorem lex_quotes_number {source : String} {names : Interner} {e : LexError}
    (h : (lex source names).1 = .error (.error e)) :
    (∀ quoted, e.kind = .intOverflow quoted →
      sliceBytes e.span.start e.span.stop source.toList = some quoted.toList) ∧
    ∀ quoted, e.kind = .invalidNumber quoted → ∃ literal radix,
      sliceBytes e.span.start e.span.stop source.toList = some literal ∧ HasBase literal radix ∧
      literal = radix.marker.toList ++ quoted.toList := by
  rcases lex_failed h with ⟨-, hlarge⟩ | hfails
  · rw [hlarge]
    exact ⟨fun quoted hkind => (by cases hkind), fun quoted hkind => (by cases hkind)⟩
  obtain ⟨text, hslice, hfails⟩ := hfails.exists_slice
  rcases hfails.quotes with hlarge | ⟨radix, hbase, hwrong⟩ | hother
  · refine ⟨fun quoted hkind => ?_, fun quoted hkind => ?_⟩
    · cases hlarge.symm.trans hkind
      rw [hslice, String.toList_ofList]
    · cases hlarge.symm.trans hkind
  · refine ⟨fun quoted hkind => ?_, fun quoted hkind => ⟨text, radix, hslice, hbase, ?_⟩⟩
    · cases hwrong.symm.trans hkind
    · cases hwrong.symm.trans hkind
      rw [String.toList_ofList]
      exact hbase.eq_append_drop
  · exact ⟨fun quoted hkind => ((hother quoted).1 hkind).elim,
      fun quoted hkind => ((hother quoted).2 hkind).elim⟩

/-- Behind a string with a character of two bytes, a number with a wrong suffix and no marker. -/
theorem wrong_suffix_quoted :
    (lex "\"λ\" 1_2ab" .new).1 = .error (.error ⟨.invalidNumber "1_2ab", ⟨5, 10⟩, ⟨1, 5⟩⟩) ∧
    ∃ literal radix, sliceBytes 5 10 "\"λ\" 1_2ab".toList = some literal ∧ HasBase literal radix ∧
      literal = radix.marker.toList ++ "1_2ab".toList := by
  have hlex : (lex "\"λ\" 1_2ab" .new).1 =
      .error (.error ⟨.invalidNumber "1_2ab", ⟨5, 10⟩, ⟨1, 5⟩⟩) := by decide +kernel
  exact ⟨hlex, (lex_quotes_number hlex).2 "1_2ab" rfl⟩

/-- With a marker the error covers more than it quotes. -/
theorem marker_not_quoted :
    (lex "0xffz" .new).1 = .error (.error ⟨.invalidNumber "ffz", ⟨0, 5⟩, .first⟩) ∧
    sliceBytes 0 5 "0xffz".toList = some "0xffz".toList ∧ "0xffz".toList ≠ "ffz".toList := by
  refine ⟨?_, ?_, ?_⟩ <;> decide +kernel

/-! ## Lines and columns in range -/

/-- A text of the greatest length that a source can have, in one line or of nothing but line feeds. -/
def Overfull (cs : List Char) : Prop :=
  cs.length + 1 = wordLimit ∧ ('\n' ∉ cs ∨ ∀ c ∈ cs, c = '\n')

/-- The position behind a text that is not too long can be reported unless the text is overfull. -/
theorem behind_fits_iff {cs : List Char} (h : byteLength cs < wordLimit) :
    (Position.behind cs).fits = true ↔ ¬Overfull cs := by
  have hlength := length_le_byteLength cs
  have hcount : cs.count '\n' ≤ cs.length := List.count_le_length
  obtain ⟨head, hcs, hlast, -⟩ := exists_append_lastLine cs
  have hline : cs.length = head.length + (lastLine cs).length := by
    rw [← List.length_append, ← hcs]
  have hfits : (Position.behind cs).fits = true ↔
      cs.count '\n' + 1 < wordLimit ∧ (lastLine cs).length + 1 < wordLimit := decide_eq_true_iff
  rw [hfits]
  constructor
  · rintro ⟨hlines, hcolumns⟩ ⟨hfull, hone | hfeeds⟩
    · have hwhole : lastLine ([] ++ cs) = cs := lastLine_append hone
      rw [List.nil_append] at hwhole
      rw [hwhole] at hcolumns
      omega
    · have hall : cs.count '\n' = cs.length := List.count_eq_length.2 fun c hc => (hfeeds c hc).symm
      omega
  · intro hroom
    constructor
    · refine Nat.lt_of_not_le fun hfull => hroom ⟨by omega, .inr fun c hc => ?_⟩
      have hall : cs.count '\n' = cs.length := by omega
      exact (List.count_eq_length.1 hall c hc).symm
    · refine Nat.lt_of_not_le fun hfull => hroom ⟨by omega, .inl ?_⟩
      have hhead : head = [] := List.length_eq_zero_iff.1 (by omega)
      rwa [hcs, hhead, List.nil_append]

/-- Wherever a text that is not too long is cut, the position is in range, except behind an overfull text. -/
theorem behind_fits_of_append {before after : List Char} (h : byteLength (before ++ after) < wordLimit)
    (hmore : after ≠ [] ∨ ¬Overfull (before ++ after)) : (Position.behind before).fits = true := by
  cases after with
  | nil =>
    rw [List.append_nil] at h hmore
    exact (behind_fits_iff h).2 (hmore.resolve_left fun hne => hne rfl)
  | cons c after =>
    -- what stands in front is shorter than the text
    rw [byteLength_append, byteLength_cons] at h
    have hlength := length_le_byteLength before
    have := Char.utf8Size_pos c
    rw [← Place.position_advance]
    exact Place.fits_of_length_lt (by omega)

/-- A source that lexes can be counted to its end, and one with a fault cannot. -/
theorem lex_counted_to_end {source : String} {names : Interner} :
    (∀ tokens, (lex source names).1 = .ok tokens → (Position.behind source.toList).fits = true) ∧
    ∀ fault, (lex source names).1 = .error (.fault fault) →
      fault = .wordOverflow ∧ ¬(Position.behind source.toList).fits = true := by
  rw [lex, lexWithComments_eq]
  by_cases hsize : wordLimit ≤ byteLength source.toList
  · rw [if_pos hsize]
    exact ⟨fun tokens h => (by cases h), fun fault h => (by cases h)⟩
  rw [if_neg hsize]
  rcases hlex : lexText names source.toList with ⟨_ | e, s⟩
  · have hposition : s.place.position = .behind source.toList := by
      rw [((lexText_counts names source.toList).1 s hlex).place, Place.position_advance]
    by_cases hfits : s.place.position.fits = true
    · dsimp only
      rw [if_pos hfits]
      exact ⟨fun tokens h => hposition ▸ hfits, fun fault h => (by cases h)⟩
    · dsimp only
      rw [if_neg hfits]
      refine ⟨fun tokens h => (by cases h), fun fault h => ?_⟩
      cases h
      exact ⟨rfl, hposition ▸ hfits⟩
  · exact ⟨fun tokens h => (by cases h), fun fault h => (by cases h)⟩

/-- In a source that is not too long the lines and columns that are counted character by character are
exact and in range, and so are those of every token and of an error; only the end of an overfull source
cannot be counted. -/
theorem lex_positions_fit {source : String} (names : Interner) (h : source.utf8ByteSize < wordLimit) :
    (∀ before after, source.toList = before ++ after → after ≠ [] ∨ ¬Overfull source.toList →
      (Place.first.advance before).position = .behind before ∧ (Position.behind before).fits = true) ∧
    (∀ tokens, (lex source names).1 = .ok tokens → ¬Overfull source.toList ∧ ∀ t ∈ tokens.toList,
      CountedAt source.toList t.span t.position ∧ t.position.fits = true) ∧
    (∀ e, (lex source names).1 = .error (.error e) →
      CountedAt source.toList e.span e.position ∧ e.position.fits = true) ∧
    ∀ fault, (lex source names).1 = .error (.fault fault) →
      fault = .wordOverflow ∧ Overfull source.toList := by
  have hsize : byteLength source.toList < wordLimit := byteLength_toList source ▸ h
  have hend := behind_fits_iff hsize
  have fits : ∀ before after, source.toList = before ++ after → after ≠ [] ∨ ¬Overfull source.toList →
      (Position.behind before).fits = true := by
    intro before after hsource hmore
    rw [hsource] at hsize hmore
    exact behind_fits_of_append hsize hmore
  refine ⟨fun before after hsource hmore => ⟨Place.position_advance before, fits before after hsource hmore⟩,
    fun tokens htokens => ?_, fun e herror => ?_, fun fault hfault => ?_⟩
  · have hroom : ¬Overfull source.toList := hend.1 (lex_counted_to_end.1 tokens htokens)
    refine ⟨hroom, fun t ht => ?_⟩
    have hpair : lex source names = (.ok tokens, (lex source names).2) := Prod.ext htokens rfl
    have hcounted := (lex_counted hpair).2 t ht
    refine ⟨hcounted, ?_⟩
    obtain ⟨before, after, hsource, -, hposition⟩ := hcounted
    exact hposition ▸ fits before after hsource (.inr hroom)
  · have hfails := (lex_failed herror).resolve_left fun hlarge => Nat.not_le.2 h hlarge.1
    refine ⟨hfails.counted, ?_⟩
    obtain ⟨before, text, after, hsource, hne, -, hposition, -⟩ := hfails
    rw [hposition]
    exact fits before (text ++ after) hsource (.inl fun hnil => hne (List.append_eq_nil_iff.1 hnil).1)
  · obtain ⟨hword, hover⟩ := lex_counted_to_end.2 fault hfault
    exact ⟨hword, Classical.not_not.1 fun hroom => hover (hend.2 hroom)⟩

/-- Two line feeds before an error; and a carriage return and a character of two bytes before a token. -/
theorem behind_feeds_fit :
    (lex "a\n\nλ" .new).1 = .error (.error ⟨.unexpectedChar 'λ', ⟨3, 5⟩, ⟨3, 1⟩⟩) ∧
    CountedAt "a\n\nλ".toList ⟨3, 5⟩ ⟨3, 1⟩ ∧ Position.fits ⟨3, 1⟩ = true ∧
    ∃ tokens, (lex "'λ'\r\nb" .new).1 = .ok tokens ∧ ∀ t ∈ tokens.toList,
      CountedAt "'λ'\r\nb".toList t.span t.position ∧ t.position.fits = true := by
  have fails : (lex "a\n\nλ" .new).1 = .error (.error ⟨.unexpectedChar 'λ', ⟨3, 5⟩, ⟨3, 1⟩⟩) := by
    decide +kernel
  obtain ⟨hcounted, hfits⟩ := (lex_positions_fit .new (by decide +kernel)).2.2.1 _ fails
  refine ⟨fails, hcounted, hfits, ?_⟩
  have succeeds : (lex "'λ'\r\nb" .new).1.isOk = true := by decide +kernel
  cases hlex : (lex "'λ'\r\nb" .new).1 with
  | error failure => rw [hlex] at succeeds; cases succeeds
  | ok tokens => exact ⟨tokens, rfl, ((lex_positions_fit .new (by decide +kernel)).2.1 tokens hlex).2⟩

/-- Blanks become nothing. -/
theorem Lexing.lexText_blanks (names : Interner) {cs : List Char} (h : ∀ c ∈ cs, isBlank c = true) :
    lexText names cs = (none, { Progress.empty names with place := Place.first.advance cs }) := by
  cases cs with
  | nil =>
    rw [lexText, show (splitHashBang []) = ([], []) from rfl]
    exact Progress.run_nil _
  | cons c cs =>
    obtain ⟨hc, hcs⟩ := List.forall_mem_cons.1 h
    have hbreak : beginsLineBreak c cs = false := by
      rw [Bool.eq_false_iff]
      intro hbreak
      simp only [beginsLineBreak, Bool.or_eq_true, beq_iff_eq, Bool.and_eq_true] at hbreak
      rcases hbreak with (rfl | rfl) | ⟨rfl, hfeed⟩
      · cases hc
      · cases hc
      · cases hcs '\n' (List.mem_of_mem_head? hfeed)
    have hscan : scan c cs = .blank (c :: cs) [] := by
      have hrun := run_of_stops hcs (v := []) fun d hd => by cases hd
      rw [List.append_nil] at hrun
      rw [scan, hbreak, hc, hrun]
      rfl
    have hline : splitHashBang (c :: cs) = ([], c :: cs) := splitHashBang_none fun rest hhash => by
      obtain ⟨rfl, -⟩ := List.cons.inj hhash
      cases hc
    rw [lexText, hline]
    exact (Progress.run_blank hscan).trans (Progress.run_nil _)

/-- As many spaces as a source can have lead to a column that is out of range. -/
theorem lex_spaces {n : Nat} (h : n + 1 = wordLimit) (names : Interner) :
    (lex (String.ofList (List.replicate n ' ')) names).1 = .error (.fault .wordOverflow) := by
  have hsize : byteLength (List.replicate n ' ') = n := byteLength_replicate n rfl
  have hblank : ∀ c ∈ List.replicate n ' ', isBlank c = true := fun c hc => by
    rw [List.eq_of_mem_replicate hc]
    rfl
  have hover : Overfull (List.replicate n ' ') :=
    ⟨by rw [List.length_replicate, h], .inl fun hfeed => by cases List.eq_of_mem_replicate hfeed⟩
  have hfits : ¬(Place.first.advance (List.replicate n ' ')).position.fits = true := by
    rw [Place.position_advance, behind_fits_iff (by omega)]
    exact not_not_intro hover
  rw [lex, lexWithComments_eq, String.toList_ofList, hsize, if_neg (by omega), lexText_blanks names hblank]
  dsimp only
  rw [if_neg hfits]

/-- The largest source of spaces is not too long, and yet its end cannot be counted. -/
theorem largest_line_of_spaces :
    (String.ofList (List.replicate (wordLimit - 1) ' ')).utf8ByteSize < wordLimit ∧
    (lex (String.ofList (List.replicate (wordLimit - 1) ' ')) .new).1 = .error (.fault .wordOverflow) := by
  have hlimit : wordLimit - 1 + 1 = wordLimit := by decide
  refine ⟨?_, lex_spaces hlimit .new⟩
  rw [utf8ByteSize_ofList, byteLength_replicate _ rfl]
  exact Nat.lt_of_succ_le (Nat.le_of_eq hlimit)

end SolSyntax
