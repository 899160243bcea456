import SolSyntax.Proofs.FloatWords

/-!
# Floats shown and lexed again

A float token shows the shortest digits that read back.  Lexed again, its text gives the same float, with two
exceptions, both for want of a point: infinity is shown as a name, and one digit with an exponent is shown
without a point, which the scanner takes for an integer with a wrong suffix.

Principal results: `exists_scan_of_lex` — what a token comes from; `FloatLit.exists_floatWord`,
`FloatLit.point_mem_text_iff` — which literals are shown with a point; `lex_floatText`.
-/

namespace SolSyntax

open Lexing

namespace Lexing

/-! ## What tokens come from -/

/-- A lexeme becomes a token of a kind. -/
def Yields (kind : TokenKind) : Prop :=
  ∃ first cs shape text rest names names', scan first cs = .lexeme shape text rest ∧
    item names shape text = (.ok (.token kind), names')

/-- All tokens so far come from lexemes, the first line apart. -/
def Progress.Lexed (s : Progress) : Prop :=
  ∀ t ∈ s.tokens, (∃ n, t.kind = .hashBang n) ∨ Yields t.kind

theorem Progress.Lexed.add {s : Progress} {i : Item} {text : List Char} {names : Interner} (h : s.Lexed)
    (hi : ∀ k, i = .token k → (∃ n, k = .hashBang n) ∨ Yields k) : (s.add text i names).Lexed := by
  cases i with
  | token kind =>
    intro t ht
    rcases Array.mem_push.1 ht with ht | rfl
    · exact h t ht
    · exact hi kind rfl
  | comment name => exact h

theorem Progress.Lexed.run {s : Progress} (h : s.Lexed) (cs : List Char) : (s.run cs).2.Lexed := by
  fun_induction Progress.run s cs with
  | case1 | case5 => exact h
  | case2 s c cs _ text rest _ _ ih => exact ih h
  | case3 s c cs _ shape text rest hscan _ i names hitem ih =>
    exact ih (h.add fun k hk => .inr ⟨c, cs, shape, text, rest, s.names, names, hscan, hk ▸ hitem⟩)
  | case4 => exact h

theorem start_lexed (names : Interner) (line : List Char) : (start names line).Lexed := by
  have hempty : (Progress.empty names).Lexed := fun t ht => by cases Array.not_mem_empty t ht
  unfold start
  dsimp only
  split
  · exact hempty
  · exact hempty.add fun k hk => .inl ⟨_, (Item.token.inj hk).symm⟩

end Lexing

/-- A token comes from a lexeme, unless it is the first line or the end. -/
theorem exists_scan_of_lex {source : String} {names names' : Interner} {output : LexOutput}
    (h : lexWithComments source names = (.ok output, names')) {t : Token} (ht : t ∈ output.tokens.toList) :
    t.kind = .eof ∨ (∃ n, t.kind = .hashBang n) ∨ Yields t.kind := by
  obtain ⟨s, hrun, -, -, rfl, rfl⟩ := lexWithComments_ok h
  have hlexed := (start_lexed names (splitHashBang source.toList).1).run (splitHashBang source.toList).2
  rw [show (start names (splitHashBang source.toList).1).run (splitHashBang source.toList).2 = _ from hrun]
    at hlexed
  rcases Array.mem_push.1 (Array.mem_def.2 ht) with hmem | rfl
  · exact .inr (hlexed t hmem)
  · exact .inl rfl

/-! ## Literals that are read -/

/-- What a float literal holds if it is read from a text. -/
structure FloatLit.IsRead (l : FloatLit) : Prop where
  bits_le : l.bits.toNat ≤ Decimal.infinityBits
  suffix : ∀ s ∈ l.suffix, s.isFloat = true

theorem isRead_of_readFloat {text : List Char} {l : FloatLit} (h : readFloat text = .ok l) : l.IsRead := by
  rw [readFloat] at h
  dsimp only at h
  split at h
  · cases h
    exact ⟨Decimal.toNat_nearest_le _ _, fun s hs => by cases hs⟩
  · split at h
    · rename_i s hs
      cases h
      refine ⟨Decimal.toNat_nearest_le _ _, ?_⟩
      rintro _ ⟨⟩
      exact (Option.filter_eq_some_iff.1 hs).2
    · cases h

/-- A value is of the kind that the token is. -/
theorem exists_of_plain_map {β : Type} {value : Except LexErrorKind β} {kind : β → TokenKind}
    {k : TokenKind} {names names' : Interner}
    (h : plain names (value.map kind) = (.ok (.token k), names')) : ∃ b, value = .ok b ∧ kind b = k := by
  cases value with
  | error e => cases h
  | ok b =>
    cases h
    exact ⟨b, rfl, rfl⟩

/-- Only a float becomes a float token. -/
theorem isRead_of_yields {l : FloatLit} (h : Yields (.float l)) : l.IsRead := by
  have not_tag {tag : Tag} : TokenKind.ofTag? tag ≠ some (.float l) := by cases tag <;> exact nofun
  obtain ⟨first, cs, shape, text, rest, names, names', hscan, hitem⟩ := h
  unfold item at hitem
  cases shape with
  | comment =>
    dsimp only at hitem
    unfold commentItem at hitem
    split at hitem <;> cases hitem
  | lineBreak | quote | openString | openChar => cases hitem
  | word | operator =>
    dsimp only at hitem
    split at hitem
    · rename_i kind hkind
      cases hitem
      obtain ⟨tag, -, htag⟩ := Option.bind_eq_some_iff.1 hkind
      exact (not_tag htag).elim
    · cases hitem
  | symbol => cases hitem
  | sign kind =>
    cases hitem
    have hsign := sign?_of_scan hscan
    unfold TokenKind.sign? at hsign
    split at hsign <;> cases hsign
  | int radix =>
    obtain ⟨n, -, hn⟩ := exists_of_plain_map hitem
    cases hn
  | float =>
    obtain ⟨l', hread, hl⟩ := exists_of_plain_map hitem
    cases hl
    exact isRead_of_readFloat hread
  | string =>
    dsimp only at hitem
    split at hitem <;> cases hitem
  | char =>
    obtain ⟨c, -, hc⟩ := exists_of_plain_map hitem
    cases hc

/-! ## Texts of values -/

namespace Decimal

theorem floatText_infinity {bits : UInt64} (h : bits.toNat = infinityBits) : floatText bits = "inf" := by
  have hinfinity : infinityBits = 2047 * 2 ^ 52 := rfl
  have hexponent : exponentField bits = 0x7FF := by
    rw [exponentField_eq]
    omega
  have hfraction : fractionField bits = 0 := by
    rw [fractionField_eq]
    omega
  rw [floatText, signBit_eq_false h.le, if_pos hexponent, if_pos hfraction]
  rfl

theorem floatText_finite {bits : UInt64} (hpos : 0 < bits.toNat) (hlt : bits.toNat < infinityBits) :
    floatText bits = finiteText (Dyadic.ofBits bits) := by
  have hinfinity : infinityBits = 2047 * 2 ^ 52 := rfl
  have hexponent := exponentField_eq bits
  have hfraction := fractionField_eq bits
  rw [floatText, signBit_eq_false hlt.le, if_neg (by omega), if_neg (by omega)]
  simp

end Decimal

namespace FloatLit

/-- A finite positive literal is shown as one digit and an exponent. -/
def HasBareExponent (l : FloatLit) : Prop :=
  0 < l.bits.toNat ∧ l.bits.toNat < Decimal.infinityBits ∧ IsBare (Decimal.Dyadic.ofBits l.bits).shortest

/-- The text up to the first sign or point. -/
def leadingWord (l : FloatLit) : List Char := l.text.toList.takeWhile isWordChar

variable {l : FloatLit}

theorem toList_text (l : FloatLit) :
    l.text.toList = (Decimal.floatText l.bits).toList ++ (suffixText l.suffix).toList :=
  String.toList_append

/-- Any other literal is shown as a float of the same value. -/
theorem exists_floatWord (hl : l.IsRead) (hinfinite : l.bits.toNat ≠ Decimal.infinityBits)
    (hbare : ¬l.HasBareExponent) : ∃ whole fraction exp, FloatParts whole fraction exp ∧
      l.text.toList = floatWord whole fraction exp l.suffix ∧
      Decimal.nearest (decimalOf whole fraction exp).digits (decimalOf whole fraction exp).exponent =
        l.bits := by
  rw [toList_text]
  have hlt := lt_of_le_of_ne hl.bits_le hinfinite
  rcases Nat.eq_zero_or_pos l.bits.toNat with hzero | hpos
  · have hbits : l.bits = 0 := UInt64.toNat_inj.1 hzero
    rw [hbits]
    have hdigit : NumberPattern.IsDigits ['0'] :=
      .of_digits (List.cons_ne_nil _ _) (List.forall_mem_singleton.2 (by decide))
    exact ⟨['0'], ['0'], [], ⟨hdigit, hdigit, .inl rfl⟩, rfl, rfl⟩
  · obtain ⟨whole, fraction, exp, htext, hparts, hvalue⟩ := finiteText_pointed fun h => hbare ⟨hpos, hlt, h⟩
    refine ⟨whole, fraction, exp, hparts, ?_, ?_⟩
    · rw [Decimal.floatText_finite hpos hlt, htext, floatWord]
      simp
    · rw [Decimal.Dyadic.nearest_of_value_eq (Decimal.Dyadic.ofBits_encodes hpos hlt) hvalue]
      exact UInt64.ofNat_toNat

theorem point_not_mem_suffixText (s : Option Suffix) : '.' ∉ (suffixText s).toList := fun h =>
  absurd (isWordChar_of_mem_suffix s _ h) (by decide)

theorem point_not_mem_toString (k : ℤ) : '.' ∉ (toString k).toList := by
  cases k with
  | ofNat n =>
    rw [toList_toString_ofNat]
    exact fun h => absurd (isDigit_of_mem_decimal h) (by decide)
  | negSucc n =>
    rw [toList_toString_negSucc, List.mem_cons, not_or]
    exact ⟨by decide, fun h => absurd (isDigit_of_mem_decimal h) (by decide)⟩

/-- Only the two exceptions are shown without a point. -/
theorem point_mem_text_iff (hl : l.IsRead) :
    '.' ∈ l.text.toList ↔ l.bits.toNat ≠ Decimal.infinityBits ∧ ¬l.HasBareExponent := by
  constructor
  · intro hpoint
    rw [toList_text, List.mem_append, or_iff_left (point_not_mem_suffixText _)] at hpoint
    refine ⟨fun hinfinite => ?_, fun ⟨hpos, hlt, hshortest⟩ => ?_⟩
    · rw [Decimal.floatText_infinity hinfinite] at hpoint
      exact absurd hpoint (by decide)
    · have all : ∀ d < 10, '.' ≠ Nat.digitChar d := by decide
      rw [Decimal.floatText_finite hpos hlt, finiteText_bare hshortest, List.mem_cons, List.mem_cons] at hpoint
      rcases hpoint with hdigit | he | hexponent
      · exact all _ hshortest.1 hdigit
      · exact absurd he (by decide)
      · exact point_not_mem_toString _ hexponent
  · rintro ⟨hinfinite, hbare⟩
    obtain ⟨whole, fraction, exp, -, htext, -⟩ := exists_floatWord hl hinfinite hbare
    rw [htext, floatWord]
    exact List.mem_append_right _ List.mem_cons_self

/-! ## Lengths -/

theorem byteLength_le (cs : List Char) : byteLength cs ≤ 4 * cs.length := by
  induction cs with
  | nil => exact Nat.zero_le _
  | cons c cs ih =>
    have := c.utf8Size_le_four
    rw [byteLength_cons, List.length_cons]
    omega

/-- The text is no longer than a source may be. -/
theorem lexable_text (hl : l.IsRead) : Lexable l.text.toList := by
  have hword : wordLimit = 2 ^ 32 := rfl
  have hsuffix : (suffixText l.suffix).toList.length ≤ 4 := by
    rcases l.suffix with _ | s
    · exact Nat.zero_le _
    · cases s <;> decide
  have hvalue : (Decimal.floatText l.bits).toList.length ≤ 2000 := by
    by_cases hinfinite : l.bits.toNat = Decimal.infinityBits
    · rw [Decimal.floatText_infinity hinfinite]
      decide
    have hlt := lt_of_le_of_ne hl.bits_le hinfinite
    rcases Nat.eq_zero_or_pos l.bits.toNat with hzero | hpos
    · have hbits : l.bits = 0 := UInt64.toNat_inj.1 hzero
      rw [hbits]
      decide
    · rw [Decimal.floatText_finite hpos hlt]
      obtain ⟨hdigits, hlow, hhigh⟩ :=
        Decimal.Dyadic.shortest_bounds (Decimal.Dyadic.ofBits_encodes hpos hlt)
      have hlength := length_finiteText_le (Decimal.Dyadic.ofBits l.bits)
      have := (Nat.length_toDigits_le_iff (by norm_num) (by norm_num)).2 hdigits
      omega
  have hbytes := byteLength_le l.text.toList
  rw [toList_text, List.length_append] at hbytes
  have hlength := length_le_byteLength l.text.toList
  refine ⟨?_, Place.fits_of_length_lt ?_⟩
  · rw [toList_text]
    omega
  · rw [toList_text, List.length_append]
    omega

end FloatLit

/-! ## Texts lexed again -/

theorem lexedAs_error {text : List Char} {names names' : Interner} {e : LexError} (h : Lexable text) :
    lexedAs text names (.error e, names') = (.error (.error e), names') := if_neg (Nat.not_le.2 h.1)

theorem lexedAs_ok {text : List Char} {names names' : Interner} {i : Item} (h : Lexable text) :
    lexedAs text names (.ok i, names') = (.ok (outputOf text i), names') := by
  rw [lexedAs, if_neg (Nat.not_le.2 h.1)]
  exact if_pos h.2

/-- A word of digits around a point is lexed to the float that it is read as. -/
theorem lex_floatWord {whole fraction exp : List Char} {l : FloatLit} (h : FloatParts whole fraction exp)
    (hs : ∀ t ∈ l.suffix, t.isFloat = true)
    (hbits : Decimal.nearest (decimalOf whole fraction exp).digits (decimalOf whole fraction exp).exponent =
      l.bits) (hlexable : Lexable (floatWord whole fraction exp l.suffix)) (names : Interner) :
    lexWithComments (String.ofList (floatWord whole fraction exp l.suffix)) names =
      (.ok (outputOf (floatWord whole fraction exp l.suffix) (.token (.float l))), names) := by
  obtain ⟨first, more, hword, hscan⟩ := h.scan_eq l.suffix
  have hread := h.readFloat_eq l.suffix hs
  rw [hbits] at hread
  rw [hword] at hscan hread hlexable ⊢
  rw [lexWithComments_of_scan hscan, item, hread]
  exact lexedAs_ok hlexable

/-- No suffix is like an exponent. -/
theorem ofText?_exponent (cs : List Char) : Suffix.ofText? (String.ofList ('e' :: cs)) = none := by
  refine List.find?_eq_none.2 fun s _ => ?_
  obtain ⟨c, more, htext, hc, -⟩ := exists_suffixText s
  rw [beq_iff_eq]
  intro heq
  rw [heq, String.toList_ofList] at htext
  obtain ⟨rfl, -⟩ := List.cons.inj htext
  rcases hc with hc | hc | hc | ⟨hc, -⟩ <;> exact absurd hc (by decide)

section BareExponent

variable {n : ℕ} (hn : n < 10) (word : List Char)
include hn

/-- Without a point the scanner takes digit and exponent for an integer. -/
theorem scan_bareExponent {more : List Char} (hword : ∀ c ∈ word, isWordChar c = true)
    (hmore : Stops isWordChar more) : scan n.digitChar ('e' :: (word ++ more)) =
      .lexeme (.int .decimal) (n.digitChar :: 'e' :: word) more := by
  have hletters : ∀ c ∈ 'e' :: word, isWordChar c = true := List.forall_mem_cons.2 ⟨by decide, hword⟩
  have hrun := run_of_stops hletters hmore
  have hradix : radixOf n.digitChar ('e' :: word) = .decimal :=
    radixOf_of_head _ (by rintro c ⟨⟩; decide)
  have hnone : run isDigitOrSeparator ('e' :: (word ++ more)) = ([], 'e' :: (word ++ more)) := rfl
  rw [List.cons_append] at hrun
  rw [scan_digit hn, scanNumber, hnone, hrun, ← hradix]
  rfl

/-- The exponent is no suffix of the integer. -/
theorem item_bareExponent (names : Interner) : item names (.int .decimal) (n.digitChar :: 'e' :: word) =
    (.error (.invalidNumber (String.ofList (n.digitChar :: 'e' :: word))), names) := by
  have all : ∀ d < 10, Radix.decimal.isDigit (Nat.digitChar d) = true := by decide
  have hone : ∀ c ∈ [n.digitChar], isDigitOf .decimal c = true :=
    List.forall_mem_singleton.2 (by rw [isDigitOf, all n hn, Bool.or_true])
  have hletter : Stops (isDigitOf .decimal) ('e' :: word) := by
    rintro c ⟨⟩
    decide
  have hread := readInt_marked hone hletter
  rw [if_pos ⟨List.cons_ne_nil _ _, ofText?_exponent word⟩] at hread
  rw [item, show n.digitChar :: 'e' :: word =
    Radix.decimal.marker.toList ++ ([n.digitChar] ++ 'e' :: word) from rfl, hread]
  rfl

/-- A digit and an exponent are an integer with a wrong suffix. -/
theorem lex_bareExponent {more : List Char} (hword : ∀ c ∈ word, isWordChar c = true)
    (hmore : Stops isWordChar more) (hlexable : Lexable (n.digitChar :: 'e' :: (word ++ more)))
    (names : Interner) : lexWithComments (String.ofList (n.digitChar :: 'e' :: (word ++ more))) names =
      (.error (.error ⟨.invalidNumber (String.ofList (n.digitChar :: 'e' :: word)),
        ⟨0, byteLength (n.digitChar :: 'e' :: word)⟩, .first⟩), names) := by
  have all : ∀ d < 10, Nat.digitChar d ≠ '#' := by decide
  have hline : splitHashBang (n.digitChar :: 'e' :: (word ++ more)) =
      ([], n.digitChar :: 'e' :: (word ++ more)) :=
    splitHashBang_none fun rest heq => all n hn (List.cons.inj heq).1
  have hrun := Progress.run_error (s := .empty names) (scan_bareExponent hn word hword hmore)
    (item_bareExponent hn word names)
  rw [Progress.errorAt_empty] at hrun
  rw [lexWithComments_failed (by rw [lexText, hline]; exact hrun), lexedAs_error hlexable]

end BareExponent

/-- A name and nothing else. -/
def identAlone (text : List Char) (names : Interner) : Except LexFailure LexOutput × Interner :=
  (.ok (outputOf text (.token (.ident (names.intern (String.ofList text)).1))),
    (names.intern (String.ofList text)).2)

/-- The text of infinity is a name, whatever the suffix. -/
theorem lex_infinity {s : Option Suffix} (hs : ∀ t ∈ s, t.isFloat = true) (names : Interner) :
    lexWithComments (String.ofList ("inf".toList ++ (suffixText s).toList)) names =
      identAlone ("inf".toList ++ (suffixText s).toList) names := by
  have hcases : s = none ∨ s = some .f32 ∨ s = some .f64 := by
    cases s with
    | none => exact .inl rfl
    | some t =>
      have := hs t rfl
      revert this
      cases t <;> decide
  obtain ⟨more, htext, hscan, hkeyword, hlexable⟩ : ∃ more,
      "inf".toList ++ (suffixText s).toList = 'i' :: more ∧
      scan 'i' more = .lexeme .word ('i' :: more) [] ∧
      TokenKind.keyword? (String.ofList ('i' :: more)) = none ∧ Lexable ('i' :: more) := by
    rcases hcases with rfl | rfl | rfl
    · exact ⟨_, rfl, rfl, by decide, by decide, by decide⟩
    · exact ⟨_, rfl, rfl, by decide, by decide, by decide⟩
    · exact ⟨_, rfl, rfl, by decide, by decide, by decide⟩
  rw [htext, lexWithComments_of_scan hscan, item, hkeyword]
  exact lexedAs_ok hlexable

/-! ## Literals shown and lexed -/

/-- What the text of a float literal is lexed to. -/
structure FloatOutcomes (l : FloatLit) (names : Interner) : Prop where
  /-- The literal again and nothing else, if the text has a point. -/
  readsBack : '.' ∈ l.text.toList →
    lexWithComments l.text names = (.ok (outputOf l.text.toList (.token (.float l))), names)
  /-- It has one exactly if the value is finite and is not shown as one digit and an exponent. -/
  pointed : '.' ∈ l.text.toList ↔ l.bits.toNat ≠ Decimal.infinityBits ∧ ¬l.HasBareExponent
  /-- Infinity is a name. -/
  infinite : l.bits.toNat = Decimal.infinityBits →
    lexWithComments l.text names = identAlone l.text.toList names
  /-- A digit and an exponent are a wrong number, up to the sign of the exponent. -/
  bareExponent : l.HasBareExponent → lexWithComments l.text names =
    (.error (.error ⟨.invalidNumber (String.ofList l.leadingWord), ⟨0, byteLength l.leadingWord⟩, .first⟩),
      names)

namespace FloatLit

variable {l : FloatLit}

theorem lex_text_of_point (hl : l.IsRead) (hpoint : '.' ∈ l.text.toList) (names : Interner) :
    lexWithComments l.text names = (.ok (outputOf l.text.toList (.token (.float l))), names) := by
  obtain ⟨hinfinite, hbare⟩ := (point_mem_text_iff hl).1 hpoint
  obtain ⟨whole, fraction, exp, hparts, htext, hbits⟩ := exists_floatWord hl hinfinite hbare
  have hlexable := lexable_text hl
  rw [htext] at hlexable
  have hlex := lex_floatWord hparts hl.suffix hbits hlexable names
  rwa [← htext, String.ofList_toList] at hlex

theorem lex_text_of_infinity (hl : l.IsRead) (hinfinite : l.bits.toNat = Decimal.infinityBits)
    (names : Interner) : lexWithComments l.text names = identAlone l.text.toList names := by
  have hlex := lex_infinity hl.suffix names
  rwa [← Decimal.floatText_infinity hinfinite, ← toList_text, String.ofList_toList] at hlex

theorem lex_text_of_bareExponent (hl : l.IsRead) (hbare : l.HasBareExponent) (names : Interner) :
    lexWithComments l.text names =
      (.error (.error ⟨.invalidNumber (String.ofList l.leadingWord), ⟨0, byteLength l.leadingWord⟩, .first⟩),
        names) := by
  obtain ⟨hpos, hlt, hshortest⟩ := hbare
  have hdigit : isWordChar (Decimal.Dyadic.ofBits l.bits).shortest.digits.digitChar = true := by
    have all : ∀ d < 10, isWordChar (Nat.digitChar d) = true := by decide
    exact all _ hshortest.1
  -- The exponent and the suffix, cut at the first sign.
  obtain ⟨cs, htext⟩ : ∃ cs, l.text.toList =
      (Decimal.Dyadic.ofBits l.bits).shortest.digits.digitChar :: 'e' :: cs :=
    ⟨_, by rw [toList_text, Decimal.floatText_finite hpos hlt, finiteText_bare hshortest]; rfl⟩
  have hrun := isRun_run isWordChar cs
  have hlexable := lexable_text hl
  rw [htext, ← hrun.append] at hlexable
  have hlex := lex_bareExponent hshortest.1 _ hrun.all hrun.stops hlexable names
  rw [hrun.append, ← htext, String.ofList_toList] at hlex
  rw [hlex, leadingWord, htext, List.takeWhile_cons, if_pos hdigit]
  rfl

end FloatLit

/-- Whatever float is lexed from a source, its text gives it again exactly if it has a point. -/
theorem lex_floatText {source : String} {names names' : Interner} {output : LexOutput}
    (h : lexWithComments source names = (.ok output, names')) {t : Token} (ht : t ∈ output.tokens.toList)
    {l : FloatLit} (hl : t.kind = .float l) (other : Interner) : FloatOutcomes l other := by
  have hread : l.IsRead := by
    rcases exists_scan_of_lex h ht with heof | ⟨n, hline⟩ | hyields
    · cases hl.symm.trans heof
    · cases hl.symm.trans hline
    · exact isRead_of_yields (hl ▸ hyields)
  exact ⟨fun hpoint => FloatLit.lex_text_of_point hread hpoint other, FloatLit.point_mem_text_iff hread,
    fun hinfinite => FloatLit.lex_text_of_infinity hread hinfinite other,
    fun hbare => FloatLit.lex_text_of_bareExponent hread hbare other⟩

/-- A literal with underscores and an exponent is shown without them. -/
theorem lex_floatText_underscored :
    FloatLit.text ⟨0x3FF8000000000000, some .f32⟩ = "1.5f32" ∧
    lexWithComments (FloatLit.text ⟨0x3FF8000000000000, some .f32⟩) .new =
      (.ok ⟨⟨#[⟨.float ⟨0x3FF8000000000000, some .f32⟩, ⟨0, 6⟩, .first⟩,
        ⟨.eof, .point 6, ⟨1, 7⟩⟩]⟩, []⟩, .new) := by
  have hlex : lexWithComments "1_5.0e-1f32" .new = (.ok ⟨⟨#[
      ⟨.float ⟨0x3FF8000000000000, some .f32⟩, ⟨0, 11⟩, .first⟩,
      ⟨.eof, .point 11, ⟨1, 12⟩⟩]⟩, []⟩, .new) := by decide +kernel
  refine ⟨by decide +kernel, ?_⟩
  rw [(lex_floatText hlex List.mem_cons_self rfl .new).readsBack (by decide +kernel)]
  decide +kernel

/-- Ten to the sixteenth is shown as a wrong number, and what is too large to be finite as a name. -/
theorem shown_float_not_lexed :
    (lexWithComments "1.0e16" .new).1 = .ok ⟨⟨#[⟨.float ⟨0x4341C37937E08000, none⟩, ⟨0, 6⟩, .first⟩,
      ⟨.eof, .point 6, ⟨1, 7⟩⟩]⟩, []⟩ ∧
    FloatLit.text ⟨0x4341C37937E08000, none⟩ = "1e16" ∧
    (lexWithComments "1e16" .new).1 = .error (.error ⟨.invalidNumber "1e16", ⟨0, 4⟩, .first⟩) ∧
    (lexWithComments "1.0e999" .new).1 = .ok ⟨⟨#[⟨.float ⟨0x7FF0000000000000, none⟩, ⟨0, 7⟩, .first⟩,
      ⟨.eof, .point 7, ⟨1, 8⟩⟩]⟩, []⟩ ∧
    FloatLit.text ⟨0x7FF0000000000000, none⟩ = "inf" ∧
    (lexWithComments "inf" .new).1 = .ok ⟨⟨#[⟨.ident (Interner.new.intern "inf").1, ⟨0, 3⟩, .first⟩,
      ⟨.eof, .point 3, ⟨1, 4⟩⟩]⟩, []⟩ := by
  refine ⟨?_, ?_, ?_, ?_, ?_, ?_⟩ <;> decide +kernel

end SolSyntax
