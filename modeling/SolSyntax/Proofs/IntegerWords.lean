import Mathlib.Data.List.Induction
import Mathlib.Data.Nat.Digits.Defs
import SolSyntax.Proofs.LiteralText
import SolSyntax.Proofs.Tiling

/-!
# Words that begin with a digit

A word of digits, letters and underscores that begins with a digit is one number or one error, and
never a number and a name.  A marker tells the base if a digit of it follows; the longest run of digits
and underscores behind the marker has a value, and the rest of the word is the suffix.

Principal results: `scanNumber_pattern` — of the patterns that match the word, the scanner takes the one
of highest priority; `IntegerWord.exists_parts`, `IntegerWord.readInt_eq`; `lex_integerWord`.
-/

namespace SolSyntax

open Lexing

/-- The value of the digits in a text by their places. -/
def Radix.positional (r : Radix) (cs : List Char) : Nat :=
  Nat.ofDigits r.value (cs.filterMap r.digit?).reverse

theorem Radix.valueOf_eq_positional (r : Radix) (cs : List Char) : r.valueOf cs = r.positional cs := by
  induction cs using List.reverseRecOn with
  | nil => rfl
  | append_singleton cs c ih =>
    rw [valueOf, List.foldl_append, ← valueOf, ih, positional, positional, List.filterMap_append,
      List.reverse_append]
    cases hd : r.digit? c with
    | none => simp [hd]
    | some d => simp [hd, Nat.ofDigits_cons, Nat.mul_comm, Nat.add_comm]

/-! ## Bases -/

/-- A word begins with the marker of a base and a digit of it. -/
def BeginsWith (word : List Char) (radix : Radix) : Prop :=
  ∃ d more, word = radix.marker.toList ++ d :: more ∧ radix.isDigit d = true

theorem decimal_or_beginsWith (first : Char) (more : List Char) :
    radixOf first more = .decimal ∨ BeginsWith (first :: more) (radixOf first more) := by
  fun_cases radixOf first more
  case case1 hfirst d more hd | case3 hfirst d more hd | case5 hfirst d more hd =>
    subst hfirst
    exact .inr ⟨d, more, rfl, hd⟩
  all_goals exact .inl rfl

/-- The scanner finds every marker that counts. -/
theorem BeginsWith.radixOf_eq {first : Char} {more : List Char} {radix : Radix}
    (h : BeginsWith (first :: more) radix) (hradix : radix ≠ .decimal) : radixOf first more = radix := by
  obtain ⟨m, hmarker, -, hscan⟩ := exists_marker hradix
  obtain ⟨d, rest, hword, hd⟩ := h
  rw [hmarker] at hword
  obtain ⟨rfl, rfl⟩ := List.cons.inj hword
  exact hscan d rest hd

/-- A number is written in a base: the marker tells it, and without a marker it is ten. -/
structure HasBase (literal : List Char) (radix : Radix) : Prop where
  marked : radix ≠ .decimal → BeginsWith literal radix
  unmarked : radix = .decimal → ∀ r, r ≠ .decimal → ¬BeginsWith literal r

theorem hasBase_radixOf (first : Char) (more : List Char) :
    HasBase (first :: more) (radixOf first more) where
  marked := (decimal_or_beginsWith first more).resolve_left
  unmarked := fun hdecimal _ hr hbegins => hr (hbegins.radixOf_eq hr ▸ hdecimal)

/-- The text is the marker of the base and what is behind it. -/
theorem HasBase.eq_append_drop {literal : List Char} {radix : Radix} (h : HasBase literal radix) :
    literal = radix.marker.toList ++ literal.drop radix.marker.length := by
  by_cases hradix : radix = .decimal
  · rw [hradix]
    rfl
  · obtain ⟨d, more, hliteral, -⟩ := h.marked hradix
    rw [hliteral, List.drop_left' String.length_toList]

/-! ## Patterns -/

/-- The patterns of numbers. -/
inductive NumberPattern where
  | marked (radix : Radix)
  | decimal
  | float

namespace NumberPattern

/-- Between patterns that match equally much. -/
def priority : NumberPattern → Nat
  | marked _ => 5
  | decimal | float => 2

def shape : NumberPattern → Shape
  | marked radix => .int radix
  | decimal => .int .decimal
  | float => .float

/-- Nothing, or a name of letters, digits and underscores. -/
def IsTail (cs : List Char) : Prop :=
  (∀ c ∈ cs.head?, isNameStart c = true) ∧ ∀ c ∈ cs, isWordChar c = true

/-- Nothing, or an exponent. -/
def IsExponent (cs : List Char) : Prop :=
  cs = [] ∨ ∃ e sign digits, cs = e :: (sign ++ digits) ∧ (e = 'e' ∨ e = 'E') ∧
    sign ∈ [[], ['+'], ['-']] ∧ digits ≠ [] ∧ ∀ d ∈ digits, isDigit d = true

/-- Digits and separators, a digit first. -/
def IsDigits (cs : List Char) : Prop :=
  ∃ d ds, cs = d :: ds ∧ isDigit d = true ∧ ∀ c ∈ ds, isDigitOrSeparator c = true

/-- Whether a pattern matches a whole text. -/
inductive Matches : NumberPattern → List Char → Prop
  | marked {radix d more} : radix ≠ .decimal → radix.isDigit d = true →
      (∀ c ∈ more, isWordChar c = true) → Matches (.marked radix) (radix.marker.toList ++ d :: more)
  | decimal {digits tail} : IsDigits digits → IsTail tail → Matches .decimal (digits ++ tail)
  | float {whole fraction exp tail} : IsDigits whole → IsDigits fraction → IsExponent exp → IsTail tail →
      Matches .float (whole ++ '.' :: (fraction ++ (exp ++ tail)))

end NumberPattern

section Words

variable {first : Char} {more : List Char} (hfirst : isDigit first = true)
  (hmore : ∀ c ∈ more, isWordChar c = true)
include hfirst

/-- What begins with a digit is a number. -/
theorem scan_eq_scanNumber (cs : List Char) : scan first cs = scanNumber first cs := by
  obtain ⟨d, hd, rfl⟩ := exists_digitChar hfirst
  exact scan_digit hd cs

include hmore

theorem isWordChar_word : ∀ c ∈ first :: more, isWordChar c = true := by
  refine List.forall_mem_cons.2 ⟨?_, hmore⟩
  rw [isWordChar, hfirst, Bool.or_true]

/-- The pattern of plain digits and a tail matches every word that begins with a digit. -/
theorem NumberPattern.decimal_matches : Matches .decimal (first :: more) := by
  obtain ⟨digits, tail, hrun⟩ : ∃ digits tail, IsRun isDigitOrSeparator more digits tail :=
    ⟨_, _, isRun_run _ _⟩
  have htail : ∀ c ∈ tail, isWordChar c = true := fun c hc =>
    hmore c (hrun.append ▸ List.mem_append_right digits hc)
  have hstart : ∀ c ∈ tail.head?, isNameStart c = true := fun c hc => by
    have hword := htail c (List.mem_of_mem_head? hc)
    have hstop := hrun.stops c hc
    rw [isDigitOrSeparator, Bool.or_eq_false_iff] at hstop
    rwa [isWordChar, hstop.1, Bool.or_false] at hword
  have hdigits : IsDigits (first :: digits) := ⟨first, digits, rfl, hfirst, hrun.all⟩
  rw [← hrun.append]
  exact .decimal hdigits ⟨hstart, htail⟩

/-- A point is no character of a word. -/
theorem NumberPattern.not_float_matches : ¬Matches .float (first :: more) := by
  intro h
  generalize hw : first :: more = w at h
  cases h with
  | float =>
    have := isWordChar_word hfirst hmore '.' (hw ▸ by simp)
    cases this

/-- The pattern of a base other than ten matches just the words that begin with its marker and a digit. -/
theorem NumberPattern.marked_matches_iff {radix : Radix} :
    Matches (.marked radix) (first :: more) ↔ radix ≠ .decimal ∧ BeginsWith (first :: more) radix := by
  constructor
  · intro h
    generalize hw : first :: more = w at h
    cases h with
    | @marked _ d rest hradix hd => exact ⟨hradix, d, rest, rfl, hd⟩
  · rintro ⟨hradix, d, rest, hword, hd⟩
    have hrest : ∀ c ∈ rest, isWordChar c = true := fun c hc =>
      isWordChar_word hfirst hmore c (hword ▸ by simp [hc])
    rw [hword]
    exact .marked hradix hd hrest

/-- Of the patterns that match a word, the scanner takes the one of highest priority. -/
theorem scanNumber_pattern : ∃ p : NumberPattern, p.Matches (first :: more) ∧
    scan first more = .lexeme p.shape (first :: more) [] ∧
    ∀ q : NumberPattern, q.Matches (first :: more) → q = p ∨ q.priority < p.priority := by
  have hscan : scan first more = .lexeme (.int (radixOf first more)) (first :: more) [] := by
    have := scanNumber_word first hmore (v := []) fun c hc => by cases hc
    rwa [List.append_nil, ← scan_eq_scanNumber hfirst] at this
  have hfloat := NumberPattern.not_float_matches hfirst hmore
  have hmarked {r : Radix} := @NumberPattern.marked_matches_iff first more hfirst hmore r
  by_cases hradix : radixOf first more = .decimal
  · refine ⟨.decimal, NumberPattern.decimal_matches hfirst hmore, by rwa [hradix] at hscan, fun q hq => ?_⟩
    cases q with
    | decimal => exact .inl rfl
    | float => exact (hfloat hq).elim
    | marked r =>
      obtain ⟨hr, hbegins⟩ := hmarked.1 hq
      exact (hr ((hbegins.radixOf_eq hr).symm.trans hradix)).elim
  · have hbegins := (decimal_or_beginsWith first more).resolve_left hradix
    refine ⟨.marked (radixOf first more), hmarked.2 ⟨hradix, hbegins⟩, hscan, fun q hq => ?_⟩
    cases q with
    | decimal => exact .inr (by simp [NumberPattern.priority])
    | float => exact (hfloat hq).elim
    | marked r =>
      obtain ⟨hr, hbegins⟩ := hmarked.1 hq
      exact .inl (by rw [hbegins.radixOf_eq hr])

end Words

/-! ## Digits and suffix -/

/-- The base of a word, its digits and separators, and its suffix. -/
structure IntegerWord (word : List Char) (radix : Radix) (digits suffix : List Char) : Prop where
  whole : word = radix.marker.toList ++ (digits ++ suffix)
  marked : radix ≠ .decimal → BeginsWith word radix
  unmarked : radix = .decimal → ∀ r, r ≠ .decimal → ¬BeginsWith word r
  digits : ∀ c ∈ digits, c = '_' ∨ radix.isDigit c = true
  longest : ∀ c ∈ suffix.head?, ¬(c = '_' ∨ radix.isDigit c = true)

/-- What a word stands for. -/
def integerOutcome (word : List Char) (radix : Radix) (digits suffix : List Char) :
    Except LexErrorKind IntLit :=
  if suffix ≠ [] ∧ Suffix.ofText? (String.ofList suffix) = none then
    .error (.invalidNumber (String.ofList (digits ++ suffix)))
  else if intLimit ≤ radix.positional digits then .error (.intOverflow (String.ofList word))
  else
    .ok ⟨BitVec.ofNat 128 (radix.positional digits), radix, Suffix.ofText? (String.ofList suffix)⟩

theorem isDigitOf_iff {radix : Radix} {c : Char} :
    isDigitOf radix c = true ↔ c = '_' ∨ radix.isDigit c = true := by
  rw [isDigitOf, Bool.or_eq_true, beq_iff_eq]

namespace IntegerWord

/-- Every word has a base, digits and a suffix. -/
theorem exists_parts (first : Char) (more : List Char) :
    ∃ radix digits suffix, IntegerWord (first :: more) radix digits suffix := by
  have hbase := hasBase_radixOf first more
  generalize radixOf first more = radix at hbase
  obtain ⟨digits, suffix, hrun⟩ : ∃ digits suffix,
      IsRun (isDigitOf radix) ((first :: more).drop radix.marker.length) digits suffix :=
    ⟨_, _, isRun_run _ _⟩
  refine ⟨radix, digits, suffix, ?_, hbase.marked, hbase.unmarked, ?_, ?_⟩
  · rw [hrun.append]
    exact hbase.eq_append_drop
  · exact fun c hc => isDigitOf_iff.1 (hrun.all c hc)
  · exact fun c hc hdigit => Bool.false_ne_true (hrun.stops c hc ▸ isDigitOf_iff.2 hdigit)

variable {first : Char} {more digits suffix : List Char} {radix : Radix}
  (h : IntegerWord (first :: more) radix digits suffix)
include h

/-- The text of a word is read as the word says. -/
theorem readInt_eq : readInt radix (first :: more) = integerOutcome (first :: more) radix digits suffix := by
  have hdigits : ∀ c ∈ digits, isDigitOf radix c = true := fun c hc => isDigitOf_iff.2 (h.digits c hc)
  have hstops : Stops (isDigitOf radix) suffix := fun c hc =>
    Bool.eq_false_iff.2 fun hdigit => h.longest c hc (isDigitOf_iff.1 hdigit)
  have hread := readInt_marked hdigits hstops
  rw [← h.whole, Radix.valueOf_eq_positional] at hread
  rw [hread, integerOutcome]
  split
  · rfl
  · by_cases hlarge : intLimit ≤ radix.positional digits
    · rw [if_pos hlarge, fitting_eq_none.2 hlarge]
    · rw [if_neg hlarge, fitting, if_pos (Nat.not_le.1 hlarge)]

end IntegerWord

/-! ## The whole word -/

/-- A character of a word is one byte long and ends no line. -/
theorem Lexing.Place.after_word {c : Char} (h : isWordChar c = true) (p : Lexing.Place) :
    p.after c = ⟨p.offset + 1, ⟨p.position.line, p.position.column + 1⟩⟩ := by
  have hsize : c.utf8Size = 1 := by
    simp only [isWordChar, isNameStart, isLetter, isDigit, Bool.or_eq_true, Bool.and_eq_true,
      decide_eq_true_eq, beq_iff_eq] at h
    have hle : c ≤ 'z' := by
      rcases h with ((⟨-, h⟩ | ⟨-, h⟩) | rfl) | ⟨-, h⟩
      · exact h
      · exact Char.le_trans h (by decide)
      · decide
      · exact Char.le_trans h (by decide)
    exact if_pos (UInt32.le_trans hle (by decide))
  have hbreak : c ≠ '\n' := by
    rintro rfl
    cases h
  rw [Lexing.Place.after, Position.after, hsize, if_neg hbreak]

theorem Lexing.Place.advance_word {cs : List Char} (h : ∀ c ∈ cs, isWordChar c = true) (p : Lexing.Place) :
    p.advance cs = ⟨p.offset + cs.length, ⟨p.position.line, p.position.column + cs.length⟩⟩ := by
  induction cs generalizing p with
  | nil => rfl
  | cons c cs ih =>
    obtain ⟨hc, hcs⟩ := List.forall_mem_cons.1 h
    rw [show p.advance (c :: cs) = (p.after c).advance cs from rfl, ih hcs, Lexing.Place.after_word hc,
      List.length_cons]
    simp only [Nat.add_assoc, Nat.add_comm 1]

/-- What lexing gives for a word that is one number or one error: a source may not be too long, and
its end has to be at a line and column that can be counted. -/
def lexedNumber (word : List Char) (outcome : Except LexErrorKind IntLit) : Except LexFailure LexOutput :=
  if wordLimit ≤ word.length then .error (.error ⟨.sourceTooLarge word.length, .dummy, .first⟩)
  else match outcome with
    | .error kind => .error (.error ⟨kind, ⟨0, word.length⟩, .first⟩)
    | .ok l =>
      if word.length + 1 < wordLimit then
        .ok ⟨⟨#[⟨.int l, ⟨0, word.length⟩, .first⟩, ⟨.eof, .point word.length, ⟨1, 1 + word.length⟩⟩]⟩, []⟩
      else .error (.fault .wordOverflow)

section Words

variable {first : Char} {more : List Char} (hfirst : isDigit first = true)
  (hmore : ∀ c ∈ more, isWordChar c = true)
include hfirst hmore

theorem Lexing.Place.advance_integerWord : Lexing.Place.first.advance (first :: more) =
    ⟨(first :: more).length, ⟨1, 1 + (first :: more).length⟩⟩ := by
  rw [Lexing.Place.advance_word (isWordChar_word hfirst hmore)]
  exact congrArg (Lexing.Place.mk · _) (Nat.zero_add _)

theorem byteLength_integerWord : byteLength (first :: more) = (first :: more).length := by
  rw [← Lexing.Place.offset_first_advance, Lexing.Place.advance_integerWord hfirst hmore]

/-- The pattern that the scanner takes is that of the base. -/
theorem IntegerWord.scan_eq {radix : Radix} {digits suffix : List Char}
    (h : IntegerWord (first :: more) radix digits suffix) :
    scan first more = .lexeme (.int radix) (first :: more) [] := by
  obtain ⟨p, hmatches, hscan, hbest⟩ := scanNumber_pattern hfirst hmore
  have hmarked {r : Radix} := @NumberPattern.marked_matches_iff first more hfirst hmore r
  suffices hshape : p.shape = .int radix by rwa [hshape] at hscan
  by_cases hradix : radix = .decimal
  · cases p with
    | decimal => rw [hradix]; rfl
    | float => exact (NumberPattern.not_float_matches hfirst hmore hmatches).elim
    | marked r =>
      obtain ⟨hr, hbegins⟩ := hmarked.1 hmatches
      exact (h.unmarked hradix r hr hbegins).elim
  · rcases hbest (.marked radix) (hmarked.2 ⟨hradix, h.marked hradix⟩) with rfl | hless
    · rfl
    · -- no pattern has a higher priority than those of the bases with a marker
      cases p <;> simp [NumberPattern.priority] at hless

/-- The scanner takes the whole word. -/
theorem lexText_integerWord {radix : Radix} {digits suffix : List Char}
    (h : IntegerWord (first :: more) radix digits suffix) (names : Interner) :
    lexText names (first :: more) = match integerOutcome (first :: more) radix digits suffix with
      | .error kind => (some ⟨kind, ⟨0, (first :: more).length⟩, .first⟩, .empty names)
      | .ok l => (none, (Progress.empty names).add (first :: more) (.token (.int l)) names) := by
  have hscan := h.scan_eq hfirst hmore
  have hlex : lexText names (first :: more) = (Progress.empty names).run (first :: more) := by
    rw [lexText, splitHashBang_of_scan hscan]
    rfl
  have hitem : item names (.int radix) (first :: more) =
      plain names ((integerOutcome (first :: more) radix digits suffix).map .int) := by
    rw [item, h.readInt_eq]
  rw [hlex]
  cases houtcome : integerOutcome (first :: more) radix digits suffix with
  | error kind =>
    rw [houtcome] at hitem
    rw [Progress.run_error hscan hitem, Progress.errorAt_empty, byteLength_integerWord hfirst hmore]
    rfl
  | ok l =>
    rw [houtcome] at hitem
    rw [Progress.run_lexeme hscan hitem, Progress.run_nil]

end Words

/-- A word of digits, letters and underscores that begins with a digit is one number or one error. -/
theorem lex_integerWord {first : Char} {more : List Char} (hfirst : isDigit first = true)
    (hmore : ∀ c ∈ more, isWordChar c = true) (names : Interner) :
    (∃ radix digits suffix, IntegerWord (first :: more) radix digits suffix) ∧
    ∀ radix digits suffix, IntegerWord (first :: more) radix digits suffix →
      lexWithComments (String.ofList (first :: more)) names =
        (lexedNumber (first :: more) (integerOutcome (first :: more) radix digits suffix), names) := by
  refine ⟨IntegerWord.exists_parts first more, fun radix digits suffix h => ?_⟩
  have hsize := byteLength_integerWord hfirst hmore
  have hplace := Lexing.Place.advance_integerWord hfirst hmore
  have hlex := lexText_integerWord hfirst hmore h names
  unfold lexedNumber
  by_cases hlarge : wordLimit ≤ (first :: more).length
  · rw [lexWithComments_eq, String.toList_ofList, hsize, if_pos hlarge, if_pos hlarge]
  rw [if_neg hlarge]
  cases houtcome : integerOutcome (first :: more) radix digits suffix with
  | error kind =>
    rw [houtcome] at hlex
    rw [lexWithComments_eq, String.toList_ofList, hsize, if_neg hlarge, hlex]
    rfl
  | ok l =>
    rw [houtcome] at hlex
    dsimp only
    split
    · rename_i hfits
      have hl : Lexable (first :: more) := ⟨hsize ▸ Nat.not_le.1 hlarge, Lexing.Place.fits_of_length_lt hfits⟩
      rw [lexWithComments_of_lexText hlex hl, outputOf, eofOf, hsize, hplace]
    · rename_i hfits
      have hover : ¬Position.fits ⟨1, 1 + (first :: more).length⟩ = true := fun h => by
        have := (of_decide_eq_true h).2
        simp only at this
        omega
      rw [lexWithComments_eq, String.toList_ofList, hsize, if_neg hlarge, hlex]
      dsimp only
      rw [show ((Progress.empty names).add (first :: more) (.token (.int l)) names).place =
        Lexing.Place.first.advance (first :: more) from rfl, hplace, if_neg hover]
      rfl

/-- A hexadecimal number with a separator and a suffix. -/
theorem hexadecimal_integerWord :
    IntegerWord "0xF_fu8".toList .hex "F_f".toList "u8".toList ∧
    lexWithComments "0xF_fu8" .new =
      (.ok ⟨⟨#[⟨.int ⟨255, .hex, some .u8⟩, ⟨0, 7⟩, .first⟩, ⟨.eof, .point 7, ⟨1, 8⟩⟩]⟩, []⟩, .new) := by
  have hword : IntegerWord ('0' :: "xF_fu8".toList) .hex "F_f".toList "u8".toList := by
    refine ⟨rfl, fun _ => ⟨'F', _, rfl, rfl⟩, fun h => (by cases h), ?_, ?_⟩
    · have htail : ∀ c ∈ ['_', 'f'], c = '_' ∨ Radix.hex.isDigit c = true :=
        List.forall_mem_cons.2 ⟨.inl rfl, List.forall_mem_singleton.2 (.inr rfl)⟩
      exact List.forall_mem_cons.2 ⟨.inr rfl, htail⟩
    · rintro _ ⟨⟩
      exact not_or.2 ⟨by decide, Bool.false_ne_true⟩
  have hlex := (lex_integerWord rfl (List.all_eq_true.1 rfl) .new).2 _ _ _ hword
  exact ⟨hword, hlex⟩

end SolSyntax
