import SolSyntax.Proofs.IntegerWords

/-!
# Escapes by code point

A literal that is one escape by code point, `\u` and braces, is read by three readers: the scanner looks at
what is between the braces of a character but not of a string, the escape is cut out, and its digits are
converted.  Digits of a code point are accepted in strings and characters alike.  Of what denotes none, a
string also accepts a plus sign before digits that do; and a character with anything but digits between its
braces is no literal that fails, but a quote that begins nothing.

Principal results: `codePoint?_eq_some`; `lex_unicodeEscape`.
-/

namespace SolSyntax

open Lexing

/-- An escape by code point. -/
def escapeText (hex : List Char) : List Char := '\\' :: 'u' :: '\x7b' :: (hex ++ ['\x7d'])

/-- A literal that is one escape by code point. -/
def escapeSource (quote : Char) (hex : List Char) : List Char := quote :: (escapeText hex ++ [quote])

/-- Digits denote a character if their value is its code point. -/
structure Denotes (hex : List Char) (c : Char) : Prop where
  ne_nil : hex ≠ []
  digits : ∀ d ∈ hex, isHexDigit d = true
  value : Radix.hex.positional hex = c.toNat

namespace Lexing

/-! ## Digits -/

/-- The scanner and the converter agree on what a digit is. -/
theorem isDigit_hex (c : Char) : Radix.hex.isDigit c = isHexDigit c := by
  have le {a b : Char} : a ≤ b ↔ a.toNat ≤ b.toNat := Iff.rfl
  have hvalue : Radix.hex.isDigit c = (digitValue c).any (· < 16) := by
    rw [Radix.isDigit, Radix.digit?, Option.isSome_filter]
    rfl
  rw [hvalue, Bool.eq_iff_iff]
  simp only [isHexDigit, isDigit, digitValue, Bool.or_eq_true, Bool.and_eq_true, decide_eq_true_eq, le,
    show '0'.toNat = 48 from rfl, show '9'.toNat = 57 from rfl, show 'a'.toNat = 97 from rfl,
    show 'f'.toNat = 102 from rfl, show 'z'.toNat = 122 from rfl, show 'A'.toNat = 65 from rfl,
    show 'F'.toNat = 70 from rfl, show 'Z'.toNat = 90 from rfl]
  split
  · simp only [Option.any_some, decide_eq_true_eq]
    omega
  split
  · simp only [Option.any_some, decide_eq_true_eq]
    omega
  split
  · simp only [Option.any_some, decide_eq_true_eq]
    omega
  · simp only [Option.any_none, Bool.false_eq_true, false_iff]
    omega

/-- Digits without a sign are converted if they denote a character. -/
theorem converted_iff {digits : List Char} {c : Char} :
    (if digits ≠ [] ∧ digits.all Radix.hex.isDigit ∧ (Radix.hex.valueOf digits).isValidChar then
      some (Char.ofNat (Radix.hex.valueOf digits)) else none) = some c ↔ Denotes digits c := by
  have hall : digits.all Radix.hex.isDigit = true ↔ ∀ d ∈ digits, isHexDigit d = true := by
    simp only [List.all_eq_true, isDigit_hex]
  rw [Option.ite_none_right_eq_some, Option.some.injEq, hall, Radix.valueOf_eq_positional]
  constructor
  · rintro ⟨⟨hne, hdigits, hvalid⟩, rfl⟩
    refine ⟨hne, hdigits, ?_⟩
    rw [Char.ofNat, dif_pos hvalid]
    rfl
  · rintro ⟨hne, hdigits, hvalue⟩
    rw [hvalue]
    exact ⟨⟨hne, hdigits, c.valid⟩, Char.ofNat_toNat c⟩

/-- What is converted denotes a character, perhaps behind a plus sign. -/
theorem codePoint?_eq_some {hex : List Char} {c : Char} : codePoint? hex = some c ↔
    Denotes hex c ∨ ∃ digits, hex = '+' :: digits ∧ Denotes digits c := by
  unfold codePoint?
  dsimp only
  split
  · rename_i digits
    have hsign : ¬Denotes ('+' :: digits) c := fun h => absurd (h.digits '+' List.mem_cons_self) (by decide)
    rw [converted_iff]
    constructor
    · exact fun h => .inr ⟨digits, rfl, h⟩
    · rintro (h | ⟨more, heq, h⟩)
      · exact (hsign h).elim
      · cases heq
        exact h
  · rename_i hsign
    rw [converted_iff]
    constructor
    · exact .inl
    · rintro (h | ⟨digits, rfl, -⟩)
      · exact h
      · exact (hsign digits rfl).elim

/-! ## The escape -/

/-- What may stand between the braces. -/
def IsBraced (hex : List Char) : Prop := ∀ c ∈ hex, c ∉ ['\x7d', '\x22', '\x27', '\\', '\n', '\r']

section Escapes

variable {hex : List Char} (h : IsBraced hex)
include h

theorem unescape_escapeText : unescape (escapeText hex) =
    match codePoint? hex with
    | some c => .ok [c]
    | none => .error (.invalidEscape (String.ofList (escapeText hex))) := by
  have hclose : ∀ c ∈ hex, (c != '\x7d') = true := fun c hc => by
    have := h c hc
    simp only [List.mem_cons, not_or] at this
    simpa using this.1
  have hrun := run_of_stops hclose (v := ['\x7d']) (by rintro c ⟨⟩; decide)
  obtain ⟨htake, hdrop⟩ := Prod.mk.inj hrun
  rw [unescape, escapeText, unescapeInto]
  simp only [htake]
  split
  · rename_i hnil
    rw [hdrop] at hnil
    cases hnil
  · rename_i close rest hcons
    rw [hdrop] at hcons
    cases hcons
    cases codePoint? hex with
    | none => rfl
    | some c =>
      show unescapeInto [c] [] = .ok [c]
      rw [unescapeInto]
      rfl

theorem scan_stringEscape : scan '\x22' (escapeSource '\x22' hex).tail =
    .lexeme .string (escapeSource '\x22' hex) [] := by
  have body : ∀ us, (∀ c ∈ us, isPlainInString c = true) → ∀ acc,
      stringBody acc (us ++ ['\x22']) = (acc.reverse ++ us, ['\x22']) := by
    intro us
    induction us with
    | nil =>
      intro _ acc
      simp [stringBody, isPlainInString]
    | cons c us ih =>
      intro hus acc
      obtain ⟨hc, hus⟩ := List.forall_mem_cons.1 hus
      rw [List.cons_append, stringBody_plain hc, ih hus]
      simp
  have hplain : ∀ c ∈ '\x7b' :: (hex ++ ['\x7d']), isPlainInString c = true := by
    refine List.forall_mem_cons.2 ⟨by decide, fun c hc => ?_⟩
    rcases List.mem_append.1 hc with hc | hc
    · have := h c hc
      simp only [List.mem_cons, not_or] at this
      simp [isPlainInString, this]
    · obtain rfl := List.mem_singleton.1 hc
      decide
  have hbody := body _ hplain ['u', '\\']
  show scanString _ = _
  simp only [escapeSource, escapeText, List.tail_cons, List.cons_append, scanString]
  rw [stringBody, if_neg (by decide)]
  simp only [List.cons_append] at hbody
  rw [hbody]
  simp

omit h in
theorem scan_charEscape (hdigits : ∀ d ∈ hex, isHexDigit d = true) :
    scan '\x27' (escapeSource '\x27' hex).tail = .lexeme .char (escapeSource '\x27' hex) [] := by
  have hrun := run_of_stops hdigits (v := ['\x7d', '\x27']) (by rintro c ⟨⟩; decide)
  show scanCodePoint (hex ++ ['\x7d'] ++ ['\x27']) = _
  rw [List.append_assoc, scanCodePoint, List.singleton_append, hrun]
  simp [escapeSource, escapeText]

/-- Of a character, the scanner takes the digits and nothing behind them. -/
theorem scan_strayEscape {digits more : List Char} {x : Char} (hhex : hex = digits ++ x :: more)
    (hdigits : ∀ d ∈ digits, isHexDigit d = true) (hx : isHexDigit x = false) :
    scan '\x27' (escapeSource '\x27' hex).tail =
      .stray ('\x27' :: '\\' :: 'u' :: '\x7b' :: digits) (x :: more ++ ['\x7d', '\x27']) := by
  have hrun := run_of_stops hdigits (v := x :: more ++ ['\x7d', '\x27']) (by rintro c ⟨⟩; exact hx)
  have hclose : x ≠ '\x7d' := by
    rintro rfl
    exact h '\x7d' (by simp [hhex]) List.mem_cons_self
  show scanCodePoint (hex ++ ['\x7d'] ++ ['\x27']) = _
  rw [hhex, List.append_assoc, List.append_assoc, scanCodePoint, List.singleton_append, hrun]
  simp [hclose]

omit h in
theorem unquoted_escapeSource (quote : Char) :
    unquoted (escapeSource quote hex) = escapeText hex := by
  rw [escapeSource, unquoted, List.drop_one, List.tail_cons, List.dropLast_concat]

/-- What becomes of the string. -/
theorem item_stringEscape (names : Interner) : item names .string (escapeSource '\x22' hex) =
    match codePoint? hex with
    | some c => named names [c] fun n => .token (.string n)
    | none => (.error (.invalidEscape (String.ofList (escapeText hex))), names) := by
  rw [item, unquoted_escapeSource, unescape_escapeText h]
  cases codePoint? hex <;> rfl

/-- What becomes of the character. -/
theorem item_charEscape (names : Interner) : item names .char (escapeSource '\x27' hex) =
    match codePoint? hex with
    | some c => (.ok (.token (.char c)), names)
    | none => (.error (.invalidEscape (String.ofList (escapeText hex))), names) := by
  rw [item, unquoted_escapeSource, unescapeChar, unescape_escapeText h]
  cases codePoint? hex <;> rfl

end Escapes

end Lexing

/-! ## Sources -/

/-- The error of a literal whose escape denotes nothing. -/
def escapeError (quote : Char) (hex : List Char) : LexError :=
  ⟨.invalidEscape (String.ofList (escapeText hex)), ⟨0, byteLength (escapeSource quote hex)⟩, .first⟩

/-- What a source that is one escape lexes to, unless it is too large. -/
def EscapeLexes (quote : Char) (hex : List Char) (names : Interner)
    (outcome : Except LexError Item × Interner) : Prop :=
  lexWithComments (String.ofList (escapeSource quote hex)) names =
    lexedAs (escapeSource quote hex) names outcome

/-- A string of one character. -/
def charString (names : Interner) (c : Char) : Except LexError Item × Interner :=
  (.ok (.token (.string (names.intern (String.ofList [c])).1)), (names.intern (String.ofList [c])).2)

section Sources

variable {hex : List Char} (h : IsBraced hex) (names : Interner)
include h

theorem lex_stringEscape : EscapeLexes '\x22' hex names (match codePoint? hex with
    | some c => charString names c
    | none => (.error (escapeError '\x22' hex), names)) := by
  refine (lexWithComments_of_scan (scan_stringEscape h)).trans ?_
  rw [show '\x22' :: (escapeSource '\x22' hex).tail = escapeSource '\x22' hex from rfl,
    item_stringEscape h names]
  cases codePoint? hex <;> rfl

theorem lex_charEscape (hdigits : ∀ d ∈ hex, isHexDigit d = true) :
    EscapeLexes '\x27' hex names (match codePoint? hex with
    | some c => (.ok (.token (.char c)), names)
    | none => (.error (escapeError '\x27' hex), names)) := by
  refine (lexWithComments_of_scan (scan_charEscape hdigits)).trans ?_
  rw [show '\x27' :: (escapeSource '\x27' hex).tail = escapeSource '\x27' hex from rfl,
    item_charEscape h names]
  cases codePoint? hex <;> rfl

/-- The characters from the quote to the last digit begin nothing. -/
theorem lex_strayEscape {digits more : List Char} {x : Char} (hhex : hex = digits ++ x :: more)
    (hdigits : ∀ d ∈ digits, isHexDigit d = true) (hx : isHexDigit x = false) :
    EscapeLexes '\x27' hex names (.error ⟨.unexpectedChar '\x27',
      ⟨0, byteLength ('\x27' :: '\\' :: 'u' :: '\x7b' :: digits)⟩, .first⟩, names) := by
  refine lexWithComments_failed ?_
  have hstray := Progress.run_stray (s := .empty names) (scan_strayEscape h hhex hdigits hx)
  rw [Progress.errorAt_empty] at hstray
  exact hstray

end Sources

/-- What the literals with an escape by code point lex to, strings and characters. -/
structure EscapeOutcomes (hex : List Char) (names : Interner) : Prop where
  /-- Digits of a character stand for it in both. -/
  denoted : ∀ c, Denotes hex c → EscapeLexes '\x22' hex names (charString names c) ∧
    EscapeLexes '\x27' hex names (.ok (.token (.char c)), names)
  /-- In strings a plus sign may come before them. -/
  signed : ∀ digits c, hex = '+' :: digits → Denotes digits c →
    EscapeLexes '\x22' hex names (charString names c)
  refusedString : (∀ c, ¬Denotes hex c) → (∀ digits c, hex = '+' :: digits → ¬Denotes digits c) →
    EscapeLexes '\x22' hex names (.error (escapeError '\x22' hex), names)
  refusedChar : (∀ c, ¬Denotes hex c) → (∀ d ∈ hex, isHexDigit d = true) →
    EscapeLexes '\x27' hex names (.error (escapeError '\x27' hex), names)
  /-- Anything but digits makes a character begin nothing, up to the first that is none. -/
  stray : ∀ digits x more, hex = digits ++ x :: more → (∀ d ∈ digits, isHexDigit d = true) →
    isHexDigit x = false → EscapeLexes '\x27' hex names (.error ⟨.unexpectedChar '\x27',
      ⟨0, byteLength ('\x27' :: '\\' :: 'u' :: '\x7b' :: digits)⟩, .first⟩, names)

/-- Whatever stands between the braces, if it ends neither them nor the literal nor the line. -/
theorem lex_unicodeEscape {hex : List Char} (h : IsBraced hex) (names : Interner) :
    EscapeOutcomes hex names := by
  have hstring := lex_stringEscape h names
  refine ⟨fun c hc => ?_, fun digits c hsign hc => ?_, fun hnone hsigned => ?_, fun hnone hdigits => ?_,
    fun digits x more => lex_strayEscape h names⟩
  · have hpoint := codePoint?_eq_some.2 (.inl hc)
    have hchar := lex_charEscape h names hc.digits
    rw [hpoint] at hstring hchar
    exact ⟨hstring, hchar⟩
  · rw [codePoint?_eq_some.2 (.inr ⟨digits, hsign, hc⟩)] at hstring
    exact hstring
  · cases hpoint : codePoint? hex with
    | some c =>
      rcases codePoint?_eq_some.1 hpoint with hc | ⟨digits, hsign, hc⟩
      · exact (hnone c hc).elim
      · exact (hsigned digits c hsign hc).elim
    | none =>
      rw [hpoint] at hstring
      exact hstring
  · have hchar := lex_charEscape h names hdigits
    cases hpoint : codePoint? hex with
    | some c =>
      rcases codePoint?_eq_some.1 hpoint with hc | ⟨digits, rfl, -⟩
      · exact (hnone c hc).elim
      · exact absurd (hdigits '+' List.mem_cons_self) (by decide)
    | none =>
      rw [hpoint] at hchar
      exact hchar

/-- A letter beyond those of names. -/
theorem lambda_unicodeEscape : IsBraced ['3', 'b', 'B'] ∧ Denotes ['3', 'b', 'B'] 'λ' ∧
    EscapeLexes '\x22' ['3', 'b', 'B'] .new (charString .new 'λ') ∧
    EscapeLexes '\x27' ['3', 'b', 'B'] .new (.ok (.token (.char 'λ')), .new) := by
  have hbraced : IsBraced ['3', 'b', 'B'] := by simp [IsBraced]
  have hdenotes : Denotes ['3', 'b', 'B'] 'λ' :=
    ⟨by decide, List.all_eq_true.1 (by decide), by decide⟩
  exact ⟨hbraced, hdenotes, (lex_unicodeEscape hbraced .new).denoted _ hdenotes⟩

/-- A plus sign and digits of a character denote nothing, but are accepted in a string; and what is no digit
is not complained about as an escape in a character. -/
theorem signed_escape_accepted :
    (∀ c, ¬Denotes ['+', '4', '1'] c) ∧
    (lexWithComments "\"\\u\x7b+41\x7d\"" .new).1 =
      .ok ⟨⟨#[⟨.string (Interner.new.intern "A").1, ⟨0, 9⟩, .first⟩, ⟨.eof, .point 9, ⟨1, 10⟩⟩]⟩, []⟩ ∧
    (∀ c, ¬Denotes ['z', 'z'] c) ∧
    (lexWithComments "'\\u\x7bzz\x7d'" .new).1 =
      .error (.error ⟨.unexpectedChar '\x27', ⟨0, 4⟩, .first⟩) := by
  exact ⟨fun c h => absurd (h.digits '+' List.mem_cons_self) (by decide), by decide +kernel,
    fun c h => absurd (h.digits 'z' List.mem_cons_self) (by decide), by decide +kernel⟩

end SolSyntax
