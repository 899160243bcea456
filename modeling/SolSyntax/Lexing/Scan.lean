import SolSyntax.Token

/-!
# One step of the scanner

`scan` cuts the first piece off a text: a run of blanks, a lexeme of some shape, or characters
that begin nothing.  A piece is as long as the classes of lexemes allow.

Principal results: `scan_cuts` — a piece is not empty, and with the rest it makes up the text;
`rest_length_lt` — the rest is shorter.
-/

namespace SolSyntax.Lexing

/-- What a lexeme looks like. -/
inductive Shape where
  /-- `//` up to the end of the line. -/
  | comment
  /-- Line feeds, carriage returns before them, and semicolons. -/
  | lineBreak
  /-- A name or reserved word. -/
  | word
  /-- A run of operator characters. -/
  | operator
  /-- A backtick and a run of operator characters. -/
  | symbol
  /-- A sign of one character. -/
  | sign (kind : TokenKind)
  /-- A quote that begins no character literal. -/
  | quote
  | int (radix : Radix)
  | float
  | string
  | openString
  | char
  | openChar
  deriving DecidableEq, Repr

/-- The first piece of a text. -/
inductive Piece where
  | blank (text rest : List Char)
  | lexeme (shape : Shape) (text rest : List Char)
  | stray (text rest : List Char)
  deriving DecidableEq, Repr

namespace Piece

def text : Piece → List Char
  | blank text _ | lexeme _ text _ | stray text _ => text

def rest : Piece → List Char
  | blank _ rest | lexeme _ _ rest | stray _ rest => rest

end Piece

/-! ## Character classes -/

/-- Space, tab, carriage return, byte order mark, and the characters of no width. -/
def isBlank (c : Char) : Bool :=
  c == ' ' || c == '\t' || c == '\r' || c == '\uFEFF' || c == '\u200B' || c == '\u200C' ||
    c == '\u200D' || c == '\u2060'

def isOperatorChar : Char → Bool
  | '$' | '?' | '.' | '+' | '-' | '*' | '/' | '%' | '&' | '|' | '!' | '~' | '=' | '<' | '>' => true
  | _ => false

def isLetter (c : Char) : Bool := ('a' ≤ c && c ≤ 'z') || ('A' ≤ c && c ≤ 'Z')

def isDigit (c : Char) : Bool := '0' ≤ c && c ≤ '9'

/-- What begins a name. -/
def isNameStart (c : Char) : Bool := isLetter c || c == '_'

/-- What goes on in a name. -/
def isNameChar (c : Char) : Bool := isNameStart c || isDigit c || c == '\x27' || c == '$'

/-- What goes on in a number and its suffix. -/
def isWordChar (c : Char) : Bool := isNameStart c || isDigit c

/-- What goes on in the digits of a number. -/
def isDigitOrSeparator (c : Char) : Bool := isDigit c || c == '_'

def isHexDigit (c : Char) : Bool := isDigit c || ('a' ≤ c && c ≤ 'f') || ('A' ≤ c && c ≤ 'F')

/-- What stands for itself in a string. -/
def isPlainInString (c : Char) : Bool := c != '\x22' && c != '\\' && c != '\n' && c != '\r'

/-- What stands for itself in a character literal. -/
def isPlainInChar (c : Char) : Bool := c != '\x27' && c != '\\' && c != '\n' && c != '\r'

/-! ## Runs -/

/-- The longest run of characters of a class, and what follows it. -/
def run (p : Char → Bool) (cs : List Char) : List Char × List Char :=
  (cs.takeWhile p, cs.dropWhile p)

/-- The longest run of line feeds, carriage returns before line feeds, and semicolons; `acc`
holds, reversed, what was taken before. -/
def lineBreaks (acc : List Char) : List Char → List Char × List Char
  | '\n' :: cs => lineBreaks ('\n' :: acc) cs
  | ';' :: cs => lineBreaks (';' :: acc) cs
  | '\r' :: '\n' :: cs => lineBreaks ('\n' :: '\r' :: acc) cs
  | cs => (acc.reverse, cs)

/-- The longest run of plain characters and escapes of a string; a backslash and any character but
a line feed form an escape. -/
def stringBody (acc : List Char) : List Char → List Char × List Char
  | [] => (acc.reverse, [])
  | '\\' :: [] => (acc.reverse, ['\\'])
  | '\\' :: c :: cs =>
    if c = '\n' then (acc.reverse, '\\' :: c :: cs) else stringBody (c :: '\\' :: acc) cs
  | c :: cs => if isPlainInString c then stringBody (c :: acc) cs else (acc.reverse, c :: cs)

/-- The exponent at the start of a text, empty if there is no whole one: `e` or `E`, a sign or
none, and digits. -/
def exponent : List Char → List Char × List Char
  | [] => ([], [])
  | e :: cs =>
    if e = 'e' ∨ e = 'E' then
      let (sign, ds) :=
        match cs with
        | '+' :: ds => (['+'], ds)
        | '-' :: ds => (['-'], ds)
        | ds => ([], ds)
      match run isDigit ds with
      | ([], _) => ([], e :: cs)
      | (digits, rest) => (e :: (sign ++ digits), rest)
    else ([], e :: cs)

/-! ## Lexemes -/

/-- The base told by the first characters of a number. -/
def radixOf (first : Char) (word : List Char) : Radix :=
  if first = '0' then
    match word with
    | 'x' :: d :: _ => if Radix.hex.isDigit d then .hex else .decimal
    | 'o' :: d :: _ => if Radix.octal.isDigit d then .octal else .decimal
    | 'b' :: d :: _ => if Radix.binary.isDigit d then .binary else .decimal
    | _ => .decimal
  else .decimal

/-- A number; `first` is its first digit.  Digits, a point and a digit make it a float, which takes
digits, an exponent and a suffix.  Otherwise it takes all letters, digits and underscores, and a
marker followed by a digit of its base tells the base. -/
def scanNumber (first : Char) (cs : List Char) : Piece :=
  let (whole, afterWhole) := run isDigitOrSeparator cs
  match afterWhole with
  | '.' :: d :: ds =>
    if isDigit d then
      let (fraction, afterFraction) := run isDigitOrSeparator ds
      let (exp, afterExponent) := exponent afterFraction
      let (suffix, rest) := run isWordChar afterExponent
      .lexeme .float (first :: (whole ++ '.' :: d :: (fraction ++ (exp ++ suffix)))) rest
    else .lexeme (.int .decimal) (first :: whole) afterWhole
  | _ =>
    let (word, rest) := run isWordChar cs
    .lexeme (.int (radixOf first word)) (first :: word) rest

/-- A string after its opening quote. -/
def scanString (cs : List Char) : Piece :=
  match stringBody [] cs with
  | (body, '\x22' :: rest) => .lexeme .string ('\x22' :: (body ++ ['\x22'])) rest
  | (body, rest) => .lexeme .openString ('\x22' :: body) rest

/-- A code point after a quote, a backslash, `u` and an opening brace.  If the literal does not
end as it should, what was read so far begins nothing. -/
def scanCodePoint (cs : List Char) : Piece :=
  let (digits, rest) := run isHexDigit cs
  let start := '\x27' :: '\\' :: 'u' :: '\x7b' :: digits
  match rest with
  | '\x7d' :: '\x27' :: rest => .lexeme .char (start ++ ['\x7d', '\x27']) rest
  | rest => .stray start rest

/-- What follows a quote: a character literal, the start of one, or nothing of the kind. -/
def scanQuote (cs : List Char) : Piece :=
  match cs with
  | '\\' :: 'u' :: '\x7b' :: cs => scanCodePoint cs
  | '\\' :: c :: '\x27' :: rest =>
    if c = '\n' then .lexeme .openChar ['\x27', '\\'] (c :: '\x27' :: rest)
    else .lexeme .char ['\x27', '\\', c, '\x27'] rest
  | '\\' :: c :: rest =>
    if c = '\n' then .lexeme .openChar ['\x27', '\\'] (c :: rest)
    else .lexeme .openChar ['\x27', '\\', c] rest
  | '\\' :: [] => .lexeme .openChar ['\x27', '\\'] []
  | c :: '\x27' :: rest =>
    if isPlainInChar c then .lexeme .char ['\x27', c, '\x27'] rest
    else .lexeme .quote ['\x27'] (c :: '\x27' :: rest)
  | cs => .lexeme .quote ['\x27'] cs

/-- A run of operator characters, of which `first` is one; two slashes begin a comment. -/
def scanOperator (first : Char) (cs : List Char) : Piece :=
  match first, cs with
  | '/', '/' :: cs =>
    let (text, rest) := run (· != '\n') cs
    .lexeme .comment ('/' :: '/' :: text) rest
  | first, cs =>
    let (text, rest) := run isOperatorChar cs
    .lexeme .operator (first :: text) rest

/-- A backtick and a run of operator characters. -/
def scanSymbol (cs : List Char) : Piece :=
  match run isOperatorChar cs with
  | ([], rest) => .stray ['\x60'] rest
  | (text, rest) => .lexeme .symbol ('\x60' :: text) rest

/-- Whether a line break begins here. -/
def beginsLineBreak (first : Char) (cs : List Char) : Bool :=
  first == '\n' || first == ';' || (first == '\r' && cs.head? == some '\n')

/-- The first piece of the text `first :: cs`. -/
def scan (first : Char) (cs : List Char) : Piece :=
  if beginsLineBreak first cs then
    let (text, rest) := lineBreaks [] (first :: cs)
    .lexeme .lineBreak text rest
  else if isBlank first then
    let (text, rest) := run isBlank cs
    .blank (first :: text) rest
  else if isNameStart first then
    let (text, rest) := run isNameChar cs
    .lexeme .word (first :: text) rest
  else if isDigit first then scanNumber first cs
  else if isOperatorChar first then scanOperator first cs
  else if first = '\x22' then scanString cs
  else if first = '\x27' then scanQuote cs
  else if first = '\x60' then scanSymbol cs
  else match TokenKind.sign? first with
    | some kind => .lexeme (.sign kind) [first] cs
    | none => .stray [first] cs

/-! ## A piece and the rest make up the text -/

@[simp] theorem run_append (p : Char → Bool) (cs : List Char) : (run p cs).1 ++ (run p cs).2 = cs :=
  List.takeWhile_append_dropWhile

theorem append_of_run_eq {p : Char → Bool} {cs as bs : List Char} (h : run p cs = (as, bs)) :
    cs = as ++ bs := by
  rw [← run_append p cs, h]

theorem lineBreaks_append (acc cs : List Char) :
    (lineBreaks acc cs).1 ++ (lineBreaks acc cs).2 = acc.reverse ++ cs := by
  fun_induction lineBreaks acc cs <;> simp_all

theorem length_le_lineBreaks (acc cs : List Char) :
    acc.length ≤ (lineBreaks acc cs).1.length := by
  fun_induction lineBreaks acc cs <;> simp_all <;> omega

theorem lineBreaks_ne_nil {first : Char} {cs : List Char} (h : beginsLineBreak first cs = true) :
    (lineBreaks [] (first :: cs)).1 ≠ [] := by
  have key : ∀ c acc ds, (lineBreaks (c :: acc) ds).1 ≠ [] := fun c acc ds e => by
    have := length_le_lineBreaks (c :: acc) ds
    simp [e] at this
  unfold beginsLineBreak at h
  simp only [Bool.or_eq_true, beq_iff_eq, Bool.and_eq_true] at h
  rcases h with (rfl | rfl) | ⟨rfl, hc⟩
  · exact key _ _ _
  · exact key _ _ _
  · cases cs with
    | nil => simp at hc
    | cons c cs =>
      simp only [List.head?_cons, Option.some.injEq] at hc
      subst hc
      exact key _ _ _

theorem stringBody_append (acc cs : List Char) :
    (stringBody acc cs).1 ++ (stringBody acc cs).2 = acc.reverse ++ cs := by
  fun_induction stringBody acc cs <;> simp_all

theorem exponent_append (cs : List Char) : (exponent cs).1 ++ (exponent cs).2 = cs := by
  unfold exponent
  split
  · rfl
  · rename_i e cs
    split
    · split
      rename_i sign ds hs
      have hds : sign ++ ds = cs := by
        split at hs <;> cases hs <;> rfl
      split
      · rfl
      · rename_i digits rest h
        simp [← hds, append_of_run_eq h]
    · rfl

/-- What a piece does to a text: it takes at least one character off its front. -/
structure Piece.Cuts (p : Piece) (cs : List Char) : Prop where
  text_append_rest : p.text ++ p.rest = cs
  text_ne_nil : p.text ≠ []

theorem scanNumber_cuts (first : Char) (cs : List Char) :
    (scanNumber first cs).Cuts (first :: cs) := by
  unfold scanNumber
  have hw := run_append isDigitOrSeparator cs
  generalize run isDigitOrSeparator cs = w at hw
  obtain ⟨whole, afterWhole⟩ := w
  simp only at hw ⊢
  split
  · rename_i d ds
    split
    · have he := exponent_append (run isDigitOrSeparator ds).2
      have hs := run_append isWordChar (exponent (run isDigitOrSeparator ds).2).2
      have hf := run_append isDigitOrSeparator ds
      refine ⟨?_, by simp [Piece.text]⟩
      simp only [Piece.text, Piece.rest, List.cons_append, List.append_assoc, hs, he, hf, hw]
    · exact ⟨by simp [Piece.text, Piece.rest, hw], by simp [Piece.text]⟩
  · exact ⟨by simp [Piece.text, Piece.rest], by simp [Piece.text]⟩

theorem scanString_cuts (cs : List Char) : (scanString cs).Cuts ('\x22' :: cs) := by
  unfold scanString
  have h := stringBody_append [] cs
  split
  · rename_i body rest hb
    rw [hb] at h
    exact ⟨by simpa [Piece.text, Piece.rest] using h, by simp [Piece.text]⟩
  · rename_i body rest _ hb
    rw [hb] at h
    exact ⟨by simpa [Piece.text, Piece.rest] using h, by simp [Piece.text]⟩

theorem scanCodePoint_cuts (cs : List Char) :
    (scanCodePoint cs).Cuts ('\x27' :: '\\' :: 'u' :: '\x7b' :: cs) := by
  unfold scanCodePoint
  have h := run_append isHexDigit cs
  generalize run isHexDigit cs = w at h
  obtain ⟨digits, rest⟩ := w
  simp only at h ⊢
  split
  · exact ⟨by simp [Piece.text, Piece.rest, ← h], by simp [Piece.text]⟩
  · exact ⟨by simp [Piece.text, Piece.rest, ← h], by simp [Piece.text]⟩

theorem scanQuote_cuts (cs : List Char) : (scanQuote cs).Cuts ('\x27' :: cs) := by
  unfold scanQuote
  split
  · exact scanCodePoint_cuts _
  all_goals
    first
    | (split <;> exact ⟨by simp [Piece.text, Piece.rest], by simp [Piece.text]⟩)
    | exact ⟨by simp [Piece.text, Piece.rest], by simp [Piece.text]⟩

theorem scanOperator_cuts (first : Char) (cs : List Char) :
    (scanOperator first cs).Cuts (first :: cs) := by
  unfold scanOperator
  split <;> exact ⟨by simp [Piece.text, Piece.rest], by simp [Piece.text]⟩

theorem scanSymbol_cuts (cs : List Char) : (scanSymbol cs).Cuts ('\x60' :: cs) := by
  unfold scanSymbol
  split
  · rename_i rest h
    exact ⟨by simp [Piece.text, Piece.rest, append_of_run_eq h], by simp [Piece.text]⟩
  · rename_i text rest _ h
    exact ⟨by simp [Piece.text, Piece.rest, append_of_run_eq h], by simp [Piece.text]⟩

theorem scan_cuts (first : Char) (cs : List Char) : (scan first cs).Cuts (first :: cs) := by
  unfold scan
  split
  · rename_i hb
    exact ⟨by simp [Piece.text, Piece.rest, lineBreaks_append], lineBreaks_ne_nil hb⟩
  split
  · exact ⟨by simp [Piece.text, Piece.rest], by simp [Piece.text]⟩
  split
  · exact ⟨by simp [Piece.text, Piece.rest], by simp [Piece.text]⟩
  split
  · exact scanNumber_cuts first cs
  split
  · exact scanOperator_cuts first cs
  split
  · rename_i h; subst h; exact scanString_cuts cs
  split
  · rename_i h; subst h; exact scanQuote_cuts cs
  split
  · rename_i h; subst h; exact scanSymbol_cuts cs
  split <;> exact ⟨by simp [Piece.text, Piece.rest], by simp [Piece.text]⟩

theorem cuts_of_scan {first : Char} {cs : List Char} {p : Piece} (h : scan first cs = p) :
    p.Cuts (first :: cs) :=
  h ▸ scan_cuts first cs

/-- What is left after a piece is shorter than the text. -/
theorem rest_length_lt (first : Char) (cs : List Char) :
    (scan first cs).rest.length < (first :: cs).length := by
  have h := scan_cuts first cs
  have hl := congrArg List.length h.text_append_rest
  have := List.length_pos_iff.2 h.text_ne_nil
  simp only [List.length_append] at hl
  omega

end SolSyntax.Lexing
