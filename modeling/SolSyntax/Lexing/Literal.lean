import SolSyntax.Lexing.LexError
import SolSyntax.Lexing.Scan

/-!
# What the text of a literal stands for

Resolves the escapes of strings and characters and reads the values of numbers.
-/

namespace SolSyntax.Lexing

/-! ## Escapes -/

/-- The character that a backslash before `c` stands for. -/
def resolveEscape : Char → Char
  | 'n' => '\n'
  | 'r' => '\r'
  | 't' => '\t'
  | '0' => '\x00'
  | c => c

/-- The character with the code point written in `hex`, after an optional plus sign. -/
def codePoint? (hex : List Char) : Option Char :=
  let digits :=
    match hex with
    | '+' :: digits => digits
    | digits => digits
  let value := Radix.hex.valueOf digits
  if digits ≠ [] ∧ digits.all Radix.hex.isDigit ∧ value.isValidChar then some (Char.ofNat value)
  else none

/-- Resolves the escapes of a text; `acc` holds, reversed, what was resolved before. -/
def unescapeInto (acc : List Char) (cs : List Char) : Except LexErrorKind (List Char) :=
  match cs with
  | [] => .ok acc.reverse
  | '\\' :: 'u' :: '\x7b' :: cs =>
    let hex := cs.takeWhile (· != '\x7d')
    match h : cs.dropWhile (· != '\x7d') with
    | [] => .error (.invalidEscape (String.ofList ('\\' :: 'u' :: '\x7b' :: hex)))
    | close :: rest =>
      match codePoint? hex with
      | some c =>
        have : rest.length ≤ cs.length := by
          have := (List.dropWhile_suffix (l := cs) (· != '\x7d')).length_le
          rw [h, List.length_cons] at this
          omega
        unescapeInto (c :: acc) rest
      | none =>
        .error (.invalidEscape (String.ofList ('\\' :: 'u' :: '\x7b' :: (hex ++ [close]))))
  | '\\' :: c :: cs => unescapeInto (resolveEscape c :: acc) cs
  | c :: cs => unescapeInto (c :: acc) cs
termination_by cs.length

/-- The text with its escapes resolved. -/
def unescape (cs : List Char) : Except LexErrorKind (List Char) := unescapeInto [] cs

/-- The one character that a text stands for. -/
def unescapeChar (cs : List Char) : Except LexErrorKind Char :=
  match unescape cs with
  | .error e => .error e
  | .ok [c] => .ok c
  | .ok _ => .error (.invalidEscape (String.ofList cs))

/-- A literal without its quotes. -/
def unquoted (text : List Char) : List Char := (text.drop 1).dropLast

/-! ## Numbers -/

/-- A product, unless it is too large for an integer literal. -/
def checkedMul (a b : BitVec 128) : Option (BitVec 128) :=
  if a.umulOverflow b then none else some (a * b)

/-- A sum, unless it is too large for an integer literal. -/
def checkedAdd (a b : BitVec 128) : Option (BitVec 128) :=
  if a.uaddOverflow b then none else some (a + b)

/-- What digits make of the number `n` that stands before them; separators are passed over.  There is
no result if it grows too large, or at a character that is no digit. -/
def foldDigits (radix : Radix) (n : BitVec 128) : List Char → Option (BitVec 128)
  | [] => some n
  | c :: cs =>
    if c = '_' then foldDigits radix n cs
    else do
      let d ← radix.digit? c
      let shifted ← checkedMul n (BitVec.ofNat 128 radix.value)
      let n ← checkedAdd shifted (BitVec.ofNat 128 d)
      foldDigits radix n cs

/-- What goes on in the digits of a base. -/
def isDigitOf (radix : Radix) (c : Char) : Bool := c == '_' || radix.isDigit c

/-- The digits at the start of a text, and the suffix that is the rest. -/
def splitSuffix (radix : Radix) (text : List Char) :
    Except LexErrorKind (List Char × Option Suffix) :=
  let (digits, suffix) := run (isDigitOf radix) text
  if suffix.isEmpty then .ok (digits, none)
  else match Suffix.ofText? (String.ofList suffix) with
    | some s => .ok (digits, some s)
    | none => .error (.invalidNumber (String.ofList text))

/-- The value of an integer literal.  A wrong suffix is complained about with the text after the
base marker, a value that is too large with the whole text. -/
def readInt (radix : Radix) (text : List Char) : Except LexErrorKind IntLit := do
  let (digits, suffix) ← splitSuffix radix (text.drop radix.marker.length)
  match foldDigits radix 0 digits with
  | some value => .ok ⟨value, radix, suffix⟩
  | none => .error (.intOverflow (String.ofList text))

/-- The value of a whole exponent. -/
def exponentValue : List Char → Int
  | _ :: '-' :: digits => -(Radix.decimal.valueOf digits : Int)
  | digits => (Radix.decimal.valueOf digits : Int)

/-- The value of a float literal, whose suffix has to be that of a float type. -/
def readFloat (text : List Char) : Except LexErrorKind FloatLit :=
  let (whole, afterWhole) := run isDigitOrSeparator text
  let (fraction, afterFraction) := run isDigitOrSeparator (afterWhole.drop 1)
  let (exp, suffix) := exponent afterFraction
  let digits := Radix.decimal.valueOf (whole ++ fraction)
  let places := fraction.countP isDigit
  let bits := Decimal.nearest digits (exponentValue exp - places)
  if suffix.isEmpty then .ok ⟨bits, none⟩
  else match (Suffix.ofText? (String.ofList suffix)).filter Suffix.isFloat with
    | some s => .ok ⟨bits, some s⟩
    | none => .error (.invalidNumber (String.ofList text))

end SolSyntax.Lexing
