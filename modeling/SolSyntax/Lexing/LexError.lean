import SolSyntax.Diagnostic

/-!
# Lexical errors

A lexical error has a cause, the span that it concerns and the position where that starts.  Lexing
stops at the first one.
-/

namespace SolSyntax

/-- Why a source does not lex. -/
inductive LexErrorKind where
  | unterminatedString
  | unterminatedChar
  | invalidEscape (escape : String)
  /-- The value of an integer literal does not fit. -/
  | intOverflow (text : String)
  | invalidNumber (text : String)
  | unexpectedChar (found : Char)
  /-- The source has more bytes than offsets can tell apart. -/
  | sourceTooLarge (size : Nat)
  deriving DecidableEq, Repr

namespace LexErrorKind

def message : LexErrorKind → String
  | unterminatedString => "unterminated string literal"
  | unterminatedChar => "unterminated character literal"
  | invalidEscape escape => s!"invalid escape sequence `{escape}`"
  | intOverflow text => s!"integer literal `{text}` does not fit in 128 bits"
  | invalidNumber text => s!"malformed number literal `{text}`"
  | unexpectedChar found => s!"unexpected character `{found}`"
  | sourceTooLarge size =>
    s!"source is {size} bytes, more than a 32-bit offset can address"

def code : LexErrorKind → ErrorCode
  | unterminatedString => .unterminatedString
  | unterminatedChar => .unterminatedChar
  | invalidEscape _ => .invalidEscape
  | intOverflow _ => .intOverflow
  | invalidNumber _ => .invalidNumber
  | unexpectedChar _ => .unexpectedChar
  | sourceTooLarge _ => .sourceTooLarge

/-- What a diagnostic writes beside the span. -/
def label : LexErrorKind → String
  | unterminatedString => "missing closing `\"`"
  | unterminatedChar => "missing closing `'`"
  | invalidEscape _ => "invalid escape"
  | intOverflow _ => "out of range"
  | invalidNumber _ => "malformed literal"
  | unexpectedChar _ => "not valid here"
  | sourceTooLarge _ => "file too large"

end LexErrorKind

structure LexError where
  kind : LexErrorKind
  span : Span
  position : Position
  deriving DecidableEq, Repr

namespace LexError

def code (e : LexError) : ErrorCode := e.kind.code

/-- Position and message. -/
def text (e : LexError) : String := s!"{e.position.text}: {e.kind.message}"

def toDiagnostic (e : LexError) : Diagnostic where
  code := e.code
  severity := .error
  message := e.kind.message
  labels := [⟨e.span, e.kind.label, true⟩]
  notes := []
  expected := []
  found := none

end LexError

end SolSyntax
