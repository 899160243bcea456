/-!
# Error codes

A code names a class of errors.  Its text is `E` and four digits, the first of which tells the
phase: 0 for lexing and 1 for parsing.
-/

namespace SolSyntax

inductive ErrorCode where
  | unterminatedString
  | unterminatedChar
  | invalidEscape
  | intOverflow
  | invalidNumber
  | unexpectedChar
  | sourceTooLarge
  | unexpectedToken
  | expectedExpression
  | unclosedDelimiter
  | expectedIdentifier
  | expectedPattern
  | missingElse
  | blockInType
  | danglingAttributes
  | expectedDeclaration
  deriving DecidableEq, Repr

namespace ErrorCode

def all : List ErrorCode :=
  [unterminatedString, unterminatedChar, invalidEscape, intOverflow, invalidNumber, unexpectedChar,
    sourceTooLarge, unexpectedToken, expectedExpression, unclosedDelimiter, expectedIdentifier,
    expectedPattern, missingElse, blockInType, danglingAttributes, expectedDeclaration]

def text : ErrorCode → String
  | unterminatedString => "E0001"
  | unterminatedChar => "E0002"
  | invalidEscape => "E0003"
  | intOverflow => "E0004"
  | invalidNumber => "E0005"
  | unexpectedChar => "E0006"
  | sourceTooLarge => "E0007"
  | unexpectedToken => "E1001"
  | expectedExpression => "E1002"
  | unclosedDelimiter => "E1003"
  | expectedIdentifier => "E1004"
  | expectedPattern => "E1005"
  | missingElse => "E1006"
  | blockInType => "E1007"
  | danglingAttributes => "E1008"
  | expectedDeclaration => "E1009"

def ofText? (s : String) : Option ErrorCode := all.find? (·.text == s)

@[simp] theorem ofText?_text (c : ErrorCode) : ofText? c.text = some c := by cases c <;> decide

/-- One line on what the errors of this class have in common. -/
def description : ErrorCode → String
  | unterminatedString => "unterminated string literal"
  | unterminatedChar => "unterminated character literal"
  | invalidEscape => "invalid escape sequence"
  | intOverflow => "integer literal out of range"
  | invalidNumber => "malformed number literal"
  | unexpectedChar => "unexpected character"
  | sourceTooLarge => "source file too large"
  | unexpectedToken => "unexpected token"
  | expectedExpression => "expected expression"
  | unclosedDelimiter => "unclosed delimiter"
  | expectedIdentifier => "expected identifier"
  | expectedPattern => "expected pattern"
  | missingElse => "`if` expression without `else`"
  | blockInType => "trailing block in type position"
  | danglingAttributes => "doc-string or attribute without a declaration"
  | expectedDeclaration => "expected declaration"

/-- Whether errors of this class come from lexing. -/
def isLexical (c : ErrorCode) : Bool := c.text.toList[1]? == some '0'

/-- Whether errors of this class come from parsing. -/
def isSyntactic (c : ErrorCode) : Bool := c.text.toList[1]? == some '1'

end ErrorCode

end SolSyntax
