import SolSyntax.Diagnostic
import SolSyntax.TagSet

/-!
# Syntax errors

A syntax error tells what is wrong at which token, which tags would have been accepted there, and
inside which construct.  The causes that the grammar knows are the constructors of `Complaint`.
-/

namespace SolSyntax

/-- What the grammar complains about. -/
inductive Complaint where
  | expectedToken (tag : Tag)
  | expectedLineBreak
  | expectedParamList
  | expectedExpression
  /-- A group is not closed by the bracket that fits its opening. -/
  | unclosed (close : Tag)
  | expectedIdentifier
  | expectedPattern
  | noLambdaParam
  /-- An `if` that is a value lacks its `else`. -/
  | valueWithoutElse
  /-- An `if` that is the value of a block lacks its `else`. -/
  | lastWithoutElse
  | blockInType
  | danglingAttributes
  | expectedDeclaration
  deriving DecidableEq, Repr

namespace Complaint

def code : Complaint → ErrorCode
  | expectedToken _ | expectedLineBreak | expectedParamList => .unexpectedToken
  | expectedExpression => .expectedExpression
  | unclosed _ => .unclosedDelimiter
  | expectedIdentifier => .expectedIdentifier
  | expectedPattern | noLambdaParam => .expectedPattern
  | valueWithoutElse | lastWithoutElse => .missingElse
  | blockInType => .blockInType
  | danglingAttributes => .danglingAttributes
  | expectedDeclaration => .expectedDeclaration

/-- The message, where a token called `found` stands. -/
def message (found : String) : Complaint → String
  | expectedToken tag => s!"expected {tag.name}, found {found}"
  | expectedLineBreak => s!"expected a line break after the declaration, found {found}"
  | expectedParamList => s!"expected a parameter list, found {found}"
  | expectedExpression => s!"expected expression, found {found}"
  | unclosed close => s!"expected {close.name} to close the group, found {found}"
  | expectedIdentifier => s!"expected identifier, found {found}"
  | expectedPattern => s!"expected pattern, found {found}"
  | noLambdaParam => s!"expected a lambda parameter, found {found}"
  | valueWithoutElse => "`if` used as a value needs an `else` branch"
  | lastWithoutElse => "an `if` ending a block needs an `else` branch"
  | blockInType => "a trailing block cannot appear in a type"
  | danglingAttributes => "doc-strings and attributes must be followed by a declaration"
  | expectedDeclaration => s!"expected declaration, found {found}"

end Complaint

/-- The constructs that errors inside them mention. -/
inductive Construct where
  | attr
  | inductiveType
  | constructor
  | clauseValue
  | matchArm
  | letStatement
  deriving DecidableEq, Repr

def Construct.name : Construct → String
  | attr => "an attribute"
  | inductiveType => "an inductive type"
  | constructor => "a constructor"
  | clauseValue => "the right-hand side of a clause"
  | matchArm => "a match arm"
  | letStatement => "a `let` statement"

structure SyntaxError where
  code : ErrorCode
  message : String
  span : Span
  /-- Where the token stands that the error was noticed at. -/
  position : Position
  /-- What would have been accepted. -/
  expected : TagSet
  /-- What the token at the span is called. -/
  found : String
  /-- What was being read. -/
  context : Option String
  /-- The opening bracket of a group that is not closed. -/
  opened : Option Span
  deriving DecidableEq, Repr

namespace SyntaxError

def new (code : ErrorCode) (message : String) (span : Span) (position : Position)
    (found : String) : SyntaxError :=
  ⟨code, message, span, position, .empty, found, none, none⟩

def withExpected (e : SyntaxError) (expected : TagSet) : SyntaxError := { e with expected }

def withOpened (e : SyntaxError) (opened : Span) : SyntaxError := { e with opened := some opened }

/-- Says what was being read, unless something inside it has said so before. -/
def within (e : SyntaxError) (context : String) : SyntaxError :=
  { e with context := e.context <|> some context }

/-- Position and message. -/
def text (e : SyntaxError) : String := s!"{e.position.text}: {e.message}"

def toDiagnostic (e : SyntaxError) : Diagnostic where
  code := e.code
  severity := .error
  message := e.message
  labels :=
    ⟨e.span, s!"found {e.found}", true⟩ ::
      (e.opened.map fun s => ⟨s, "unclosed delimiter opened here", false⟩).toList
  notes := (e.context.map fun c => s!"while parsing {c}").toList
  expected := e.expected.names
  found := some e.found

end SyntaxError

end SolSyntax
