import SolSyntax.Grammar.Expr

/-!
# Declarations

A declaration has doc-strings, attributes and a visibility before it, and is one of: a command, a
`using`, an inductive type, a signature, a clause.  A name begins a signature or a clause; it is a
clause if an `=` follows on the same line, outside of brackets and before any brace.
-/

namespace SolSyntax.Grammar

open Parse

/-! ## What stands before a declaration -/

/-- `(a, b, …)` as arguments, or none. -/
def optionalArgs (p : Parse ExprId) : Parse (List ExprId) := do
  if ← check .lparen then
    return (← bracketed .rparen p).items
  else
    return []

/-- `@path` or `@path(args…)` -/
def attr (r : Rules) : Parse Attribute := do
  let start ← advance
  let name ← path
  let args ← optionalArgs r.value
  return ⟨name, args, ← spanFrom start.span⟩

/-- A doc-string or an attribute. -/
inductive Attachment where
  | doc (text : Name)
  | attr (value : Attribute)

/-- The doc-string or attribute that begins with a token, with the line breaks after it. -/
def attachmentOf (r : Rules) (token : Token) : Parse (Option Attachment) :=
  match token.kind with
  | .docString text => do
    let _ ← advance
    skipNewlines
    return some (.doc text)
  | .atSign => do
    let value ← within .attr (attr r)
    skipNewlines
    return some (.attr value)
  | _ => return none

/-- The next doc-string or attribute, if there is one. -/
def attachment (r : Rules) : Parse (Option Attachment) := do
  attachmentOf r (← current)

/-- Doc-strings and attributes, each in order. -/
def Attachment.collect (attachments : List Attachment) : Attributes :=
  ⟨attachments.filterMap fun a => match a with | .doc text => some text | _ => none,
    attachments.filterMap fun a => match a with | .attr v => some v | _ => none⟩

/-- All doc-strings and attributes that come next. -/
def attributes (r : Rules) : Parse Attributes := do
  return Attachment.collect (← many (attachment r))

/-- The visibility that a token asks for, which is taken. -/
def visibilityOf (token : Token) : Parse (Option Visibility) :=
  match token.kind.visibility? with
  | some v => do
    let _ ← advance
    return some v
  | none => return none

def visibility : Parse (Option Visibility) := do
  visibilityOf (← current)

/-! ## Parts of declarations -/

/-- Whether braces with parameters come next: another list or a colon follows them.  Any other
braces are a body. -/
def startsImplicitParams (c : Cursor) : Bool :=
  c.isAt .lbrace && [Tag.lparen, .lbracket, .lbrace, .colon].any c.groupFollowedBy

/-- Whether a parameter list after a declared name comes next. -/
def startsDeclParams : Parse Bool := do
  if ← check .lparen then return true
  else if ← check .lbracket then return true
  else look startsImplicitParams

/-- The parameter lists after a declared name. -/
def declParams (r : Rules) : Parse (List ParamSet) :=
  many (optionally startsDeclParams (paramSet r))

/-- Whether a declaration may end here. -/
def endsLine (c : Cursor) : Bool := c.isAt .newline || c.isAtEnd

/-! ## The forms of declarations -/

/-- `using path` -/
def usingDecl : Parse DeclKind := do
  let _ ← advance
  return .using (← path)

/-- Expressions with commas between them. -/
def commandArgs (r : Rules) : Parse (List ExprId) := do
  let first ← r.value
  let others ← many (optionally (accept .comma) r.value)
  return first :: others

/-- Arguments up to the end of the line. -/
def lineArgs (r : Rules) : Parse (List ExprId) := do
  if ← look endsLine then
    return []
  else
    commandArgs r

/-- `#name`, and arguments up to the end of the line. -/
def commandDecl (r : Rules) : Parse DeclKind := do
  let _ ← advance
  let name ← path
  let args ← lineArgs r
  return .command name args

/-- `Name : type`, `Name(type, …)` or `Name` -/
def constructorKind (r : Rules) : Parse ConstructorKind := do
  if ← accept .colon then
    return .signature (← r.type)
  else
    return .function (← optionalArgs r.type)

def constructor (r : Rules) : Parse Constructor := do
  let start ← current
  let attrs ← attributes r
  let name ← expectIdent
  let kind ← constructorKind r
  return ⟨attrs, name, kind, ← spanFrom start.span⟩

/-- `inductive path params : type { constructors }`, where a comma or line break ends a
constructor. -/
def inductiveDecl (r : Rules) : Parse DeclKind := do
  let _ ← advance
  let name ← path
  let params ← declParams r
  let type ← optionalType r
  let found ← braced (within .constructor (constructor r)) eatSeparators noObjection
  return .inductiveType name params type found.1

/-- `path params : type block`, all but the path optional. -/
def signatureDecl (r : Rules) : Parse DeclKind := do
  let name ← path
  let params ← declParams r
  let type ← optionalType r
  let body ← optionally (check .lbrace) r.block
  return .signature name params type body

/-- Whether the line goes on. -/
def continuesLine (c : Cursor) : Bool := !endsLine c

/-- `path atoms = value`, where the value may be left out. -/
def clauseDecl (r : Rules) : Parse DeclKind := do
  let name ← path
  let patterns ← many (optionally (isBefore .eq) atom)
  let _ ← advance
  let value ← optionally (look continuesLine) (within .clauseValue r.value)
  return .clause name patterns value

/-- Whether an `=` follows on the line, outside of brackets and before any brace. -/
def isClauseLine (c : Cursor) : Bool := c.lineHas .eq (.single .lbrace)

/-- A signature or a clause. -/
def namedDecl (r : Rules) : Parse DeclKind := do
  if ← look isClauseLine then
    clauseDecl r
  else
    signatureDecl r

/-- The declaration that begins with a tag. -/
def declKindOf (r : Rules) (tag : Tag) : Parse DeclKind :=
  match tag with
  | .kwUsing => usingDecl
  | .hash => commandDecl r
  | .kwInductive => within .inductiveType (inductiveDecl r)
  | .ident | .symbol => namedDecl r
  | _ => failWanting .declStart .expectedDeclaration

/-- A declaration without what stands before it. -/
def declKind (r : Rules) : Parse DeclKind := do
  declKindOf r (← look Cursor.currentTag)

/-- A declaration after its doc-strings and attributes, which begin where `start` does. -/
def attributed (r : Rules) (start : Span) (attrs : Attributes) : Parse Decl := do
  let visibility ← visibility
  let kind ← declKind r
  return ⟨attrs, visibility, kind, ← spanFrom start⟩

/-- Whether attributes come last in a module. -/
def isDangling (attrs : Attributes) (c : Cursor) : Bool := !attrs.isEmpty && c.isAtEnd

def decl (r : Rules) : Parse Decl := do
  let start ← current
  let attrs ← attributes r
  if ← look (isDangling attrs) then
    fail .danglingAttributes
  else
    attributed r start.span attrs

/-- The end of a line, which is left. -/
def lineEnd : Parse Unit := do
  if ← check .newline then
    return ()
  else if ← check .eof then
    return ()
  else
    fail .expectedLineBreak

/-- A declaration that ends its line. -/
def declLine (r : Rules) : Parse Decl := do
  let d ← decl r
  lineEnd
  return d

end SolSyntax.Grammar
