import SolSyntax.Grammar.Rules

/-!
# Parameter lists

A list in parentheses or braces holds `'a`, `pattern : type` or a bare type; one in square brackets
holds a bare pattern in place of a bare type.
-/

namespace SolSyntax.Grammar

open Parse

/-- Whether a colon comes before the comma or closing bracket that ends a parameter; `depth`
brackets are open at `i`. -/
def annotatedFrom (ts : TokenList) (i depth : Nat) : Bool :=
  if i < ts.size then
    let tag := ts.tagAt i
    if tag = .eof then false
    else if tag.isOpening then annotatedFrom ts (i + 1) (depth + 1)
    else if tag.isClosing then
      if depth = 0 then false else annotatedFrom ts (i + 1) (depth - 1)
    else if depth = 0 ∧ tag = .comma then false
    else if depth = 0 ∧ tag = .colon then true
    else annotatedFrom ts (i + 1) depth
  else false
termination_by ts.size - i

/-- Whether the parameter at the cursor has a type. -/
def isAnnotated (c : Cursor) : Bool := annotatedFrom c.tokens c.position 0

/-- Whether the parentheses at the cursor hold parameters: an arrow follows, and they start with a
quote or hold a colon outside of inner brackets. -/
def isParamList (c : Cursor) : Bool :=
  match c.matchingClose? c.position with
  | none => false
  | some close =>
    c.tagAt (close + 1) == .arrow &&
      (c.tagAt (c.position + 1) == .quote ||
        c.containsAtDepthZero (c.position + 1) close .colon)

/-- `'a` -/
def forAllParam : Parse Param := do
  let mark ← advance
  let name ← expectIdent
  return ⟨.forAll name, mark.span.merge name.span⟩

/-- `pattern : type` -/
def typedParam (r : Rules) : Parse ParamKind := do
  let binding ← pattern
  let _ ← expect .colon
  let type ← r.type
  return .typed (some binding) type

/-- What stands alone in a list of a given kind. -/
def bareParam (r : Rules) (kind : ParamSetKind) : Parse ParamKind :=
  match kind with
  | .sigma => return .untyped (← pattern)
  | _ => return .typed none (← r.type)

/-- A parameter that ranges over the members of a type. -/
def memberParam (r : Rules) (kind : ParamSetKind) : Parse ParamKind := do
  if ← look isAnnotated then
    typedParam r
  else
    bareParam r kind

def param (r : Rules) (kind : ParamSetKind) : Parse Param := do
  let start ← current
  if ← check .quote then
    forAllParam
  else
    let kind ← memberParam r kind
    return ⟨kind, ← spanFrom start.span⟩

/-- The kind of a parameter list and the bracket that closes it, told by the one that opens it. -/
def paramSetShape? : Tag → Option (ParamSetKind × Tag)
  | .lparen => some (.explicit, .rparen)
  | .lbrace => some (.implicit, .rbrace)
  | .lbracket => some (.sigma, .rbracket)
  | _ => none

/-- The parameter list that begins with a token of a given tag. -/
def paramSetOf (r : Rules) (tag : Tag) : Parse ParamSet :=
  match paramSetShape? tag with
  | none => failWanting .paramListStart .expectedParamList
  | some (kind, close) => do
    let found ← bracketed close (param r kind)
    return ⟨kind, found.items, found.span⟩

def paramSet (r : Rules) : Parse ParamSet := do
  paramSetOf r (← look Cursor.currentTag)

end SolSyntax.Grammar
