import SolSyntax.Grammar.Rules

/-!
# Operands

What operators and applications are made of: literals, paths, groups, tuples and arrays, and the
forms that begin with a reserved word.  These last extend to the right on their own.
-/

namespace SolSyntax.Grammar

open Parse

/-- A bare path. -/
def pathExpr : Parse ExprId := do
  let p ← path
  newExpr (.path p) p.span

/-- `^name` -/
def freeVar : Parse ExprId := do
  let mark ← advance
  let name ← expectIdent
  newExpr (.freeVar name) (mark.span.merge name.span)

/-- What parentheses around expressions make of them: one expression without a comma is a group,
all else a tuple. -/
def groupOrTuple (items : List ExprId) (trailingComma : Bool) : ExprKind :=
  match items, trailingComma with
  | [item], false => .group item
  | items, trailingComma => .tuple items trailingComma

/-- `()`, `(e)`, `(e,)`, `(a, b, …)` -/
def parenthesized (r : Rules) (ctx : Context) : Parse ExprId := do
  let found ← bracketed .rparen (r.expr ctx.nested)
  newExpr (groupOrTuple found.items found.trailingComma) found.span

/-- `[a, b, …]` -/
def array (r : Rules) (ctx : Context) : Parse ExprId := do
  let found ← bracketed .rbracket (r.expr ctx.nested)
  newExpr (.array found.items) found.span

/-- A block, or an expression. -/
def branch (r : Rules) (ctx : Context) : Parse ExprId := do
  if ← isAt .lbrace then
    let block ← r.block
    newExpr (.block block) block.span
  else
    r.expr ctx

/-- The `else` of an `if`, perhaps after line breaks.  Where a value is wanted it has to be
there. -/
def elseBranch (r : Rules) (ctx : Context) (position : IfPosition) : Parse (Option ExprId) := do
  if ← look (·.tagPastNewlines == .kwElse) then
    skipNewlines
    let _ ← advance
    skipNewlines
    return some (← branch r ctx)
  else
    match position with
    | .expr => failWanting (.single .kwElse) .valueWithoutElse
    | .stmt => return none

/-- What an `if` asks, with the `then` after it and the line breaks around that. -/
def condition (r : Rules) : Parse ExprId := do
  let test ← r.expr .head
  skipNewlines
  let _ ← expect .kwThen
  skipNewlines
  return test

/-- `if test then a else b` -/
def conditional (r : Rules) (ctx : Context) (position : IfPosition) : Parse ExprId := do
  let start ← advance
  let test ← condition r
  let thenBranch ← branch r ctx
  let elseBranch ← elseBranch r ctx position
  newExpr (.cond test thenBranch elseBranch position) (← spanFrom start.span)

/-- `pattern => body` -/
def matchArm (r : Rules) : Parse MatchArm := do
  let pattern ← pattern
  let _ ← expect .fatArrow
  skipNewlines
  let body ← branch r .none
  return ⟨pattern, body, (← patternSpan pattern).merge (← exprSpan body)⟩

/-- `match e { pattern => body, … }`; a comma or line break ends an arm. -/
def caseAnalysis (r : Rules) : Parse ExprId := do
  let start ← advance
  let scrutinee ← r.expr .head
  let found ← braced (within .matchArm (matchArm r)) eatSeparators noObjection
  newExpr (.cases scrutinee found.1) (← spanFrom start.span)

/-- `return` with a value or without. -/
def returning (r : Rules) (ctx : Context) : Parse ExprId := do
  let start ← advance
  let value ← optionally (checkSet .exprStart) (r.expr ctx)
  newExpr (.ret value) (← spanFrom start.span)

/-- The operand that begins with a token. -/
def operandOf (r : Rules) (ctx : Context) (token : Token) : Parse ExprId :=
  match token.kind.literal? with
  | some value => do
    let _ ← advance
    newExpr (.literal value) token.span
  | none =>
    match token.kind with
    | .ident _ | .symbol _ => pathExpr
    | .caret => freeVar
    | .kwUniverse => do
      let _ ← advance
      newExpr .univ token.span
    | .lparen => parenthesized r ctx
    | .lbracket => array r ctx
    | .kwIf => conditional r ctx .expr
    | .kwMatch => caseAnalysis r
    | .kwReturn => returning r ctx
    | _ => failWanting .primaryStart .expectedExpression

def operand (r : Rules) (ctx : Context) : Parse ExprId := do
  operandOf r ctx (← current)

end SolSyntax.Grammar
