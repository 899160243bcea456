import SolSyntax.Grammar.Parse

/-!
# Patterns

A pattern is a path applied to atoms, or an atom.  An atom takes no arguments, so that a row of
atoms stays a row.
-/

namespace SolSyntax.Grammar

open Parse

/-- `(p)` -/
def patternGroup (pattern : Parse PatternId) : Parse PatternId := do
  let opening ← advance
  skipNewlines
  let inner ← pattern
  skipNewlines
  let close ← expectClosing .rparen opening.span
  newPattern (.group inner) (opening.span.merge close)

/-- A bare path. -/
def patternPath : Parse PatternId := do
  let p ← path
  newPattern (.constructor p []) p.span

/-- A literal, a bare path, `..`, or a pattern in parentheses, read by `pattern`. -/
def atomOf (pattern : Parse PatternId) (token : Token) : Parse PatternId :=
  match token.kind.literal? with
  | some value => do
    let _ ← advance
    newPattern (.literal value) token.span
  | none =>
    match token.kind with
    | .ident _ | .symbol _ => patternPath
    | .dotDot => do
      let _ ← advance
      newPattern .rest token.span
    | .lparen => patternGroup pattern
    | _ => failWanting .patternStart .expectedPattern

/-- The atom that begins with the current token. -/
def atomWith (pattern : Parse PatternId) : Parse PatternId := do
  atomOf pattern (← current)

/-- A path applied to atoms. -/
def patternApplication (pattern : Parse PatternId) : Parse PatternId := do
  let p ← path
  let args ← many (optionally (checkSet .patternStart) (atomWith pattern))
  newPattern (.constructor p args) (← spanFrom p.span)

/-- A path applied to atoms, or an atom, whose parentheses hold what `pattern` reads. -/
def patternWith (pattern : Parse PatternId) : Parse PatternId := do
  if ← checkSet .identStart then
    patternApplication pattern
  else
    atomWith pattern

/-- A pattern with at most so many parentheses around its parts. -/
def patternAt : Nat → Parse PatternId
  | 0 => exhausted
  | n + 1 => patternWith (patternAt n)

def pattern : Parse PatternId := bounded patternAt

def atom : Parse PatternId := bounded fun n => atomWith (patternAt n)

end SolSyntax.Grammar
