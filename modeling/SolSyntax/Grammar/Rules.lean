import SolSyntax.Grammar.Pattern

/-!
# What productions of expressions refer to

Expressions, types and blocks contain one another.  Each production takes the readers of its parts
as a parameter, `Rules`, and so is a plain definition; the recursion is tied in one place.
-/

namespace SolSyntax.Grammar

/-- The readers of the parts of expressions. -/
structure Rules where
  /-- An expression of any form. -/
  expr : Context → Parse ExprId
  /-- An expression that is no lambda; a type, if the context says so. -/
  arrow : Context → Parse ExprId
  block : Parse Block

namespace Rules

/-- Where the bound on nesting is reached. -/
def exhausted : Rules := ⟨fun _ => Parse.exhausted, fun _ => Parse.exhausted, Parse.exhausted⟩

/-- An expression that is a value. -/
def value (r : Rules) : Parse ExprId := r.expr .none

/-- An expression that is a type. -/
def type (r : Rules) : Parse ExprId := r.arrow .type

end Rules

/-- `: type`, or nothing. -/
def optionalType (r : Rules) : Parse (Option ExprId) := optionally (accept .colon) r.type

end SolSyntax.Grammar
