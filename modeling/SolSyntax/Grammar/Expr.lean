import SolSyntax.Grammar.Operand
import SolSyntax.Grammar.Param

/-!
# Expressions

One grammar serves values and types.  Its levels, loosest first:

1. `lambda` — `|atoms| body`;
2. `arrow` — parameters or a domain, `->`, and a result that nests to the right;
3. `sigma` — `[params] => result`;
4. `annotated` — `e is T`, to the left;
5. `chain` — operands with operators between them, of one precedence, to the left;
6. `application` — an operand and its arguments, perhaps with a block;
7. `operand`.
-/

namespace SolSyntax.Grammar

open Parse

/-- Whether an expression extends to the right on its own and takes no arguments. -/
def isClosedForm (id : ExprId) : Parse Bool := fun s =>
  let closed :=
    match (s.arena.expr? id).map Expr.kind with
    | some (.cond _ _ _ _) | some (.cases _ _) | some (.ret _) => true
    | _ => false
  .ok closed s

/-- A block after the arguments, where the context allows one. -/
def blockArgument (r : Rules) (ctx : Context) : Parse (Option Block) :=
  if ctx.allowsBlockCall then optionally (check .lbrace) r.block else return none

/-- What an application is in a context. -/
def applicationKind (ctx : Context) (callee : ExprId) (args : List ExprId) (block : Option Block) :
    ExprKind :=
  if ctx.inType then .typeApp callee args else .app callee args block

/-- Arguments after a callee, and in a value perhaps a block; or none of them. -/
def applied (r : Rules) (ctx : Context) (callee : ExprId) : Parse ExprId := do
  let args ← many (optionally (checkSet .argStart) (operand r ctx))
  let block ← blockArgument r ctx
  if args.isEmpty && block.isNone then
    return callee
  else
    let span ← spanFrom (← exprSpan callee)
    newExpr (applicationKind ctx callee args block) span

/-- An operand and its arguments. -/
def application (r : Rules) (ctx : Context) : Parse ExprId := do
  let callee ← operand r ctx
  if ← isClosedForm callee then
    return callee
  else
    applied r ctx callee

/-- Whether the point at the cursor touches both its neighbours. -/
def isTightDot (c : Cursor) : Bool :=
  Cursor.adjacent c.previousSpan c.current.span && Cursor.adjacent c.current.span c.nextSpan

/-- The name of a sign that is used as an operator. -/
def signOperator (text : String) (span : Span) : Parse (Option Ident) := do
  return some ⟨← intern text, .symbol, span⟩

/-- The operator that a token is, if it is one.  A point that touches both its neighbours belongs
to a path. -/
def operatorOf (token : Token) : Parse (Option Ident) :=
  match token.kind with
  | .operator name => return some ⟨name, .symbol, token.span⟩
  | .pipe => signOperator "|" token.span
  | .dot => do
    if ← look isTightDot then
      return none
    else
      signOperator "." token.span
  | _ => do
    note .binaryOperator
    return none

/-- The operator at the cursor, if there is one. -/
def operator? : Parse (Option Ident) := do
  operatorOf (← current)

/-- An operator's right side, joined with what stands on its left. -/
def joined (r : Rules) (ctx : Context) (lhs : ExprId) (op : Ident) : Parse ExprId := do
  let _ ← advance
  let rhs ← application r ctx
  let span := (← exprSpan lhs).merge (← exprSpan rhs)
  newExpr (.binary lhs op rhs) span

/-- Joins one more operand to a chain, or ends it. -/
def chainTurn (r : Rules) (ctx : Context) (lhs : ExprId) : Parse (ForInStep ExprId) := do
  match ← operator? with
  | none => return .done lhs
  | some op => return .yield (← joined r ctx lhs op)

/-- `a $ b % c`, which is `(a $ b) % c`. -/
def chain (r : Rules) (ctx : Context) : Parse ExprId := do
  repeating (chainTurn r ctx) (← application r ctx)

/-- The type of an annotation, joined with what it annotates. -/
def ascribed (r : Rules) (value : ExprId) : Parse ExprId := do
  let type ← r.arrow .annotationType
  let span := (← exprSpan value).merge (← exprSpan type)
  newExpr (.ann value type) span

/-- Annotates a value once more, or ends the row of annotations. -/
def annotationTurn (r : Rules) (value : ExprId) : Parse (ForInStep ExprId) := do
  if ← accept .kwIs then
    return .yield (← ascribed r value)
  else
    return .done value

/-- `e is T is U`, which is `(e is T) is U`. -/
def annotated (r : Rules) (ctx : Context) : Parse ExprId := do
  let value ← chain r ctx
  if ctx.allowsAnnotation then
    repeating (annotationTurn r) value
  else
    return value

/-- Whether parameters in square brackets and a fat arrow come next. -/
def startsSigma (c : Cursor) : Bool := c.isAt .lbracket && c.groupFollowedBy .fatArrow

/-- The result after a fat arrow. -/
def sigmaResult (r : Rules) (ctx : Context) (params : ParamSet) : Parse ExprId := do
  let result ← r.arrow (ctx.union .type)
  newExpr (.sigma params result) (params.span.merge (← exprSpan result))

/-- `[params] => result`, or an annotation. -/
def sigma (r : Rules) (ctx : Context) : Parse ExprId := do
  if ← look startsSigma then
    let params ← paramSet r
    let _ ← expect .fatArrow
    sigmaResult r ctx params
  else
    annotated r ctx

/-- The result after an arrow. -/
def arrowResult (r : Rules) (ctx : Context) (params : ParamSet) : Parse ExprId := do
  let result ← r.arrow (ctx.union .type)
  newExpr (.pi params result) (params.span.merge (← exprSpan result))

/-- Reads an expression again as a type, which may not hold a block. -/
def toType (id : ExprId) : Parse Unit := fun s =>
  match s.arena.toType id with
  | (.ok (), arena) => .ok () { s with arena }
  | (.error e, arena) =>
    let complaint := Complaint.blockInType
    let found := Tag.name .lbrace
    .error
      (.error (.new complaint.code (complaint.message found) e.span s.cursor.current.position found))
      { s with arena }

/-- A type without a name as the only parameter. -/
def domainParams (domain : ExprId) (span : Span) : ParamSet :=
  ⟨.domain, [⟨.typed none domain, span⟩], span⟩

/-- The result after a domain and an arrow. -/
def domainResult (r : Rules) (ctx : Context) (domain : ExprId) : Parse ExprId := do
  toType domain
  arrowResult r ctx (domainParams domain (← exprSpan domain))

/-- A domain, an arrow and a result, or what stands before the arrow alone. -/
def domainArrow (r : Rules) (ctx : Context) : Parse ExprId := do
  let domain ← sigma r ctx
  if ← accept .arrow then
    domainResult r ctx domain
  else
    return domain

/-- Whether a parameter list in parentheses or braces and an arrow come next. -/
def startsParamList (c : Cursor) : Bool :=
  c.isAt .lbrace && c.groupFollowedBy .arrow || c.isAt .lparen && isParamList c

/-- Parameters or a domain, an arrow and a result; or what stands before the arrow alone. -/
def arrow (r : Rules) (ctx : Context) : Parse ExprId := do
  if ← look startsParamList then
    let params ← paramSet r
    let _ ← expect .arrow
    arrowResult r ctx params
  else
    domainArrow r ctx

/-- Whether the current token is another than the one that ends a row; a miss is remembered. -/
def isBefore (stop : Tag) : Parse Bool := return !(← check stop)

/-- The body of a lambda after its parameters. -/
def lambdaBody (r : Rules) (ctx : Context) (start : Span) (params : List PatternId) :
    Parse ExprId := do
  if params.isEmpty then
    fail .noLambdaParam
  else
    let _ ← advance
    let body ← r.expr ctx
    newExpr (.lambda params body) (start.merge (← exprSpan body))

/-- `|atoms| body`, or an expression that is no lambda. -/
def lambda (r : Rules) (ctx : Context) : Parse ExprId := do
  if ← check .pipe then
    let start ← advance
    let params ← many (optionally (isBefore .pipe) atom)
    lambdaBody r ctx start.span params
  else
    arrow r ctx

/-! ## Blocks -/

/-- `let pattern : type = value`, where the type may be left out. -/
def letStmt (r : Rules) : Parse Stmt := do
  let start ← advance
  let pattern ← pattern
  let type ← optionalType r
  let _ ← expect .eq
  let value ← r.value
  return .letIn pattern type value (← spanFrom start.span)

def stmt (r : Rules) : Parse Stmt := do
  if ← isAt .kwLet then
    within .letStatement (letStmt r)
  else if ← isAt .kwIf then
    return .expr (← conditional r .none .stmt)
  else
    return .expr (← r.value)

/-- Whether an expression is an `if` without `else`. -/
def isOpenIf (id : ExprId) : Parse Bool := fun s =>
  let isOpen :=
    match (s.arena.expr? id).map Expr.kind with
    | some (.cond _ _ none .stmt) => true
    | _ => false
  .ok isOpen s

/-- The last statement of a block is its value, so an `if` there needs an `else`. -/
def rejectOpenIf (stmts : List Stmt) : Parse Unit :=
  match stmts.getLast? with
  | some (.expr last) => do
    if ← isOpenIf last then
      failWanting (.single .kwElse) .lastWithoutElse
    else
      return ()
  | _ => return ()

/-- Statements in braces, with line breaks between them. -/
def block (r : Rules) : Parse Block := do
  let found ← braced (stmt r) breakSeparator rejectOpenIf
  return ⟨found.1, found.2⟩

/-! ## Tying the recursion -/

/-- The readers of expressions whose parts are nested at most so deep. -/
def rules : Nat → Rules
  | 0 => .exhausted
  | n + 1 => ⟨lambda (rules n), arrow (rules n), block (rules n)⟩

end SolSyntax.Grammar
