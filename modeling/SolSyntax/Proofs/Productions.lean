import SolSyntax.Grammar.Decl

/-!
# What productions have from their steps

Many a property of steps goes over to what is built of them: to one step after another, to a choice, to a
loop.  Such a property is `Sequential`.  It is `Closed` if all steps on the cursor have it, and then every
production that stores nothing has it; `Storing` if patterns and most expressions are stored by steps that
have it; and `Binding` if all expressions are, also those that bind a parameter list.  `Has P p` says that
`p` has the property `P`.  Its instances follow the grammar, production by production, and are proved here
once for all properties.

A property that a production has for a reason of its own is proved for that production alone; the
instances are stated so that it then serves those that contain the production.  This concerns `toType`,
`sigma`, `domainResult`, `domainArrow` and `arrow`.

Principal results: `Has` instances for every production up to `declLine`; `Rules.have_rules` — the readers
of expressions, types and blocks have a property that arrows have.
-/

-- instances are long terms, as productions have many steps
set_option synthInstance.maxSize 1000

namespace SolSyntax

namespace Cursor

/-- Where a cursor stands, whatever has been missed there. -/
def place (c : Cursor) : TokenList × Nat := (c.tokens, c.position)

/-- A question about the place alone. -/
class OfPlace (f : Cursor → β) : Prop where
  eq : ∀ c d : Cursor, c.place = d.place → f c = f d

/-- What does not look at what has been missed. -/
theorem OfPlace.of_unmissed {f : Cursor → β} (h : ∀ c : Cursor, f c = f ⟨c.tokens, c.position, 0, .empty⟩) :
    OfPlace f := by
  refine ⟨fun c d hplace => ?_⟩
  obtain ⟨htokens, hposition⟩ := Prod.mk.inj hplace
  rw [h c, h d, htokens, hposition]

instance : OfPlace current := .of_unmissed fun _ => rfl
instance : OfPlace previousSpan := .of_unmissed fun _ => rfl
instance : OfPlace currentTag := .of_unmissed fun _ => rfl
instance (t : Tag) : OfPlace (isAt · t) := .of_unmissed fun _ => rfl
instance : OfPlace isAtEnd := .of_unmissed fun _ => rfl
instance (t : Tag) : OfPlace (tagPastNewlines · == t) := .of_unmissed fun _ => rfl
instance : OfPlace Grammar.isPathDot := .of_unmissed fun _ => rfl
instance : OfPlace Grammar.isTightDot := .of_unmissed fun _ => rfl
instance : OfPlace Grammar.isAnnotated := .of_unmissed fun _ => rfl
instance : OfPlace Grammar.startsSigma := .of_unmissed fun _ => rfl
instance : OfPlace Grammar.startsParamList := .of_unmissed fun _ => rfl
instance : OfPlace Grammar.startsImplicitParams := .of_unmissed fun _ => rfl
instance : OfPlace Grammar.endsLine := .of_unmissed fun _ => rfl
instance : OfPlace Grammar.continuesLine := .of_unmissed fun _ => rfl
instance : OfPlace Grammar.isClauseLine := .of_unmissed fun _ => rfl
instance (attrs : Attributes) : OfPlace (Grammar.isDangling attrs) := .of_unmissed fun _ => rfl

end Cursor

open Cursor (OfPlace)

/-- The forms of expressions that bind no parameters of a list. -/
class ExprKind.Unbinding (kind : ExprKind) : Prop where
  ne_pi : ∀ params result, kind ≠ .pi params result
  ne_sigma : ∀ params result, kind ≠ .sigma params result

namespace ExprKind.Unbinding

instance (value : Literal) : Unbinding (.literal value) := ⟨nofun, nofun⟩
instance (path : Path) : Unbinding (.path path) := ⟨nofun, nofun⟩
instance (name : Ident) : Unbinding (.freeVar name) := ⟨nofun, nofun⟩
instance : Unbinding .univ := ⟨nofun, nofun⟩
instance (inner : ExprId) : Unbinding (.group inner) := ⟨nofun, nofun⟩
instance (items : List ExprId) (comma : Bool) : Unbinding (.tuple items comma) := ⟨nofun, nofun⟩
instance (items : List ExprId) : Unbinding (.array items) := ⟨nofun, nofun⟩
instance (params : List PatternId) (body : ExprId) : Unbinding (.lambda params body) := ⟨nofun, nofun⟩
instance (callee : ExprId) (args : List ExprId) (block : Option Block) : Unbinding (.app callee args block) :=
  ⟨nofun, nofun⟩
instance (callee : ExprId) (args : List ExprId) : Unbinding (.typeApp callee args) := ⟨nofun, nofun⟩
instance (lhs rhs : ExprId) (op : Ident) : Unbinding (.binary lhs op rhs) := ⟨nofun, nofun⟩
instance (value type : ExprId) : Unbinding (.ann value type) := ⟨nofun, nofun⟩
instance (scrutinee : ExprId) (arms : List MatchArm) : Unbinding (.cases scrutinee arms) := ⟨nofun, nofun⟩
instance (test thenBranch : ExprId) (elseBranch : Option ExprId) (position : IfPosition) :
    Unbinding (.cond test thenBranch elseBranch position) := ⟨nofun, nofun⟩
instance (value : Option ExprId) : Unbinding (.ret value) := ⟨nofun, nofun⟩
instance (block : Block) : Unbinding (.block block) := ⟨nofun, nofun⟩

instance (items : List ExprId) (comma : Bool) : Unbinding (Grammar.groupOrTuple items comma) := by
  unfold Grammar.groupOrTuple
  split <;> infer_instance

instance (ctx : Context) (callee : ExprId) (args : List ExprId) (block : Option Block) :
    Unbinding (Grammar.applicationKind ctx callee args block) := by
  unfold Grammar.applicationKind
  split <;> infer_instance

end ExprKind.Unbinding

namespace Grammar

open Parse

/-! ## Properties of steps -/

/-- A property of steps, whatever they give. -/
abbrev Property := (α : Type) → Parse α → Prop

/-- A property that goes over from steps to what is built of them. -/
class Sequential (P : Property) : Prop where
  pure (a : α) : P α (pure a)
  bind {p : Parse α} {f : α → Parse β} : P α p → (∀ a, P β (f a)) → P β (p >>= f)
  exhausted : P α exhausted
  within {p : Parse α} (what : Construct) : P α p → P α (within what p)
  bounded {p : Nat → Parse α} : (∀ n, P α (p n)) → P α (bounded p)

/-- Such a property, if all steps on the cursor have it. -/
class Closed (P : Property) : Prop extends Sequential P where
  look (f : Cursor → α) [OfPlace f] : P α (look f)
  note (set : TagSet) : P Unit (note set)
  check (tag : Tag) : P Bool (check tag)
  checkSet (set : TagSet) : P Bool (checkSet set)
  advance : P Token advance
  expect (tag : Tag) : P Token (expect tag)
  expectIdent : P Ident expectIdent
  skipNewlines : P Unit skipNewlines
  eatSeparators : P Bool eatSeparators
  /-- A block in a type is complained of by no step on the cursor. -/
  fail {c : Complaint} : c.code ≠ .blockInType → P α (fail c)
  /-- A bracket is missing. -/
  unclosed (close : Tag) (opening : Span) :
    P Span (Parse.look (·.complain (.unclosed close)) >>= fun e => raise (e.withOpened opening))
  exprSpan (id : ExprId) : P Span (exprSpan id)
  patternSpan (id : PatternId) : P Span (patternSpan id)
  intern (text : String) : P Name (intern text)
  isClosedForm (id : ExprId) : P Bool (isClosedForm id)
  isOpenIf (id : ExprId) : P Bool (isOpenIf id)

/-- What two closed properties imply is closed, if it goes over to what is built of steps. -/
theorem Closed.of_both {P Q R : Property} [Closed P] [Closed Q] [Sequential R]
    (h : ∀ {α : Type} {p : Parse α}, P α p → Q α p → R α p) : Closed R where
  look f := h (Closed.look f) (Closed.look f)
  note set := h (Closed.note set) (Closed.note set)
  check tag := h (Closed.check tag) (Closed.check tag)
  checkSet set := h (Closed.checkSet set) (Closed.checkSet set)
  advance := h Closed.advance Closed.advance
  expect tag := h (Closed.expect tag) (Closed.expect tag)
  expectIdent := h Closed.expectIdent Closed.expectIdent
  skipNewlines := h Closed.skipNewlines Closed.skipNewlines
  eatSeparators := h Closed.eatSeparators Closed.eatSeparators
  fail hc := h (Closed.fail hc) (Closed.fail hc)
  unclosed close opening := h (Closed.unclosed close opening) (Closed.unclosed close opening)
  exprSpan id := h (Closed.exprSpan id) (Closed.exprSpan id)
  patternSpan id := h (Closed.patternSpan id) (Closed.patternSpan id)
  intern text := h (Closed.intern text) (Closed.intern text)
  isClosedForm id := h (Closed.isClosedForm id) (Closed.isClosedForm id)
  isOpenIf id := h (Closed.isOpenIf id) (Closed.isOpenIf id)

/-- Patterns, and the expressions that bind no parameters of a list, are stored by steps with the property. -/
class Storing (P : Property) : Prop where
  newPattern (kind : PatternKind) (span : Span) : P PatternId (newPattern kind span)
  newExpr (kind : ExprKind) [kind.Unbinding] (span : Span) : P ExprId (newExpr kind span)

/-- All expressions are stored by steps with the property. -/
class Binding (P : Property) : Prop where
  newExpr (kind : ExprKind) (span : Span) : P ExprId (newExpr kind span)

/-- A step that has a property. -/
class Has (P : Property) (p : Parse α) : Prop where
  has : P α p

namespace Has

section Sequential

variable {P : Property} [Sequential P] {p : Parse α}

instance (a : α) : Has P (pure a) := ⟨Sequential.pure a⟩

instance [hp : Has P p] {f : α → Parse β} [hf : ∀ a, Has P (f a)] : Has P (p >>= f) :=
  ⟨Sequential.bind hp.has fun a => (hf a).has⟩

instance [Has P p] {q : Parse α} [Has P q] {c : Prop} [Decidable c] : Has P (if c then p else q) := by
  split <;> infer_instance

instance : Has P (exhausted : Parse α) := ⟨Sequential.exhausted⟩
instance [hp : Has P p] (what : Construct) : Has P (within what p) := ⟨Sequential.within what hp.has⟩
instance {p : Nat → Parse α} [hp : ∀ n, Has P (p n)] : Has P (bounded p) :=
  ⟨Sequential.bounded fun n => (hp n).has⟩

/-! ### Loops and rows -/

/-- Whether a loop goes on or not does not matter. -/
theorem afterTurn {k : β → Parse β} (h : ∀ b, Has P (k b)) (step : ForInStep β) :
    Has P (match step with
      | .done b => pure b
      | .yield b => k b) := by
  cases step with
  | done b => exact inferInstanceAs (Has P (pure b))
  | yield b => exact h b

section Loops

variable {body : β → Parse (ForInStep β)} [∀ b, Has P (body b)]

instance (n : Nat) (b : β) : Has P (turns body n b) := by
  induction n generalizing b with
  | zero => unfold turns; infer_instance
  | succ n ih =>
    have := afterTurn ih
    unfold turns
    infer_instance

instance (b : β) : Has P (repeating body b) := by unfold repeating; infer_instance

end Loops

instance {test : Parse Bool} [Has P test] [Has P p] : Has P (optionally test p) := by
  unfold optionally; infer_instance

/-- Whether there is one more item or not does not matter. -/
theorem afterItem (P : Property) [Sequential P] (items : List α) (o : Option α) :
    Has P (match o with
      | some a => (pure (.yield (a :: items)) : Parse (ForInStep (List α)))
      | none => pure (.done items)) := by
  cases o <;> infer_instance

instance {item : Parse (Option α)} [Has P item] (items : List α) : Has P (manyTurn item items) := by
  have := afterItem P items
  unfold manyTurn
  infer_instance

instance {item : Parse (Option α)} [Has P item] : Has P (many item) := by unfold many; infer_instance

instance (items : List α) : Has P (noObjection items) := by unfold noObjection; infer_instance

/-- Whether an operator comes next or not does not matter. -/
theorem afterOperator (P : Property) [Sequential P] (lhs : ExprId) (join : Ident → Parse ExprId)
    [∀ op, Has P (join op)] (o : Option Ident) : Has P (match o with
      | none => (pure (.done lhs) : Parse (ForInStep ExprId))
      | some op => do return .yield (← join op)) := by
  cases o <;> infer_instance

end Sequential

/-! ### Steps on the cursor, and lists -/

section Closed

variable {P : Property} [Closed P] {p : Parse α}

instance (f : Cursor → α) [OfPlace f] : Has P (look f) := ⟨Closed.look f⟩
instance (set : TagSet) : Has P (note set) := ⟨Closed.note set⟩
instance (tag : Tag) : Has P (check tag) := ⟨Closed.check tag⟩
instance (set : TagSet) : Has P (checkSet set) := ⟨Closed.checkSet set⟩
instance : Has P advance := ⟨Closed.advance⟩
instance (tag : Tag) : Has P (expect tag) := ⟨Closed.expect tag⟩
instance : Has P expectIdent := ⟨Closed.expectIdent⟩
instance : Has P skipNewlines := ⟨Closed.skipNewlines⟩
instance : Has P eatSeparators := ⟨Closed.eatSeparators⟩
instance (id : ExprId) : Has P (exprSpan id) := ⟨Closed.exprSpan id⟩
instance (id : PatternId) : Has P (patternSpan id) := ⟨Closed.patternSpan id⟩
instance (text : String) : Has P (intern text) := ⟨Closed.intern text⟩
instance (id : ExprId) : Has P (isClosedForm id) := ⟨Closed.isClosedForm id⟩
instance (id : ExprId) : Has P (isOpenIf id) := ⟨Closed.isOpenIf id⟩

theorem fail {c : Complaint} (h : c.code ≠ .blockInType) : Has P (fail c : Parse α) := ⟨Closed.fail h⟩

theorem failWanting {set : TagSet} {c : Complaint} (h : c.code ≠ .blockInType) :
    Has P (failWanting set c : Parse α) := by
  have : Has P (Parse.fail c : Parse α) := fail h
  unfold Grammar.failWanting
  infer_instance

instance (close : Tag) (opening : Span) : Has P (expectClosing close opening) := by
  have : Has P _ := ⟨Closed.unclosed close opening⟩
  unfold expectClosing
  infer_instance

instance : Has P current := by unfold current; infer_instance
instance : Has P previousSpan := by unfold previousSpan; infer_instance
instance (tag : Tag) : Has P (isAt tag) := by unfold isAt; infer_instance
instance (tag : Tag) : Has P (accept tag) := by unfold accept; infer_instance
instance (start : Span) : Has P (spanFrom start) := by unfold spanFrom; infer_instance
instance (stop : Tag) : Has P (isBefore stop) := by unfold isBefore; infer_instance

section Lists

variable {close : Tag} {separator : Parse Bool} [Has P p] [Has P separator]

instance (found : List α × Bool) : Has P (sequenceTurn close p separator found) := by
  unfold sequenceTurn; infer_instance

instance : Has P (sequence close p separator) := by unfold sequence; infer_instance

instance {finish : List α → Parse Unit} [∀ items, Has P (finish items)] : Has P (braced p separator finish) := by
  unfold braced; infer_instance

end Lists

instance : Has P commaSeparator := by unfold commaSeparator; infer_instance
instance : Has P breakSeparator := by unfold breakSeparator; infer_instance
instance {close : Tag} [Has P p] : Has P (bracketed close p) := by unfold bracketed; infer_instance

/-! ### Productions that store nothing -/

instance : Has P segment := by unfold segment; infer_instance
instance : Has P path := by unfold path; infer_instance
instance : Has P forAllParam := by unfold forAllParam; infer_instance

instance (text : String) (span : Span) : Has P (signOperator text span) := by unfold signOperator; infer_instance
instance (token : Token) : Has P (operatorOf token) := by
  unfold operatorOf
  split <;> infer_instance
instance : Has P operator? := by unfold operator?; infer_instance

instance (stmts : List Stmt) : Has P (rejectOpenIf stmts) := by
  have : Has P (Grammar.failWanting (.single .kwElse) .lastWithoutElse : Parse Unit) := failWanting nofun
  unfold rejectOpenIf
  split <;> infer_instance

instance (token : Token) : Has P (visibilityOf token) := by
  unfold visibilityOf
  split <;> infer_instance
instance : Has P visibility := by unfold visibility; infer_instance
instance : Has P startsDeclParams := by unfold startsDeclParams; infer_instance
instance : Has P usingDecl := by unfold usingDecl; infer_instance
instance {p : Parse ExprId} [Has P p] : Has P (optionalArgs p) := by unfold optionalArgs; infer_instance

instance : Has P lineEnd := by
  have : Has P (Parse.fail .expectedLineBreak : Parse Unit) := fail nofun
  unfold lineEnd
  infer_instance

end Closed

/-! ## Patterns -/

section Patterns

variable {P : Property} [Closed P] [Storing P] {q : Parse PatternId} [Has P q]

instance (kind : PatternKind) (span : Span) : Has P (newPattern kind span) := ⟨Storing.newPattern kind span⟩

instance : Has P patternPath := by unfold patternPath; infer_instance
instance : Has P (patternGroup q) := by unfold patternGroup; infer_instance

instance (token : Token) : Has P (atomOf q token) := by
  have : Has P (Grammar.failWanting .patternStart .expectedPattern : Parse PatternId) := failWanting nofun
  unfold atomOf
  split
  · infer_instance
  · split <;> infer_instance

instance : Has P (atomWith q) := by unfold atomWith; infer_instance
instance : Has P (patternApplication q) := by unfold patternApplication; infer_instance
instance : Has P (patternWith q) := by unfold patternWith; infer_instance

instance (n : Nat) : Has P (patternAt n) := by
  induction n with
  | zero => unfold patternAt; infer_instance
  | succ n ih => unfold patternAt; infer_instance

instance : Has P pattern := by unfold pattern; infer_instance
instance : Has P atom := by unfold atom; infer_instance

end Patterns

end Has

/-! ## Expressions -/

/-- Readers that have a property. -/
class Rules.Have (P : Property) (r : Rules) : Prop where
  expr : ∀ ctx, P ExprId (r.expr ctx)
  arrow : ∀ ctx, P ExprId (r.arrow ctx)
  block : P Block r.block

namespace Has

section Expressions

variable {P : Property} [Closed P] [Storing P] {r : Rules} [h : r.Have P] (ctx : Context)

instance (kind : ExprKind) [kind.Unbinding] (span : Span) : Has P (newExpr kind span) := ⟨Storing.newExpr kind span⟩

instance : Has P (r.expr ctx) := ⟨h.expr ctx⟩
instance : Has P (r.arrow ctx) := ⟨h.arrow ctx⟩
instance : Has P r.block := ⟨h.block⟩
instance : Has P r.value := ⟨h.expr _⟩
instance : Has P r.type := ⟨h.arrow _⟩

instance : Has P (optionalType r) := by unfold optionalType; infer_instance
instance : Has P (typedParam r) := by unfold typedParam; infer_instance
instance (kind : ParamSetKind) : Has P (bareParam r kind) := by
  unfold bareParam
  split <;> infer_instance
instance (kind : ParamSetKind) : Has P (memberParam r kind) := by unfold memberParam; infer_instance
instance (kind : ParamSetKind) : Has P (param r kind) := by unfold param; infer_instance
instance (tag : Tag) : Has P (paramSetOf r tag) := by
  have : Has P (Grammar.failWanting .paramListStart .expectedParamList : Parse ParamSet) := failWanting nofun
  unfold paramSetOf
  split <;> infer_instance
instance : Has P (paramSet r) := by unfold paramSet; infer_instance

instance : Has P pathExpr := by unfold pathExpr; infer_instance
instance : Has P freeVar := by unfold freeVar; infer_instance
instance : Has P (parenthesized r ctx) := by unfold parenthesized; infer_instance
instance : Has P (array r ctx) := by unfold array; infer_instance
instance : Has P (branch r ctx) := by unfold branch; infer_instance
instance (position : IfPosition) : Has P (elseBranch r ctx position) := by
  have : Has P (Grammar.failWanting (.single .kwElse) .valueWithoutElse : Parse (Option ExprId)) :=
    failWanting nofun
  unfold elseBranch
  cases position <;> infer_instance
instance : Has P (condition r) := by unfold condition; infer_instance
instance (position : IfPosition) : Has P (conditional r ctx position) := by unfold conditional; infer_instance
instance : Has P (matchArm r) := by unfold matchArm; infer_instance
instance : Has P (caseAnalysis r) := by unfold caseAnalysis; infer_instance
instance : Has P (returning r ctx) := by unfold returning; infer_instance

instance (token : Token) : Has P (operandOf r ctx token) := by
  have : Has P (Grammar.failWanting .primaryStart .expectedExpression : Parse ExprId) := failWanting nofun
  unfold operandOf
  split
  · infer_instance
  · split <;> infer_instance

instance : Has P (operand r ctx) := by unfold operand; infer_instance
instance : Has P (blockArgument r ctx) := by unfold blockArgument; infer_instance
instance (callee : ExprId) : Has P (applied r ctx callee) := by unfold applied; infer_instance
instance : Has P (application r ctx) := by unfold application; infer_instance
instance (lhs : ExprId) (op : Ident) : Has P (joined r ctx lhs op) := by unfold joined; infer_instance

instance (lhs : ExprId) : Has P (chainTurn r ctx lhs) := by
  have := afterOperator P lhs (joined r ctx lhs)
  unfold chainTurn
  infer_instance

instance : Has P (chain r ctx) := by unfold chain; infer_instance
instance (value : ExprId) : Has P (ascribed r value) := by unfold ascribed; infer_instance
instance (value : ExprId) : Has P (annotationTurn r value) := by unfold annotationTurn; infer_instance
instance : Has P (annotated r ctx) := by unfold annotated; infer_instance

/-! ### Arrows -/

section Binding

variable [Binding P]

instance (priority := low) (kind : ExprKind) (span : Span) : Has P (newExpr kind span) :=
  ⟨Binding.newExpr kind span⟩

instance (params : ParamSet) : Has P (sigmaResult r ctx params) := by unfold sigmaResult; infer_instance
instance : Has P (sigma r ctx) := by unfold sigma; infer_instance
instance (params : ParamSet) : Has P (arrowResult r ctx params) := by unfold arrowResult; infer_instance
instance [∀ id, Has P (toType id)] (domain : ExprId) : Has P (domainResult r ctx domain) := by
  unfold domainResult; infer_instance
instance [Has P (domainArrow r ctx)] : Has P (arrow r ctx) := by unfold arrow; infer_instance

end Binding

instance [Has P (sigma r ctx)] [∀ domain, Has P (domainResult r ctx domain)] : Has P (domainArrow r ctx) := by
  unfold domainArrow; infer_instance

/-! ### Lambdas and blocks -/

instance (start : Span) (params : List PatternId) : Has P (lambdaBody r ctx start params) := by
  have : Has P (Parse.fail .noLambdaParam : Parse ExprId) := fail nofun
  unfold lambdaBody
  infer_instance
instance [Has P (arrow r ctx)] : Has P (lambda r ctx) := by unfold lambda; infer_instance

instance : Has P (letStmt r) := by unfold letStmt; infer_instance
instance : Has P (stmt r) := by unfold stmt; infer_instance
instance : Has P (block r) := by unfold block; infer_instance

end Expressions

end Has

/-- The readers of expressions, types and blocks have a property that arrows have, as far as the readers of
their parts do. -/
theorem Rules.have_rules {P : Property} [Closed P] [Storing P]
    (harrow : ∀ n, (rules n).Have P → ∀ ctx, Has P (Grammar.arrow (rules n) ctx)) (n : Nat) :
    (rules n).Have P := by
  induction n with
  | zero => exact ⟨fun _ => Sequential.exhausted, fun _ => Sequential.exhausted, Sequential.exhausted⟩
  | succ n ih =>
    have := harrow n ih
    exact ⟨fun ctx => Has.has (p := lambda (rules n) ctx), fun ctx => (this ctx).has,
      Has.has (p := Grammar.block (rules n))⟩

/-! ## Declarations -/

namespace Has

section Declarations

variable {P : Property} [Closed P] [Storing P] {r : Rules} [r.Have P]

instance : Has P (attr r) := by unfold attr; infer_instance
instance (token : Token) : Has P (attachmentOf r token) := by
  unfold attachmentOf
  split <;> infer_instance
instance : Has P (attachment r) := by unfold attachment; infer_instance
instance : Has P (attributes r) := by unfold attributes; infer_instance
instance : Has P (declParams r) := by unfold declParams; infer_instance
instance : Has P (commandArgs r) := by unfold commandArgs; infer_instance
instance : Has P (lineArgs r) := by unfold lineArgs; infer_instance
instance : Has P (commandDecl r) := by unfold commandDecl; infer_instance
instance : Has P (constructorKind r) := by unfold constructorKind; infer_instance
instance : Has P (constructor r) := by unfold constructor; infer_instance
instance : Has P (inductiveDecl r) := by unfold inductiveDecl; infer_instance
instance : Has P (signatureDecl r) := by unfold signatureDecl; infer_instance
instance : Has P (clauseDecl r) := by unfold clauseDecl; infer_instance
instance : Has P (namedDecl r) := by unfold namedDecl; infer_instance
instance (tag : Tag) : Has P (declKindOf r tag) := by
  have : Has P (Grammar.failWanting .declStart .expectedDeclaration : Parse DeclKind) := failWanting nofun
  unfold declKindOf
  split <;> infer_instance
instance : Has P (declKind r) := by unfold declKind; infer_instance
instance (start : Span) (attrs : Attributes) : Has P (attributed r start attrs) := by
  unfold attributed; infer_instance
instance : Has P (decl r) := by
  have : Has P (Parse.fail .danglingAttributes : Parse Decl) := fail nofun
  unfold decl
  infer_instance
instance : Has P (declLine r) := by unfold declLine; infer_instance

end Declarations

end Has

end Grammar

end SolSyntax
