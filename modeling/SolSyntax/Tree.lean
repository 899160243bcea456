import SolSyntax.Token

/-!
# The syntax tree of a module

Expressions and patterns refer to their parts by index: `ExprId` and `PatternId` point into an
arena.  Declarations hold their own nodes.  Every node has the span of its source text.
-/

namespace SolSyntax

/-- Index of an expression in an arena. -/
structure ExprId where
  index : Nat
  deriving DecidableEq, Repr, Inhabited

/-- Index of a pattern in an arena. -/
structure PatternId where
  index : Nat
  deriving DecidableEq, Repr, Inhabited

def ExprId.text (id : ExprId) : String := s!"ExprId({id.index})"

def PatternId.text (id : PatternId) : String := s!"PatternId({id.index})"

/-- Whether an identifier is a plain name or an operator. -/
inductive IdentKind where
  | simple
  | symbol
  deriving DecidableEq, Repr

structure Ident where
  name : Name
  kind : IdentKind
  span : Span
  deriving DecidableEq, Repr

/-- A dotted name. -/
structure Path where
  first : Ident
  others : List Ident
  span : Span
  deriving DecidableEq, Repr

namespace Path

def single (i : Ident) : Path := ⟨i, [], i.span⟩

def push (p : Path) (i : Ident) : Path := ⟨p.first, p.others ++ [i], p.span.merge i.span⟩

def ofIdents (first : Ident) (others : List Ident) : Path := others.foldl push (single first)

def segments (p : Path) : List Ident := p.first :: p.others

def last (p : Path) : Ident := p.others.getLast?.getD p.first

def isSingle (p : Path) : Bool := p.others.isEmpty

@[simp] theorem segments_single (i : Ident) : (single i).segments = [i] := rfl

@[simp] theorem segments_push (p : Path) (i : Ident) :
    (p.push i).segments = p.segments ++ [i] := rfl

theorem segments_ofIdents (first : Ident) (others : List Ident) :
    (ofIdents first others).segments = first :: others := by
  have key : ∀ p : Path, (others.foldl push p).segments = p.segments ++ others := by
    induction others with
    | nil => simp
    | cons i is ih => intro p; simp [ih]
  simp [ofIdents, key]

end Path

inductive Literal where
  | int (value : IntLit)
  | float (value : FloatLit)
  | string (contents : Name)
  | char (value : Char)
  deriving DecidableEq, Repr

/-- The literal that a token is. -/
def TokenKind.literal? : TokenKind → Option Literal
  | .int value => some (.int value)
  | .float value => some (.float value)
  | .string contents => some (.string contents)
  | .char value => some (.char value)
  | _ => none

/-! ## Patterns -/

inductive PatternKind where
  /-- A path applied to patterns; a bare path has no arguments. -/
  | constructor (path : Path) (args : List PatternId)
  /-- A pattern in parentheses. -/
  | group (inner : PatternId)
  /-- `..` -/
  | rest
  | literal (value : Literal)
  deriving DecidableEq, Repr

structure Pattern where
  kind : PatternKind
  span : Span
  deriving DecidableEq, Repr

/-! ## Parameters -/

inductive ParamKind where
  /-- `x : T`, or a type alone. -/
  | typed (binding : Option PatternId) (type : ExprId)
  /-- `'a` -/
  | forAll (name : Ident)
  /-- A bare pattern, whose type is left to inference. -/
  | untyped (pattern : PatternId)
  deriving DecidableEq, Repr

structure Param where
  kind : ParamKind
  span : Span
  deriving DecidableEq, Repr

inductive ParamSetKind where
  /-- In parentheses. -/
  | explicit
  /-- In braces. -/
  | implicit
  /-- In square brackets. -/
  | sigma
  /-- No list is written: one parameter without a name. -/
  | domain
  deriving DecidableEq, Repr

structure ParamSet where
  kind : ParamSetKind
  params : List Param
  span : Span
  deriving DecidableEq, Repr

/-! ## Expressions -/

inductive Stmt where
  | letIn (pattern : PatternId) (type : Option ExprId) (value : ExprId) (span : Span)
  | expr (value : ExprId)
  deriving DecidableEq, Repr

structure Block where
  stmts : List Stmt
  span : Span
  deriving DecidableEq, Repr

structure MatchArm where
  pattern : PatternId
  body : ExprId
  span : Span
  deriving DecidableEq, Repr

/-- Where an `if` stands; only a statement may leave out its `else`. -/
inductive IfPosition where
  | expr
  | stmt
  deriving DecidableEq, Repr

inductive ExprKind where
  | literal (value : Literal)
  | path (path : Path)
  /-- `^name` -/
  | freeVar (name : Ident)
  /-- The type of types. -/
  | univ
  /-- One expression in parentheses. -/
  | group (inner : ExprId)
  | tuple (items : List ExprId) (trailingComma : Bool)
  | array (items : List ExprId)
  | lambda (params : List PatternId) (body : ExprId)
  /-- Application in a value, perhaps with a block at the end. -/
  | app (callee : ExprId) (args : List ExprId) (block : Option Block)
  /-- Application in a type. -/
  | typeApp (callee : ExprId) (args : List ExprId)
  | binary (lhs : ExprId) (op : Ident) (rhs : ExprId)
  /-- `value is type` -/
  | ann (value type : ExprId)
  | pi (params : ParamSet) (result : ExprId)
  | sigma (params : ParamSet) (result : ExprId)
  | cases (scrutinee : ExprId) (arms : List MatchArm)
  | cond (test thenBranch : ExprId) (elseBranch : Option ExprId) (position : IfPosition)
  | ret (value : Option ExprId)
  /-- The braced body of a match arm or of a branch. -/
  | block (block : Block)
  deriving DecidableEq, Repr

structure Expr where
  kind : ExprKind
  span : Span
  deriving DecidableEq, Repr

/-! ## Declarations -/

inductive Visibility where
  | isPublic
  | isSealed
  | isPrivate
  | isInternal
  deriving DecidableEq, Repr

/-- The visibility that a token asks for. -/
def TokenKind.visibility? : TokenKind → Option Visibility
  | .kwPublic => some .isPublic
  | .kwSealed => some .isSealed
  | .kwPrivate => some .isPrivate
  | .kwInternal => some .isInternal
  | _ => none

/-- `@path` or `@path(args…)`. -/
structure Attribute where
  path : Path
  args : List ExprId
  span : Span
  deriving DecidableEq, Repr

/-- What is written before a declaration or constructor. -/
structure Attributes where
  docs : List Name
  attributes : List Attribute
  deriving DecidableEq, Repr

def Attributes.isEmpty (a : Attributes) : Bool := a.docs.isEmpty && a.attributes.isEmpty

inductive ConstructorKind where
  /-- `Succ : Nat -> Nat` -/
  | signature (type : ExprId)
  /-- `Succ(Nat)`, or a name alone. -/
  | function (fields : List ExprId)
  deriving DecidableEq, Repr

structure Constructor where
  attrs : Attributes
  name : Ident
  kind : ConstructorKind
  span : Span
  deriving DecidableEq, Repr

inductive DeclKind where
  /-- `#name args…` -/
  | command (name : Path) (args : List ExprId)
  | using (path : Path)
  | inductiveType (name : Path) (params : List ParamSet) (type : Option ExprId)
      (constructors : List Constructor)
  | signature (name : Path) (params : List ParamSet) (type : Option ExprId) (body : Option Block)
  /-- One equation of a definition that may have several. -/
  | clause (name : Path) (patterns : List PatternId) (value : Option ExprId)
  deriving DecidableEq, Repr

structure Decl where
  attrs : Attributes
  visibility : Option Visibility
  kind : DeclKind
  span : Span
  deriving DecidableEq, Repr

/-- The declared name; a `using` has none. -/
def Decl.name? (d : Decl) : Option Path :=
  match d.kind with
  | .command name _ | .inductiveType name _ _ _ | .signature name _ _ _ | .clause name _ _ =>
    some name
  | .using _ => none

structure Module where
  /-- The text of the `#!` line. -/
  hashBang : Option Name
  decls : List Decl
  deriving DecidableEq, Repr

end SolSyntax
