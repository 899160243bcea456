import SolSyntax.Arena

/-!
# Outlines

The outline of a piece of syntax is an ordered tree: a node says which production made it, a leaf is
a token that carries something.  Every type of the syntax tree has a `view`, the outline of what it
holds itself, with references into the arena where the rest is; `Arena.read` follows them.

Principal results: `leaves_asType` — reading a value as a type keeps its leaves.
-/

namespace SolSyntax

/-- Which production made a node. -/
inductive Form where
  -- expressions
  | literal
  | path
  | freeVar
  | univ
  | group
  | tuple (trailingComma : Bool)
  | array
  | lambda
  | app (withBlock : Bool)
  | typeApp
  | binary
  | ann
  | pi
  | sigma
  | cases
  | cond (position : IfPosition)
  | ret
  | block
  -- patterns
  | literalPattern
  | constructorPattern
  | groupPattern
  | restPattern
  -- parameters
  | typed
  | forAll
  | untyped
  | params (kind : ParamSetKind)
  -- statements and arms
  | letIn
  | stmts
  | arm
  -- declarations
  | attr
  | attrs
  | signatureConstructor
  | functionConstructor
  | constructor
  | command
  | using
  | inductiveType
  | signature
  | clause
  | decl (visibility : Option Visibility)
  /-- Parts of one kind, or a part that may be missing. -/
  | row
  deriving DecidableEq, Repr

/-- An ordered tree. -/
inductive Outline (α : Type) where
  | leaf (a : α)
  | node (form : Form) (parts : List (Outline α))
  deriving Repr

namespace Outline

/-- What is shown for a part that is not there. -/
def absent : Outline α := node .row []

mutual

/-- The leaves from left to right. -/
def leaves : Outline α → List α
  | leaf a => [a]
  | node _ parts => leavesAll parts

/-- The leaves of a row of outlines. -/
def leavesAll : List (Outline α) → List α
  | [] => []
  | o :: os => leaves o ++ leavesAll os

end

mutual

/-- Puts an outline in the place of every leaf. -/
def bind (f : α → Outline β) : Outline α → Outline β
  | leaf a => f a
  | node form parts => node form (bindAll f parts)

/-- `bind` in a row of outlines. -/
def bindAll (f : α → Outline β) : List (Outline α) → List (Outline β)
  | [] => []
  | o :: os => bind f o :: bindAll f os

end

@[simp] theorem leaves_leaf (a : α) : (leaf a).leaves = [a] := by simp [leaves]

@[simp] theorem leaves_node (form : Form) (parts : List (Outline α)) :
    (node form parts).leaves = leavesAll parts := by simp [leaves]

@[simp] theorem leavesAll_nil : leavesAll ([] : List (Outline α)) = [] := by simp [leavesAll]

@[simp] theorem leavesAll_cons (o : Outline α) (os : List (Outline α)) :
    leavesAll (o :: os) = o.leaves ++ leavesAll os := by simp [leavesAll]

@[simp] theorem leavesAll_append (os ps : List (Outline α)) :
    leavesAll (os ++ ps) = leavesAll os ++ leavesAll ps := by
  induction os with
  | nil => simp
  | cons o os ih => simp [ih]

theorem leavesAll_eq_flatMap (os : List (Outline α)) : leavesAll os = os.flatMap leaves := by
  induction os with
  | nil => simp
  | cons o os ih => simp [ih]

@[simp] theorem bind_leaf (f : α → Outline β) (a : α) : (leaf a).bind f = f a := by simp [bind]

@[simp] theorem bind_node (f : α → Outline β) (form : Form) (parts : List (Outline α)) :
    (node form parts).bind f = node form (bindAll f parts) := by simp [bind]

@[simp] theorem bindAll_nil (f : α → Outline β) : bindAll f [] = [] := by simp [bindAll]

@[simp] theorem bindAll_cons (f : α → Outline β) (o : Outline α) (os : List (Outline α)) :
    bindAll f (o :: os) = o.bind f :: bindAll f os := by simp [bindAll]

theorem bindAll_eq_map (f : α → Outline β) (os : List (Outline α)) :
    bindAll f os = os.map (bind f) := by
  induction os with
  | nil => simp
  | cons o os ih => simp [ih]

/-! ## Reading a value as a type -/

mutual

/-- The outline as a type: every application of a value is one of a type, as far as reading again
goes; a block has no place in a type. -/
def asType : Outline α → Option (Outline α)
  | leaf a => some (leaf a)
  | node (.app true) _ => none
  | node (.app false) parts => (asTypes parts).map (node .typeApp)
  | node .binary parts => (asTypes parts).map (node .binary)
  | node .group parts => (asTypes parts).map (node .group)
  | node (.tuple trailingComma) parts => (asTypes parts).map (node (.tuple trailingComma))
  | node .array parts => (asTypes parts).map (node .array)
  | node .ann (value :: type) => (asType value).map fun value => node .ann (value :: type)
  | node form parts => some (node form parts)

/-- A row of outlines as types. -/
def asTypes : List (Outline α) → Option (List (Outline α))
  | [] => some []
  | o :: os => (asType o).bind fun o => (asTypes os).map (o :: ·)

end

theorem asTypes_cons_eq_some {o : Outline α} {os ps : List (Outline α)}
    (h : asTypes (o :: os) = some ps) :
    ∃ p qs, asType o = some p ∧ asTypes os = some qs ∧ ps = p :: qs := by
  simp only [asTypes, Option.bind_eq_some_iff, Option.map_eq_some_iff] at h
  obtain ⟨p, hp, qs, hqs, rfl⟩ := h
  exact ⟨p, qs, hp, hqs, rfl⟩

mutual

theorem leaves_asType {o p : Outline α} (h : asType o = some p) : p.leaves = o.leaves := by
  match o with
  | leaf a =>
    simp only [asType, Option.some.injEq] at h
    rw [h]
  | node form parts =>
    have whole : ∀ form', (asTypes parts).map (node form') = some p →
        p.leaves = (node form parts).leaves := by
      intro form' h
      obtain ⟨qs, hqs, rfl⟩ := Option.map_eq_some_iff.1 h
      simp [leaves_asTypes hqs]
    unfold asType at h
    split at h
    · rename_i e; cases e
    · cases h
    · rename_i e; cases e; exact whole _ h
    · rename_i e; cases e; exact whole _ h
    · rename_i e; cases e; exact whole _ h
    · rename_i e; cases e; exact whole _ h
    · rename_i e; cases e; exact whole _ h
    · rename_i value type e
      cases e
      obtain ⟨q, hq, rfl⟩ := Option.map_eq_some_iff.1 h
      simp [leaves_asType hq]
    · rename_i e; cases h; cases e; rfl

/-- Reading values as types keeps their leaves. -/
theorem leaves_asTypes {os ps : List (Outline α)} (h : asTypes os = some ps) :
    leavesAll ps = leavesAll os := by
  match os with
  | [] =>
    simp only [asTypes, Option.some.injEq] at h
    rw [h]
  | o :: os =>
    obtain ⟨p, qs, hp, hqs, rfl⟩ := asTypes_cons_eq_some h
    simp [leaves_asType hp, leaves_asTypes hqs]

end

end Outline

/-! ## What a piece of syntax holds -/

/-- What stands in a piece of syntax: a token, an operator, or a place in the arena. -/
inductive Ref where
  | token (kind : TokenKind)
  | op (name : Name)
  | expr (id : ExprId)
  | pattern (id : PatternId)
  deriving DecidableEq, Repr

open Outline (leaf node)

/-- The token that an identifier is. -/
def Ident.tokenKind (i : Ident) : TokenKind :=
  match i.kind with
  | .simple => .ident i.name
  | .symbol => .symbol i.name

def Ident.view (i : Ident) : Outline Ref := leaf (.token i.tokenKind)

def Path.view (p : Path) : Outline Ref := node .path (p.segments.map Ident.view)

/-- The token that a literal is. -/
def Literal.tokenKind : Literal → TokenKind
  | .int value => .int value
  | .float value => .float value
  | .string contents => .string contents
  | .char value => .char value

def Literal.view (l : Literal) : Outline Ref := leaf (.token l.tokenKind)

theorem TokenKind.tokenKind_literal? {k : TokenKind} {l : Literal} (h : k.literal? = some l) :
    l.tokenKind = k := by
  cases k <;> simp [TokenKind.literal?] at h <;> subst h <;> rfl

def ExprId.view (id : ExprId) : Outline Ref := leaf (.expr id)

def PatternId.view (id : PatternId) : Outline Ref := leaf (.pattern id)

/-- A row of parts. -/
def rowOf (view : α → Outline Ref) (parts : List α) : Outline Ref := node .row (parts.map view)

/-- A part that may be missing. -/
def partOf (view : α → Outline Ref) (part : Option α) : Outline Ref := rowOf view part.toList

def PatternKind.view : PatternKind → Outline Ref
  | .constructor path args => node .constructorPattern [path.view, rowOf PatternId.view args]
  | .group inner => node .groupPattern [inner.view]
  | .rest => node .restPattern []
  | .literal value => node .literalPattern [value.view]

def ParamKind.view : ParamKind → Outline Ref
  | .typed binding type => node .typed [partOf PatternId.view binding, type.view]
  | .forAll name => node .forAll [name.view]
  | .untyped pattern => node .untyped [pattern.view]

def Param.view (p : Param) : Outline Ref := p.kind.view

def ParamSet.view (p : ParamSet) : Outline Ref := node (.params p.kind) (p.params.map Param.view)

def Stmt.view : Stmt → Outline Ref
  | .letIn pattern type value _ =>
    node .letIn [pattern.view, partOf ExprId.view type, value.view]
  | .expr value => value.view

def Block.view (b : Block) : Outline Ref := node .stmts (b.stmts.map Stmt.view)

def MatchArm.view (a : MatchArm) : Outline Ref := node .arm [a.pattern.view, a.body.view]

def ExprKind.view : ExprKind → Outline Ref
  | .literal value => node .literal [value.view]
  | .path p => p.view
  | .freeVar name => node .freeVar [name.view]
  | .univ => node .univ [leaf (.token .kwUniverse)]
  | .group inner => node .group [inner.view]
  | .tuple items trailingComma => node (.tuple trailingComma) (items.map ExprId.view)
  | .array items => node .array (items.map ExprId.view)
  | .lambda params body => node .lambda [rowOf PatternId.view params, body.view]
  | .app callee args none => node (.app false) (callee.view :: args.map ExprId.view)
  | .app callee args (some b) =>
    node (.app true) (callee.view :: (args.map ExprId.view ++ [b.view]))
  | .typeApp callee args => node .typeApp (callee.view :: args.map ExprId.view)
  | .binary lhs op rhs => node .binary [lhs.view, leaf (.op op.name), rhs.view]
  | .ann value type => node .ann [value.view, type.view]
  | .pi params result => node .pi [params.view, result.view]
  | .sigma params result => node .sigma [params.view, result.view]
  | .cases scrutinee arms => node .cases [scrutinee.view, rowOf MatchArm.view arms]
  | .cond test thenBranch elseBranch position =>
    node (.cond position) [test.view, thenBranch.view, partOf ExprId.view elseBranch]
  | .ret value => node .ret [partOf ExprId.view value]
  | .block b => node .block [b.view]

def Attribute.view (a : Attribute) : Outline Ref :=
  node .attr [a.path.view, rowOf ExprId.view a.args]

def Attributes.view (a : Attributes) : Outline Ref :=
  node .attrs [rowOf (fun n => leaf (.token (.docString n))) a.docs, rowOf Attribute.view a.attributes]

def ConstructorKind.view : ConstructorKind → Outline Ref
  | .signature type => node .signatureConstructor [type.view]
  | .function fields => node .functionConstructor (fields.map ExprId.view)

def Constructor.view (c : Constructor) : Outline Ref :=
  node .constructor [c.attrs.view, c.name.view, c.kind.view]

def DeclKind.view : DeclKind → Outline Ref
  | .command name args => node .command [name.view, rowOf ExprId.view args]
  | .using path => node .using [path.view]
  | .inductiveType name params type constructors =>
    node .inductiveType [name.view, rowOf ParamSet.view params, partOf ExprId.view type,
      rowOf Constructor.view constructors]
  | .signature name params type body =>
    node .signature [name.view, rowOf ParamSet.view params, partOf ExprId.view type,
      partOf Block.view body]
  | .clause name patterns value =>
    node .clause [name.view, rowOf PatternId.view patterns, partOf ExprId.view value]

def Decl.view (d : Decl) : Outline Ref := node (.decl d.visibility) [d.attrs.view, d.kind.view]

/-! ## Reading an arena -/

/-- The token that an operator is; `|` and `.` are signs of their own. -/
def Interner.operatorKind (names : Interner) (n : Name) : TokenKind :=
  if names.lookup n = "|" then .pipe
  else if names.lookup n = "." then .dot
  else .operator n

/-- What a reference stands for. -/
def Ref.resolve (names : Interner) (expr : ExprId → Outline TokenKind)
    (pattern : PatternId → Outline TokenKind) : Ref → Outline TokenKind
  | .token kind => leaf kind
  | .op name => leaf (names.operatorKind name)
  | .expr id => expr id
  | .pattern id => pattern id

namespace Arena

/-- The outline of a pattern, as far as its parts come before it; `n` bounds the index. -/
def readPattern (names : Interner) (a : Arena) : Nat → PatternId → Outline TokenKind
  | 0, _ => .absent
  | n + 1, id =>
    if id.index = n then
      match a.pattern? id with
      | some p =>
        p.kind.view.bind (Ref.resolve names (fun _ => .absent) (readPattern names a n))
      | none => .absent
    else readPattern names a n id

/-- The outline of a pattern. -/
def patternOutline (names : Interner) (a : Arena) (id : PatternId) : Outline TokenKind :=
  a.readPattern names (id.index + 1) id

/-- The outline of an expression, as far as its parts come before it; `n` bounds the index. -/
def readExpr (names : Interner) (a : Arena) : Nat → ExprId → Outline TokenKind
  | 0, _ => .absent
  | n + 1, id =>
    if id.index = n then
      match a.expr? id with
      | some e => e.kind.view.bind (Ref.resolve names (readExpr names a n) (a.patternOutline names))
      | none => .absent
    else readExpr names a n id

/-- The outline of an expression. -/
def exprOutline (names : Interner) (a : Arena) (id : ExprId) : Outline TokenKind :=
  a.readExpr names (id.index + 1) id

/-- A view with all references followed. -/
def read (names : Interner) (a : Arena) (view : Outline Ref) : Outline TokenKind :=
  view.bind (Ref.resolve names (a.exprOutline names) (a.patternOutline names))

theorem readPattern_of_lt {names : Interner} {a : Arena} {n : Nat} {id : PatternId}
    (h : id.index < n) : a.readPattern names n id = a.patternOutline names id := by
  induction n with
  | zero => omega
  | succ n ih =>
    by_cases e : id.index = n
    · rw [patternOutline, e]
    · rw [← ih (by omega)]
      simp [readPattern, e]

theorem readExpr_of_lt {names : Interner} {a : Arena} {n : Nat} {id : ExprId}
    (h : id.index < n) : a.readExpr names n id = a.exprOutline names id := by
  induction n with
  | zero => omega
  | succ n ih =>
    by_cases e : id.index = n
    · rw [exprOutline, e]
    · rw [← ih (by omega)]
      simp [readExpr, e]

end Arena

end SolSyntax
