import SolSyntax.Arena

/-!
# Which expression may stand where

A node holds its parts in slots.  A slot says how loosely the expression in it may bind, and whether
it is a type.  `uses` lists the parts of every piece of syntax as they are written, each expression with
its slot; an arena is well formed if all slots are filled with what they admit and every node is proper
in itself.

Principal results: `Slot.Within.of_level` — which slots admit more than others;
`Slot.admits_typeApp` — where an application of a value may stand, one of a type may.
-/

namespace SolSyntax

/-- How loosely expressions bind.  Up to `expr` every level takes in the ones before it; the last three
are `expr` and a form that stands nowhere else. -/
inductive ExprLevel where
  /-- Literals, names, `U` and what is in brackets. -/
  | argument
  /-- And the forms that begin with a reserved word. -/
  | operand
  | application
  | chain
  | annotated
  | sigma
  | arrow
  | expr
  /-- And an `if` statement with `else`. -/
  | lastStmt
  /-- And an `if` statement. -/
  | stmt
  /-- And a block. -/
  | branch
  deriving DecidableEq, Repr

namespace ExprLevel

/-- The place in the order of the levels. -/
def rank : ExprLevel → Nat
  | argument => 0
  | operand => 1
  | application => 2
  | chain => 3
  | annotated => 4
  | sigma => 5
  | arrow => 6
  | expr => 7
  | lastStmt => 8
  | stmt => 9
  | branch => 10

/-- Whether a level takes in another: a branch is no `if` statement. -/
def includes (l k : ExprLevel) : Bool :=
  decide (k.rank ≤ l.rank) && !(l == branch && (k == stmt || k == lastStmt))

theorem includes_iff {l k : ExprLevel} :
    l.includes k = true ↔ k.rank ≤ l.rank ∧ (l = branch → k ≠ stmt ∧ k ≠ lastStmt) := by
  cases l <;> simp [includes]

theorem includes_trans {l m k : ExprLevel} (h : l.includes m = true) (h' : m.includes k = true) :
    l.includes k = true := by
  obtain ⟨hr, hb⟩ := includes_iff.1 h
  obtain ⟨hr', hb'⟩ := includes_iff.1 h'
  refine includes_iff.2 ⟨Nat.le_trans hr' hr, fun hl => ?_⟩
  -- an `if` statement is taken in by statements alone
  have high : ∀ n : ExprLevel, 8 ≤ n.rank → n = lastStmt ∨ n = stmt ∨ n = branch := by
    intro n hn
    cases n <;> first | (exact absurd hn (by decide)) | simp
  refine ⟨?_, ?_⟩
  · rintro rfl
    rcases high m (Nat.le_trans (by decide) hr') with rfl | rfl | rfl
    · exact (hb hl).2 rfl
    · exact (hb hl).1 rfl
    · exact (hb' rfl).1 rfl
  · rintro rfl
    rcases high m hr' with rfl | rfl | rfl
    · exact (hb hl).2 rfl
    · exact (hb hl).1 rfl
    · exact (hb' rfl).2 rfl

end ExprLevel

namespace ExprKind

/-- The first level that takes in a form. -/
def level : ExprKind → ExprLevel
  | literal _ | path _ | freeVar _ | univ | group _ | tuple _ _ | array _ => .argument
  | cases _ _ | ret _ | cond _ _ _ .expr => .operand
  | app _ _ _ | typeApp _ _ => .application
  | binary _ _ _ => .chain
  | ann _ _ => .annotated
  | sigma _ _ => .sigma
  | pi _ _ => .arrow
  | lambda _ _ => .expr
  | cond _ _ (some _) .stmt => .lastStmt
  | cond _ _ none .stmt => .stmt
  | block _ => .branch

def isApp : ExprKind → Bool
  | app _ _ _ => true
  | _ => false

def isAnn : ExprKind → Bool
  | ann _ _ => true
  | _ => false

/-- What a form has to be in itself. -/
def IsProper : ExprKind → Prop
  | tuple items trailingComma => items.length = 1 → trailingComma = true
  | lambda params _ => params ≠ []
  | app _ args b => args ≠ [] ∨ b.isSome = true
  | typeApp _ args => args ≠ []
  | cond _ _ elseBranch .expr => elseBranch.isSome = true
  | _ => True

end ExprKind

/-- A place in a node or declaration that an expression fills. -/
structure Slot where
  /-- How loosely the expression may bind. -/
  level : ExprLevel
  /-- Whether applications of values are excluded. -/
  isType : Bool
  /-- Whether annotations are excluded. -/
  unannotated : Bool
  deriving DecidableEq, Repr

namespace Slot

/-- What is applied, and what it is applied to: literals, names, `U` and what is in brackets. -/
def argument : Slot := ⟨.argument, false, false⟩

/-- The left side of an operator: no annotation, function, pair, lambda or block. -/
def lhs : Slot := ⟨.chain, false, false⟩

/-- The right side of an operator: like the left, and no operator. -/
def rhs : Slot := ⟨.application, false, false⟩

/-- What is annotated: no function, pair, lambda or block. -/
def annotated : Slot := ⟨.annotated, false, false⟩

/-- The type of an annotation: like any type, and no annotation. -/
def annotationType : Slot := ⟨.arrow, true, true⟩

/-- A type anywhere else: no application of a value, lambda or block. -/
def type : Slot := ⟨.arrow, true, false⟩

/-- The domain of a function type, if no list is written: no application of a value, annotation,
function, pair, lambda or block. -/
def domain : Slot := ⟨.chain, true, false⟩

/-- Any expression, which is no block and no `if` statement: items, bodies, conditions, values. -/
def expr : Slot := ⟨.expr, false, false⟩

/-- A branch of an `if`, the body of a match arm: any expression or a block. -/
def branch : Slot := ⟨.branch, false, false⟩

/-- A statement of a block: any expression or an `if` statement. -/
def stmt : Slot := ⟨.stmt, false, false⟩

/-- The last statement of a block, where an `if` has its `else`. -/
def lastStmt : Slot := ⟨.lastStmt, false, false⟩

/-- Whether a form may stand in a slot. -/
def admits (s : Slot) (k : ExprKind) : Bool :=
  s.level.includes k.level && !(s.isType && k.isApp) && !(s.unannotated && k.isAnn)

theorem admits_iff {s : Slot} {k : ExprKind} :
    s.admits k = true ↔ s.level.includes k.level = true ∧ (s.isType = true → k.isApp = false) ∧
      (s.unannotated = true → k.isAnn = false) := by
  unfold admits
  cases s.isType <;> cases s.unannotated <;> cases k.isApp <;> cases k.isAnn <;> simp

/-- A slot admits all that another does. -/
def Within (s t : Slot) : Prop := ∀ k, s.admits k = true → t.admits k = true

theorem Within.refl (s : Slot) : s.Within s := fun _ h => h

theorem Within.of_level {s t : Slot} (h : t.level.includes s.level = true)
    (happ : t.isType = true → s.isType = true) (hann : t.unannotated = true → s.unannotated = true) :
    s.Within t := by
  intro k hk
  obtain ⟨hl, ha, hn⟩ := admits_iff.1 hk
  exact admits_iff.2 ⟨ExprLevel.includes_trans h hl, fun e => ha (happ e), fun e => hn (hann e)⟩

/-- What binds more tightly than an application is none. -/
theorem Within.of_operand {s t : Slot} (hs : s.level = .argument ∨ s.level = .operand)
    (h : t.level.includes s.level = true) : s.Within t := by
  intro k hk
  obtain ⟨hl, -⟩ := admits_iff.1 hk
  have tight : k.isApp = false ∧ k.isAnn = false := by
    cases k <;> first | exact ⟨rfl, rfl⟩ | (rcases hs with e | e <;> rw [e] at hl <;> cases hl)
  exact admits_iff.2 ⟨ExprLevel.includes_trans h hl, fun _ => tight.1, fun _ => tight.2⟩

/-- Where an application of a value may stand, one of a type may. -/
theorem admits_typeApp {s : Slot} {callee : ExprId} {args : List ExprId} {b : Option Block}
    (h : s.admits (.app callee args b) = true) : s.admits (.typeApp callee args) = true := by
  obtain ⟨hl, -⟩ := admits_iff.1 h
  exact admits_iff.2 ⟨hl, fun _ => rfl, fun _ => rfl⟩

end Slot

/-! ## The parts of a piece of syntax -/

/-- A part of a piece of syntax. -/
inductive Use where
  | expr (slot : Slot) (id : ExprId)
  | pattern (id : PatternId)
  deriving DecidableEq, Repr

def Use.expr? : Use → Option ExprId
  | expr _ id => some id
  | pattern _ => none

def Use.pattern? : Use → Option PatternId
  | expr _ _ => none
  | pattern id => some id

/-- The expressions among some parts. -/
def exprsIn (us : List Use) : List ExprId := us.filterMap Use.expr?

/-- The patterns among some parts. -/
def patternsIn (us : List Use) : List PatternId := us.filterMap Use.pattern?

def PatternKind.uses : PatternKind → List Use
  | .constructor _ args => args.map .pattern
  | .group inner => [.pattern inner]
  | .rest | .literal _ => []

/-- The slot of the types in a parameter list. -/
def ParamSetKind.slot : ParamSetKind → Slot
  | .domain => .domain
  | _ => .type

def ParamKind.uses (slot : Slot) : ParamKind → List Use
  | .typed binding type => binding.toList.map .pattern ++ [.expr slot type]
  | .forAll _ => []
  | .untyped pattern => [.pattern pattern]

def ParamSet.uses (p : ParamSet) : List Use := p.params.flatMap (·.kind.uses p.kind.slot)

/-- The parts of a statement that stands in a given slot. -/
def Stmt.uses (slot : Slot) : Stmt → List Use
  | .letIn pattern type value _ =>
    .pattern pattern :: (type.toList.map (.expr .type) ++ [.expr .expr value])
  | .expr value => [.expr slot value]

def Block.uses (b : Block) : List Use :=
  b.stmts.dropLast.flatMap (Stmt.uses .stmt) ++ b.stmts.getLast?.toList.flatMap (Stmt.uses .lastStmt)

def MatchArm.uses (a : MatchArm) : List Use := [.pattern a.pattern, .expr .branch a.body]

def ExprKind.uses : ExprKind → List Use
  | .literal _ | .path _ | .freeVar _ | .univ => []
  | .group inner => [.expr .expr inner]
  | .tuple items _ | .array items => items.map (.expr .expr)
  | .lambda params body => params.map .pattern ++ [.expr .expr body]
  | .app callee args b =>
    .expr .argument callee :: (args.map (.expr .argument) ++ b.toList.flatMap Block.uses)
  | .typeApp callee args => .expr .argument callee :: args.map (.expr .argument)
  | .binary lhs _ rhs => [.expr .lhs lhs, .expr .rhs rhs]
  | .ann value type => [.expr .annotated value, .expr .annotationType type]
  | .pi params result | .sigma params result => params.uses ++ [.expr .type result]
  | .cases scrutinee arms => .expr .expr scrutinee :: arms.flatMap MatchArm.uses
  | .cond test thenBranch elseBranch _ =>
    .expr .expr test :: .expr .branch thenBranch :: elseBranch.toList.map (.expr .branch)
  | .ret value => value.toList.map (.expr .expr)
  | .block b => b.uses

def Attribute.uses (a : Attribute) : List Use := a.args.map (.expr .expr)

def Attributes.uses (a : Attributes) : List Use := a.attributes.flatMap Attribute.uses

def ConstructorKind.uses : ConstructorKind → List Use
  | .signature type => [.expr .type type]
  | .function fields => fields.map (.expr .type)

def Constructor.uses (c : Constructor) : List Use := c.attrs.uses ++ c.kind.uses

def DeclKind.uses : DeclKind → List Use
  | .command _ args => args.map (.expr .expr)
  | .using _ => []
  | .inductiveType _ params type constructors =>
    params.flatMap ParamSet.uses ++ type.toList.map (.expr .type) ++
      constructors.flatMap Constructor.uses
  | .signature _ params type body =>
    params.flatMap ParamSet.uses ++ type.toList.map (.expr .type) ++ body.toList.flatMap Block.uses
  | .clause _ patterns value => patterns.map .pattern ++ value.toList.map (.expr .expr)

def Decl.uses (d : Decl) : List Use := d.attrs.uses ++ d.kind.uses

def Module.uses (m : Module) : List Use := m.decls.flatMap Decl.uses

namespace Arena

/-- The parts of all nodes. -/
def uses (a : Arena) : List Use :=
  a.exprs.toList.flatMap (·.kind.uses) ++ a.patterns.toList.flatMap (·.kind.uses)

/-- Whether there is a form in the arena that a slot admits. -/
def Fills (a : Arena) (slot : Slot) (id : ExprId) : Prop :=
  ∃ e, a.expr? id = some e ∧ slot.admits e.kind = true

/-- All nodes are proper, and all slots of nodes and declarations are filled with what they admit. -/
structure WellFormed (a : Arena) (m : Module) : Prop where
  proper : ∀ id e, a.expr? id = some e → e.kind.IsProper
  nodes : ∀ id e, a.expr? id = some e → ∀ slot part, Use.expr slot part ∈ e.kind.uses → a.Fills slot part
  decls : ∀ d ∈ m.decls, ∀ slot part, Use.expr slot part ∈ d.uses → a.Fills slot part

/-- The parts of a node are stored before it, and none is used twice. -/
structure IsForest (a : Arena) (m : Module) : Prop where
  exprsBefore : ∀ id e, a.expr? id = some e → ∀ part ∈ exprsIn e.kind.uses, part.index < id.index
  patternsBefore : ∀ id p, a.pattern? id = some p →
    ∀ part ∈ patternsIn p.kind.uses, part.index < id.index
  patternsStored : ∀ id e, a.expr? id = some e →
    ∀ part ∈ patternsIn e.kind.uses, part.index < a.patterns.size
  declExprsStored : ∀ part ∈ exprsIn m.uses, part.index < a.exprs.size
  declPatternsStored : ∀ part ∈ patternsIn m.uses, part.index < a.patterns.size
  exprsOnce : (exprsIn (a.uses ++ m.uses)).Nodup
  patternsOnce : (patternsIn (a.uses ++ m.uses)).Nodup

/-- Everything stored is used once. -/
structure IsUsed (a : Arena) (m : Module) : Prop where
  exprs : ∀ id : ExprId, id.index < a.exprs.size → (exprsIn (a.uses ++ m.uses)).count id = 1
  patterns : ∀ id : PatternId, id.index < a.patterns.size →
    (patternsIn (a.uses ++ m.uses)).count id = 1

end Arena

end SolSyntax
