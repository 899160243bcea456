import SolSyntax.Tree

/-!
# Storage for expressions and patterns

An arena holds the expressions and patterns of a module in the order in which they were made, so
the parts of a node come before the node.  Their indices are 32-bit numbers, and the program panics when
it stores one more than there are of these.  That is not modelled: an arena has no bound here.

Principal results: `expr?_newExpr` — a new expression is found under its index;
`expr?_newExpr_of_lt` — and those before it stay where they are; `retag_related` — what holds between an
arena and itself with one application turned into one of a type holds when an expression is read as a type.
-/

namespace SolSyntax

structure Arena where
  exprs : Array Expr
  patterns : Array Pattern
  deriving DecidableEq, Repr

namespace Arena

def empty : Arena := ⟨#[], #[]⟩

instance : Inhabited Arena := ⟨empty⟩

def expr? (a : Arena) (id : ExprId) : Option Expr := a.exprs[id.index]?

def pattern? (a : Arena) (id : PatternId) : Option Pattern := a.patterns[id.index]?

/-- Stores an expression, under the next index even if that is no 32-bit number. -/
def newExpr (a : Arena) (e : Expr) : ExprId × Arena :=
  (⟨a.exprs.size⟩, { a with exprs := a.exprs.push e })

/-- Stores a pattern, under the next index even if that is no 32-bit number. -/
def newPattern (a : Arena) (p : Pattern) : PatternId × Arena :=
  (⟨a.patterns.size⟩, { a with patterns := a.patterns.push p })

/-- Puts another kind in place of that of a stored expression. -/
def setKind (a : Arena) (id : ExprId) (kind : ExprKind) : Arena :=
  { a with exprs := a.exprs.modify id.index fun e => { e with kind } }

/-- The span of a stored expression. -/
def exprSpan (a : Arena) (id : ExprId) : Span := ((a.expr? id).map Expr.span).getD .dummy

/-- The span of a stored pattern. -/
def patternSpan (a : Arena) (id : PatternId) : Span :=
  ((a.pattern? id).map Pattern.span).getD .dummy

@[simp] theorem expr?_newExpr (a : Arena) (e : Expr) :
    (a.newExpr e).2.expr? (a.newExpr e).1 = some e := by
  simp [newExpr, expr?]

theorem expr?_newExpr_of_lt (a : Arena) (e : Expr) {id : ExprId} (h : id.index < a.exprs.size) :
    (a.newExpr e).2.expr? id = a.expr? id := by
  simp [newExpr, expr?, Array.getElem?_push_lt h, Array.getElem?_eq_getElem h]

@[simp] theorem pattern?_newPattern (a : Arena) (p : Pattern) :
    (a.newPattern p).2.pattern? (a.newPattern p).1 = some p := by
  simp [newPattern, pattern?]

theorem pattern?_newPattern_of_lt (a : Arena) (p : Pattern) {id : PatternId}
    (h : id.index < a.patterns.size) : (a.newPattern p).2.pattern? id = a.pattern? id := by
  simp [newPattern, pattern?, Array.getElem?_push_lt h, Array.getElem?_eq_getElem h]

/-! ## Reading a domain as a type -/

/-- A block stands where a type is read. -/
structure BlockInType where
  span : Span
  deriving DecidableEq, Repr

/-- Does the same with each of some expressions, up to the first failure. -/
def forEach (f : ExprId → Arena → Except BlockInType Unit × Arena) :
    List ExprId → Arena → Except BlockInType Unit × Arena
  | [], a => (.ok (), a)
  | id :: ids, a =>
    match f id a with
    | (.ok (), a) => forEach f ids a
    | (.error e, a) => (.error e, a)

/-- Turns every application of a value into one of a type, from the root down and from left to
right, up to the first one with a block.  Operands, annotated values, groups, tuples and arrays are
entered; binders and bodies keep their own positions.  Parts come before the whole, so any `fuel`
above the index of the root is enough. -/
def retag : Nat → ExprId → Arena → Except BlockInType Unit × Arena
  | 0, _, a => (.ok (), a)
  | fuel + 1, id, a =>
    match (a.expr? id).map Expr.kind with
    | some (.app _ _ (some block)) => (.error ⟨block.span⟩, a)
    | some (.app callee args none) =>
      forEach (retag fuel) (callee :: args) (a.setKind id (.typeApp callee args))
    | some (.binary lhs _ rhs) => forEach (retag fuel) [lhs, rhs] a
    | some (.ann value _) => forEach (retag fuel) [value] a
    | some (.group inner) => forEach (retag fuel) [inner] a
    | some (.tuple items _) => forEach (retag fuel) items a
    | some (.array items) => forEach (retag fuel) items a
    | _ => (.ok (), a)

/-- Reads a stored expression as a type. -/
def toType (a : Arena) (id : ExprId) : Except BlockInType Unit × Arena := retag (id.index + 1) id a

section Related

variable {R : Arena → Arena → Prop} (refl : ∀ a, R a a) (trans : ∀ {a b c}, R a b → R b c → R a c)
include refl trans

theorem forEach_related {f : ExprId → Arena → Except BlockInType Unit × Arena}
    (hf : ∀ id a, R a (f id a).2) (ids : List ExprId) (a : Arena) : R a (forEach f ids a).2 := by
  induction ids generalizing a with
  | nil => exact refl a
  | cons id ids ih =>
    have first := hf id a
    unfold forEach
    split
    · rename_i b hb
      rw [hb] at first
      exact trans first (ih b)
    · rename_i e b hb
      rw [hb] at first
      exact first

/-- How an arena is related to what it becomes by reading an expression as a type is decided by what
turning one application does. -/
theorem retag_related
    (app : ∀ {a : Arena} {id : ExprId} {e : Expr} {callee : ExprId} {args : List ExprId},
      a.expr? id = some e → e.kind = .app callee args none → R a (a.setKind id (.typeApp callee args)))
    (fuel : Nat) (id : ExprId) (a : Arena) : R a (retag fuel id a).2 := by
  induction fuel generalizing id a with
  | zero => exact refl a
  | succ fuel ih =>
    have enter := forEach_related refl trans ih
    unfold retag
    split
    case h_2 callee args hk =>
      obtain ⟨e, he, hkind⟩ := Option.map_eq_some_iff.1 hk
      exact trans (app he hkind) (enter _ _)
    case h_1 | h_8 => exact refl a
    all_goals exact enter _ _

end Related

end Arena

end SolSyntax
