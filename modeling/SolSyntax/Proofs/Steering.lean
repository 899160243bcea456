import Mathlib.Data.List.Forall2
import SolSyntax.Grammar.Decl

/-!
# What steers a parse

Of what a parse has read only little decides how it goes on: whether there was something, which stored
expressions it is, and their gists.  Two values that agree in this are `Alike`.

Principal results: `Arena.retag_cases` — how reading as a type goes on depends on the gist alone; `Alike` instances
for the values that productions give.
-/

namespace SolSyntax

/-! ## What steers a parse -/

/-- What a parse asks an expression for that it has stored. -/
inductive Gist where
  /-- An `if` as a statement, without `else`. -/
  | openIf
  /-- A form that takes no arguments. -/
  | closed
  /-- An application with a block. -/
  | withBlock
  /-- An application to arguments alone. -/
  | call (parts : List ExprId)
  /-- A form whose parts are types if it is one. -/
  | around (parts : List ExprId)
  | other
  deriving DecidableEq

def ExprKind.gist : ExprKind → Gist
  | .cond _ _ none .stmt => .openIf
  | .cond _ _ _ _ | .cases _ _ | .ret _ => .closed
  | .app _ _ (some _) => .withBlock
  | .app callee args none => .call (callee :: args)
  | .binary lhs _ rhs => .around [lhs, rhs]
  | .ann value _ => .around [value]
  | .group inner => .around [inner]
  | .tuple items _ | .array items => .around items
  | _ => .other

/-- The gists of all expressions, in the order in which they were stored. -/
def Arena.gists (a : Arena) : List Gist := a.exprs.toList.map (·.kind.gist)

namespace Arena

variable {a b : Arena}

theorem gist?_eq (a : Arena) (id : ExprId) : (a.expr? id).map (·.kind.gist) = a.gists[id.index]? := by
  simp [gists, expr?]

@[simp] theorem gists_newExpr (a : Arena) (e : Expr) : (a.newExpr e).2.gists = a.gists ++ [e.kind.gist] := by
  simp [gists, newExpr]

theorem gist_newExpr (a : Arena) (e : Expr) :
    (a.newExpr e).2.gists[(a.newExpr e).1.index]? = some e.kind.gist := by
  rw [← gist?_eq, expr?_newExpr]
  rfl

@[simp] theorem gists_newPattern (a : Arena) (p : Pattern) : (a.newPattern p).2.gists = a.gists := rfl

theorem gists_setKind (a : Arena) (id : ExprId) (callee : ExprId) (args : List ExprId) :
    (a.setKind id (.typeApp callee args)).gists = a.gists.set id.index .other := by
  refine List.ext_getElem? fun i => ?_
  simp only [gists, setKind, Array.toList_modify, List.getElem?_map, List.getElem?_modify, List.getElem?_set,
    List.length_map]
  split
  · rename_i h
    subst h
    rw [Array.getElem?_toList, Array.length_toList]
    cases hx : a.exprs[id.index]? with
    | none => rw [if_neg (by simpa using hx)]; rfl
    | some e => rw [if_pos (Array.getElem?_eq_some_iff.1 hx).1]; rfl
  · simp

/-- The gist tells what reading as a type does first. -/
theorem retag_cases (n : Nat) (id : ExprId) (a : Arena) :
    match a.gists[id.index]? with
    | some .withBlock => ∃ e, retag (n + 1) id a = (.error e, a)
    | some (.call parts) => ∃ c, c.gists = a.gists.set id.index .other ∧
        retag (n + 1) id a = forEach (retag n) parts c
    | some (.around parts) => retag (n + 1) id a = forEach (retag n) parts a
    | _ => retag (n + 1) id a = (.ok (), a) := by
  rw [← gist?_eq]
  unfold retag
  cases a.expr? id with
  | none => rfl
  | some e =>
    obtain ⟨kind, span⟩ := e
    cases kind with
    | app callee args block =>
      cases block with
      | none => exact ⟨_, gists_setKind a id callee args, rfl⟩
      | some block => exact ⟨_, rfl⟩
    | cond test thenBranch elseBranch position => cases elseBranch <;> cases position <;> rfl
    | _ => rfl

end Arena

namespace Grammar

theorem isClosedForm_eq (id : ExprId) (s : State) :
    isClosedForm id s = .ok ([some .openIf, some .closed].contains s.arena.gists[id.index]?) s := by
  unfold isClosedForm
  rw [← Arena.gist?_eq]
  cases s.arena.expr? id with
  | none => rfl
  | some e =>
    obtain ⟨kind, span⟩ := e
    cases kind with
    | app callee args block => cases block <;> rfl
    | cond test thenBranch elseBranch position => cases elseBranch <;> cases position <;> rfl
    | _ => rfl

theorem isOpenIf_eq (id : ExprId) (s : State) :
    isOpenIf id s = .ok (s.arena.gists[id.index]? == some .openIf) s := by
  unfold isOpenIf
  rw [← Arena.gist?_eq]
  cases s.arena.expr? id with
  | none => rfl
  | some e =>
    obtain ⟨kind, span⟩ := e
    cases kind with
    | app callee args block => cases block <;> rfl
    | cond test thenBranch elseBranch position => cases elseBranch <;> cases position <;> rfl
    | _ => rfl

end Grammar

/-! ## Values that are alike -/

/-- What two values have in common that steer a parse the same way; by default, nothing. -/
class Steers (α : Type) where
  alike : α → α → Prop

instance (priority := low) Steers.nothing (α : Type) : Steers α := ⟨fun _ _ => True⟩

instance : Steers Bool := ⟨Eq⟩
instance : Steers ExprId := ⟨Eq⟩
instance : Steers ExprKind := ⟨fun k l => k.gist = l.gist⟩
instance [Steers α] : Steers (Option α) := ⟨Option.Rel Steers.alike⟩
instance [Steers α] : Steers (List α) := ⟨List.Forall₂ Steers.alike⟩
instance [Steers α] [Steers β] : Steers (α × β) :=
  ⟨fun x y => Steers.alike x.1 y.1 ∧ Steers.alike x.2 y.2⟩

/-- Both loops go on, or both end. -/
instance [Steers α] : Steers (ForInStep α) where
  alike
    | .done a, .done b | .yield a, .yield b => Steers.alike a b
    | _, _ => False

instance [Steers α] : Steers (Grammar.Bracketed α) :=
  ⟨fun x y => Steers.alike x.items y.items ∧ x.trailingComma = y.trailingComma⟩

instance : Steers Attributes := ⟨fun x y => x.isEmpty = y.isEmpty⟩

/-- A statement is alike another if both are the same expression or both are `let`s. -/
instance : Steers Stmt where
  alike
    | .expr id, .expr id' => id = id'
    | .letIn _ _ _ _, .letIn _ _ _ _ => True
    | _, _ => False

/-- Values that are alike only if they are the same. -/
class Steers.Exact (α : Type) [Steers α] : Prop where
  eq : ∀ a b : α, Steers.alike a b → a = b
  refl : ∀ a : α, Steers.alike a a

namespace Steers.Exact

instance : Steers.Exact Bool := ⟨fun _ _ h => h, fun _ => rfl⟩
instance : Steers.Exact ExprId := ⟨fun _ _ h => h, fun _ => rfl⟩

instance [Steers α] [h : Steers.Exact α] : Steers.Exact (Option α) where
  eq a b hab := by
    cases hab with
    | some hab => rw [h.eq _ _ hab]
    | none => rfl
  refl a := by
    cases a with
    | none => exact .none
    | some a => exact .some (h.refl a)

instance [Steers α] [h : Steers.Exact α] : Steers.Exact (List α) where
  eq _ _ hab := List.forall₂_eq_eq_eq ▸ List.Forall₂.imp h.eq hab
  refl _ := List.forall₂_same.2 fun a _ => h.refl a

end Steers.Exact

/-- Two values that steer a parse the same way. -/
class Alike [Steers α] (a b : α) : Prop where
  alike : Steers.alike a b

namespace Alike

instance (priority := low) (a b : α) : @Alike α (.nothing α) a b := ⟨trivial⟩

/-- Exact results are the same. -/
theorem eq [Steers α] [Steers.Exact α] {a b : α} [h : Alike a b] : a = b := Steers.Exact.eq a b h.alike

instance [Steers α] [hα : Steers.Exact α] (a : α) : Alike a a := ⟨hα.refl a⟩

instance [Steers α] : Alike (none : Option α) none := ⟨.none⟩

instance [Steers α] {a b : α} [h : Alike a b] : Alike (some a) (some b) := ⟨.some h.alike⟩

instance [Steers α] : Alike ([] : List α) [] := ⟨.nil⟩

instance [Steers α] {a b : α} {as bs : List α} [h : Alike a b] [hs : Alike as bs] :
    Alike (a :: as) (b :: bs) := ⟨.cons h.alike hs.alike⟩

instance [Steers α] {as bs : List α} [h : Alike as bs] : Alike as.reverse bs.reverse :=
  ⟨List.rel_reverse h.alike⟩

theorem getLast? [Steers α] {as bs : List α} (h : Alike as bs) : Alike as.getLast? bs.getLast? := by
  have hreverse := List.rel_reverse h.alike
  rw [← List.head?_reverse, ← List.head?_reverse]
  generalize as.reverse = as', bs.reverse = bs' at hreverse ⊢
  cases hreverse with
  | nil => exact ⟨.none⟩
  | cons h => exact ⟨.some h⟩

theorem isEmpty_eq [Steers α] {as bs : List α} [h : Alike as bs] : as.isEmpty = bs.isEmpty := by
  obtain ⟨h⟩ := h
  cases h <;> rfl

theorem isNone_eq [Steers α] {a b : Option α} [h : Alike a b] : a.isNone = b.isNone := by
  obtain ⟨h⟩ := h
  cases h <;> rfl

instance [Steers α] [Steers β] {a b : α} {c d : β} [h : Alike a b] [k : Alike c d] :
    Alike (a, c) (b, d) := ⟨h.alike, k.alike⟩

instance [Steers α] [Steers β] {x y : α × β} [h : Alike x y] : Alike x.1 y.1 := ⟨h.alike.1⟩

instance [Steers α] [Steers β] {x y : α × β} [h : Alike x y] : Alike x.2 y.2 := ⟨h.alike.2⟩

instance [Steers α] {a b : α} [h : Alike a b] : Alike (ForInStep.done a) (.done b) := ⟨h.alike⟩

instance [Steers α] {a b : α} [h : Alike a b] : Alike (ForInStep.yield a) (.yield b) := ⟨h.alike⟩

instance [Steers α] {as bs : List α} {c d : Bool} {A B : Span} [h : Alike as bs] [k : Alike c d] :
    Alike (Grammar.Bracketed.mk as c A) (.mk bs d B) := ⟨h.alike, k.eq⟩

instance [Steers α] {x y : Grammar.Bracketed α} [h : Alike x y] : Alike x.items y.items := ⟨h.alike.1⟩

instance [Steers α] {x y : Grammar.Bracketed α} [h : Alike x y] : Alike x.trailingComma y.trailingComma :=
  ⟨h.alike.2⟩

instance {id id' : ExprId} [h : Alike id id'] : Alike (Stmt.expr id) (.expr id') := ⟨h.eq⟩

instance {p p' : PatternId} {type type' : Option ExprId} {v v' : ExprId} {A B : Span} :
    Alike (Stmt.letIn p type v A) (.letIn p' type' v' B) := ⟨trivial⟩

/-! ### Kinds of expressions -/

section

variable {a b c d : ExprId} {as bs : List ExprId}

instance (k : ExprKind) : Alike k k := ⟨rfl⟩

instance (p q : Path) : Alike (ExprKind.path p) (.path q) := ⟨rfl⟩
instance (p q : Literal) : Alike (ExprKind.literal p) (.literal q) := ⟨rfl⟩
instance (p q : Ident) : Alike (ExprKind.freeVar p) (.freeVar q) := ⟨rfl⟩
instance (p q : Block) : Alike (ExprKind.block p) (.block q) := ⟨rfl⟩
instance (p q : List PatternId) : Alike (ExprKind.lambda p a) (.lambda q b) := ⟨rfl⟩
instance (p q : ParamSet) : Alike (ExprKind.pi p a) (.pi q b) := ⟨rfl⟩
instance (p q : ParamSet) : Alike (ExprKind.sigma p a) (.sigma q b) := ⟨rfl⟩
instance (p q : List MatchArm) : Alike (ExprKind.cases a p) (.cases b q) := ⟨rfl⟩
instance (p q : Option ExprId) : Alike (ExprKind.ret p) (.ret q) := ⟨rfl⟩

instance (p q : Ident) [h : Alike a b] [k : Alike c d] :
    Alike (ExprKind.binary a p c) (.binary b q d) := by
  rw [h.eq, k.eq]
  exact ⟨rfl⟩

instance [h : Alike a b] : Alike (ExprKind.ann a c) (.ann b d) := by
  rw [h.eq]
  exact ⟨rfl⟩

instance [h : Alike as bs] : Alike (ExprKind.array as) (.array bs) := by
  rw [h.eq]
  infer_instance

instance {e f : Option ExprId} {A : IfPosition} [h : Alike e f] :
    Alike (ExprKind.cond a c e A) (.cond b d f A) := by
  obtain ⟨h⟩ := h
  cases h <;> cases A <;> exact ⟨rfl⟩

instance {x y : Bool} [h : Alike as bs] [k : Alike x y] :
    Alike (Grammar.groupOrTuple as x) (Grammar.groupOrTuple bs y) := by
  rw [h.eq, k.eq]
  infer_instance

instance (ctx : Context) {p q : Option Block} [h : Alike a b] [hs : Alike as bs] [k : Alike p q] :
    Alike (Grammar.applicationKind ctx a as p) (Grammar.applicationKind ctx b bs q) := by
  rw [h.eq, hs.eq]
  obtain ⟨k⟩ := k
  unfold Grammar.applicationKind
  cases k <;> split <;> exact ⟨rfl⟩

end

end Alike

end SolSyntax
