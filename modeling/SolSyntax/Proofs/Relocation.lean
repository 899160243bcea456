import SolSyntax.Proofs.Storage
import SolSyntax.Grammar.Decl

/-!
# Syntax behind other syntax

Declarations refer to the parts of their expressions by index.  When the arena of one module is put
behind that of another, the indices move on by the sizes of the first: `relocate` does this for every
kind of syntax, and `Arena.behind` for a whole arena.

Principal results: `Arena.expr?_behind`, `Arena.newExpr_behind` — finding and storing commute with
relocation; `Stores.toType_behind` — so does reading an expression again as a type.
-/

namespace SolSyntax

open Outline (asType asTypes)

/-! ## Moving indices on -/

/-- Syntax that may refer to an arena. -/
class Relocate (α : Type) where
  /-- The same syntax behind so many expressions and patterns. -/
  relocate : Mark → α → α
  relocate_zero : ∀ a : α, relocate ⟨0, 0⟩ a = a

export Relocate (relocate relocate_zero)

attribute [simp] relocate_zero

/-- What does not refer to the arena stays as it is. -/
@[reducible] def Relocate.fixed (α : Type) : Relocate α := ⟨fun _ a => a, fun _ => rfl⟩

instance : Relocate Span := .fixed Span

instance : Relocate Ident := .fixed Ident

instance : Relocate Path := .fixed Path

instance : Relocate ExprId := ⟨fun m id => ⟨m.exprs + id.index⟩, fun id => by simp⟩

instance : Relocate PatternId := ⟨fun m id => ⟨m.patterns + id.index⟩, fun id => by simp⟩

theorem relocate_exprId (m : Mark) (id : ExprId) : relocate m id = ⟨m.exprs + id.index⟩ := rfl

theorem relocate_patternId (m : Mark) (id : PatternId) :
    relocate m id = ⟨m.patterns + id.index⟩ := rfl

section Containers

variable {α β : Type} [Relocate α] [Relocate β]

instance : Relocate (List α) :=
  ⟨fun m as => as.map (relocate m), fun as => by
    rw [show (relocate ⟨0, 0⟩ : α → α) = id from funext relocate_zero, List.map_id]⟩

instance : Relocate (Option α) :=
  ⟨fun m o => o.map (relocate m), fun o => by cases o <;> simp⟩

instance : Relocate (α × β) :=
  ⟨fun m p => (relocate m p.1, relocate m p.2), fun p => by simp⟩

instance : Relocate (Grammar.Bracketed α) :=
  ⟨fun m b => ⟨relocate m b.items, b.trailingComma, b.span⟩, fun b => by simp⟩

end Containers

instance : Relocate PatternKind :=
  ⟨fun m kind => match kind with
    | .constructor path args => .constructor path (relocate m args)
    | .group inner => .group (relocate m inner)
    | .rest => .rest
    | .literal value => .literal value, fun kind => by cases kind <;> simp⟩

instance : Relocate Pattern := ⟨fun m p => ⟨relocate m p.kind, p.span⟩, fun p => by simp⟩

instance : Relocate ParamKind :=
  ⟨fun m kind => match kind with
    | .typed binding type => .typed (relocate m binding) (relocate m type)
    | .forAll name => .forAll name
    | .untyped pattern => .untyped (relocate m pattern), fun kind => by cases kind <;> simp⟩

instance : Relocate Param := ⟨fun m p => ⟨relocate m p.kind, p.span⟩, fun p => by simp⟩

instance : Relocate ParamSet :=
  ⟨fun m p => ⟨p.kind, relocate m p.params, p.span⟩, fun p => by simp⟩

instance : Relocate Stmt :=
  ⟨fun m stmt => match stmt with
    | .letIn pattern type value span =>
      .letIn (relocate m pattern) (relocate m type) (relocate m value) span
    | .expr value => .expr (relocate m value), fun stmt => by cases stmt <;> simp⟩

instance : Relocate Block := ⟨fun m b => ⟨relocate m b.stmts, b.span⟩, fun b => by simp⟩

instance : Relocate MatchArm :=
  ⟨fun m arm => ⟨relocate m arm.pattern, relocate m arm.body, arm.span⟩, fun arm => by simp⟩

instance : Relocate ExprKind :=
  ⟨fun m kind => match kind with
    | .literal value => .literal value
    | .path path => .path path
    | .freeVar name => .freeVar name
    | .univ => .univ
    | .group inner => .group (relocate m inner)
    | .tuple items trailingComma => .tuple (relocate m items) trailingComma
    | .array items => .array (relocate m items)
    | .lambda params body => .lambda (relocate m params) (relocate m body)
    | .app callee args block => .app (relocate m callee) (relocate m args) (relocate m block)
    | .typeApp callee args => .typeApp (relocate m callee) (relocate m args)
    | .binary lhs op rhs => .binary (relocate m lhs) op (relocate m rhs)
    | .ann value type => .ann (relocate m value) (relocate m type)
    | .pi params result => .pi (relocate m params) (relocate m result)
    | .sigma params result => .sigma (relocate m params) (relocate m result)
    | .cases scrutinee arms => .cases (relocate m scrutinee) (relocate m arms)
    | .cond test thenBranch elseBranch position =>
      .cond (relocate m test) (relocate m thenBranch) (relocate m elseBranch) position
    | .ret value => .ret (relocate m value)
    | .block block => .block (relocate m block), fun kind => by cases kind <;> simp⟩

instance : Relocate Expr := ⟨fun m e => ⟨relocate m e.kind, e.span⟩, fun e => by simp⟩

instance : Relocate Attribute :=
  ⟨fun m a => ⟨a.path, relocate m a.args, a.span⟩, fun a => by simp⟩

instance : Relocate Attributes :=
  ⟨fun m a => ⟨a.docs, relocate m a.attributes⟩, fun a => by simp⟩

instance : Relocate Grammar.Attachment :=
  ⟨fun m a => match a with
    | .doc text => .doc text
    | .attr value => .attr (relocate m value), fun a => by cases a <;> simp⟩

instance : Relocate ConstructorKind :=
  ⟨fun m kind => match kind with
    | .signature type => .signature (relocate m type)
    | .function fields => .function (relocate m fields), fun kind => by cases kind <;> simp⟩

instance : Relocate Constructor :=
  ⟨fun m c => ⟨relocate m c.attrs, c.name, relocate m c.kind, c.span⟩, fun c => by simp⟩

instance : Relocate DeclKind :=
  ⟨fun m kind => match kind with
    | .command name args => .command name (relocate m args)
    | .using path => .using path
    | .inductiveType name params type constructors =>
      .inductiveType name (relocate m params) (relocate m type) (relocate m constructors)
    | .signature name params type body =>
      .signature name (relocate m params) (relocate m type) (relocate m body)
    | .clause name patterns value => .clause name (relocate m patterns) (relocate m value),
    fun kind => by cases kind <;> simp⟩

instance : Relocate Decl :=
  ⟨fun m d => ⟨relocate m d.attrs, d.visibility, relocate m d.kind, d.span⟩, fun d => by simp⟩

/-! ## One arena behind another -/

namespace Arena

/-- The contents of an arena after those of another. -/
def behind (a base : Arena) : Arena :=
  ⟨base.exprs ++ a.exprs.map (relocate base.mark), base.patterns ++ a.patterns.map (relocate base.mark)⟩

variable (a base : Arena)

@[simp] theorem empty_behind : empty.behind base = base := by simp [behind, empty]

@[simp] theorem behind_empty : a.behind empty = a := by
  have hm : (empty : Arena).mark = ⟨0, 0⟩ := rfl
  have he : (relocate (empty : Arena).mark : Expr → Expr) = id := funext fun e => by rw [hm]; simp
  have hp : (relocate (empty : Arena).mark : Pattern → Pattern) = id := funext fun p => by rw [hm]; simp
  rw [behind, he, hp]
  simp [empty]

@[simp] theorem expr?_behind (id : ExprId) :
    (a.behind base).expr? (relocate base.mark id) = (a.expr? id).map (relocate base.mark) := by
  rw [expr?, expr?, behind, relocate_exprId, mark, Array.getElem?_append_right (Nat.le_add_right _ _),
    Nat.add_sub_cancel_left, Array.getElem?_map]

@[simp] theorem pattern?_behind (id : PatternId) :
    (a.behind base).pattern? (relocate base.mark id) = (a.pattern? id).map (relocate base.mark) := by
  rw [pattern?, pattern?, behind, relocate_patternId, mark,
    Array.getElem?_append_right (Nat.le_add_right _ _), Nat.add_sub_cancel_left, Array.getElem?_map]

@[simp] theorem exprSpan_behind (id : ExprId) :
    (a.behind base).exprSpan (relocate base.mark id) = a.exprSpan id := by
  rw [exprSpan, exprSpan, expr?_behind, Option.map_map]
  rfl

@[simp] theorem patternSpan_behind (id : PatternId) :
    (a.behind base).patternSpan (relocate base.mark id) = a.patternSpan id := by
  rw [patternSpan, patternSpan, pattern?_behind, Option.map_map]
  rfl

theorem newExpr_behind (e : Expr) :
    (a.behind base).newExpr (relocate base.mark e) =
      (relocate base.mark (a.newExpr e).1, (a.newExpr e).2.behind base) := by
  simp only [newExpr, behind, relocate_exprId, mark, Array.size_append, Array.size_map,
    Array.map_push, Array.append_push]

theorem newPattern_behind (p : Pattern) :
    (a.behind base).newPattern (relocate base.mark p) =
      (relocate base.mark (a.newPattern p).1, (a.newPattern p).2.behind base) := by
  simp only [newPattern, behind, relocate_patternId, mark, Array.size_append, Array.size_map,
    Array.map_push, Array.append_push]

theorem setKind_behind (id : ExprId) (kind : ExprKind) :
    (a.behind base).setKind (relocate base.mark id) (relocate base.mark kind) =
      (a.setKind id kind).behind base := by
  have hexprs : (base.exprs ++ a.exprs.map (relocate base.mark)).modify (base.exprs.size + id.index)
      (fun e => { e with kind := relocate base.mark kind }) =
      base.exprs ++ (a.exprs.modify id.index fun e => { e with kind }).map (relocate base.mark) := by
    apply Array.ext_getElem?
    intro i
    rw [Array.getElem?_modify]
    by_cases hi : i < base.exprs.size
    · rw [if_neg (by omega), Array.getElem?_append_left hi, Array.getElem?_append_left hi]
    · obtain ⟨j, rfl⟩ := Nat.exists_eq_add_of_le (Nat.le_of_not_lt hi)
      rw [Array.getElem?_append_right (Nat.le_add_right _ _),
        Array.getElem?_append_right (Nat.le_add_right _ _), Nat.add_sub_cancel_left,
        Array.getElem?_map, Array.getElem?_map, Array.getElem?_modify]
      by_cases hj : id.index = j
      · rw [if_pos (by omega), if_pos hj, Option.map_map, Option.map_map]
        rfl
      · rw [if_neg (by omega), if_neg hj]
  exact congrArg (fun exprs => (⟨exprs, (a.behind base).patterns⟩ : Arena)) hexprs

/-! ## Reading an expression as a type -/

/-- What reading types does in an arena, it does in an arena behind another. -/
def Uniform (base : Arena) (f g : ExprId → Arena → Except BlockInType Unit × Arena) : Prop :=
  ∀ id a, g (relocate base.mark id) (a.behind base) = ((f id a).1, (f id a).2.behind base)

variable {base}

theorem forEach_behind {f g : ExprId → Arena → Except BlockInType Unit × Arena}
    (h : Uniform base f g) (ids : List ExprId) (a : Arena) :
    forEach g (relocate base.mark ids) (a.behind base) =
      ((forEach f ids a).1, (forEach f ids a).2.behind base) := by
  induction ids generalizing a with
  | nil => rfl
  | cons id ids ih =>
    show forEach g (relocate base.mark id :: relocate base.mark ids) _ = _
    simp only [forEach, h id a]
    obtain ⟨_ | _, b⟩ := f id a
    · rfl
    · exact ih b

theorem retag_behind (base : Arena) (fuel : Nat) : Uniform base (retag fuel) (retag fuel) := by
  induction fuel with
  | zero => exact fun _ _ => rfl
  | succ fuel ih =>
    intro id a
    have enter := forEach_behind ih
    simp only [retag, expr?_behind, Option.map_map]
    cases he : a.expr? id with
    | none => rfl
    | some e =>
      obtain ⟨kind, span⟩ := e
      cases kind with
      | app callee args block =>
        cases block with
        | some block => rfl
        | none =>
          have hset := setKind_behind a base id (.typeApp callee args)
          have := enter (callee :: args) (a.setKind id (.typeApp callee args))
          rw [← hset] at this
          exact this
      | binary lhs op rhs => exact enter [lhs, rhs] a
      | ann value type => exact enter [value] a
      | group inner => exact enter [inner] a
      | tuple items trailingComma => exact enter items a
      | array items => exact enter items a
      | _ => rfl

end Arena

namespace Stores

variable {names : Interner} {a base : Arena} {m m' : Mark} {ts : List (Outline TokenKind)}

/-- Two ways to read some expressions that read each of them alike read all of them alike. -/
theorem forEach_congr {f g : ExprId → Arena → Except Arena.BlockInType Unit × Arena}
    {ids : List ExprId} {n : Nat}
    (hf : ∀ (id : ExprId) (a : Arena) (m : Mark) t m', id.index < n → Stores names a m [id.view] [t] m' →
      Retagged names a m [id.view] m' ((asType t).map ([·])) (f id a))
    (hg : ∀ (id : ExprId) (a : Arena) (m : Mark) t m', id.index < n → Stores names a m [id.view] [t] m' →
      g id a = f id a)
    (h : Stores names a m (ids.map ExprId.view) ts m') (hn : m'.exprs ≤ n) :
    Arena.forEach g ids a = Arena.forEach f ids a := by
  induction ids generalizing a m ts with
  | nil => rfl
  | cons id ids ih =>
    obtain ⟨t, ts, m₁, rfl, h₁, h₂⟩ := h.split
    obtain ⟨e, u, p, -, -, -, rfl⟩ := h₁.expr_inv
    have le₁ := h₁.le
    have le₂ := h₂.le
    simp only at le₁ le₂
    have first := hf id a m t _ (by omega) h₁
    simp only [Arena.forEach, hg id a m t _ (by omega) h₁]
    generalize hr : f id a = r at first
    cases ht : asType t with
    | none =>
      rw [ht] at first
      cases first
      rfl
    | some t' =>
      rw [ht] at first
      cases first with
      | ok _ ho => exact ih (h₂.outside ho (.inr (Nat.le_refl _)))

/-- Any bound above the index of the root is enough to read an expression as a type. -/
theorem retag_eq {id : ExprId} {t : Outline TokenKind} {n n' : Nat} (hn : id.index < n)
    (hn' : id.index < n') (h : Stores names a m [id.view] [t] m') :
    Arena.retag n' id a = Arena.retag n id a := by
  induction n generalizing id a m t m' n' with
  | zero => omega
  | succ n ih =>
    obtain _ | n' := n'
    · omega
    obtain ⟨⟨kind, span⟩, u, p, he, hk, ht, rfl⟩ := h.expr_inv
    cases ht
    have hkind : (a.expr? id).map Expr.kind = some kind := by simp [he]
    have le := hk.le
    simp only at le
    have enter : ∀ (ids : List ExprId) (b : Arena) (us : List (Outline TokenKind)) (m₁ : Mark),
        m₁.exprs ≤ id.index → Stores names b m (ids.map ExprId.view) us m₁ →
        Arena.forEach (Arena.retag n') ids b = Arena.forEach (Arena.retag n) ids b :=
      fun ids b us m₁ hm hs =>
        forEach_congr (n := id.index)
          (fun id' a m t m' hid => retag_retagged _ id' a m t m' (by omega))
          (fun id' a m t m' hid hs => ih (by omega) (by omega) hs) hs hm
    unfold Arena.retag
    rw [hkind]
    cases kind with
    | app callee args block =>
      cases block with
      | some block => rfl
      | none =>
        obtain ⟨us, hu, hs⟩ := hk.unwrap
        have hs' := hs.congr (agreeOn_setKind a id (.typeApp callee args) m p)
        exact enter (callee :: args) _ us _ (Nat.le_refl _) hs'
    | binary lhs op rhs =>
      obtain ⟨us, hu, hs⟩ := hk.unwrap
      obtain ⟨l, _, m₁, rfl, hl, hs⟩ := hs.split
      cases hs with
      | op hop hs =>
        obtain ⟨r, _, m₂, rfl, hr, hs⟩ := hs.split
        cases hs
        exact enter [lhs, rhs] a [l, r] _ (Nat.le_refl _) (hl.append hr)
    | ann value type =>
      obtain ⟨us, hu, hs⟩ := hk.unwrap
      obtain ⟨v, _, m₁, rfl, hv, hs⟩ := hs.split
      exact enter [value] a [v] _ hs.le.1 hv
    | group inner =>
      obtain ⟨us, hu, hs⟩ := hk.unwrap
      exact enter [inner] a us _ (Nat.le_refl _) hs
    | tuple items trailing =>
      obtain ⟨us, hu, hs⟩ := hk.unwrap
      exact enter items a us _ (Nat.le_refl _) hs
    | array items =>
      obtain ⟨us, hu, hs⟩ := hk.unwrap
      exact enter items a us _ (Nat.le_refl _) hs
    | _ => rfl

/-- Reading an expression as a type does behind another arena what it does in its own. -/
theorem toType_behind {id : ExprId} {t : Outline TokenKind} (base : Arena)
    (h : Stores names a m [id.view] [t] m') :
    (a.behind base).toType (relocate base.mark id) =
      ((a.toType id).1, (a.toType id).2.behind base) := by
  have hid := relocate_exprId base.mark id
  rw [Arena.toType, Arena.retag_behind base _ id a, Arena.toType,
    h.retag_eq (Nat.lt_succ_self id.index) (by rw [hid]; simp only; omega)]

end Stores

end SolSyntax
