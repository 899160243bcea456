import SolSyntax.Proofs.Derivation
import SolSyntax.Proofs.Storage

/-!
# What a step of a parse stores

`Grew s t x ts`: between two states of a parse the arena has grown by a stretch that holds exactly
the views `x`, with the outlines `ts`, and what was there before has stayed.

Principal results: `Grew.trans` — stretches follow one another; `Grew.newExpr`, `Grew.newPattern` —
a new node closes the stretch; `Grew.toType` — reading an expression again as a type.
-/

namespace SolSyntax.Grammar

open Outline (leaf node)

/-- From `s` to `t` the arena has grown by the views `x`, whose outlines are `ts`. -/
structure Grew (s t : State) (x : List (Outline Ref)) (ts : List (Outline TokenKind)) : Prop where
  names : s.names.Kept t.names
  arena : s.arena.Kept t.arena
  stores : Stores t.names t.arena s.arena.mark x ts t.arena.mark

namespace Grew

variable {s t u : State} {x y : List (Outline Ref)} {ts us : List (Outline TokenKind)}

theorem refl (s : State) : Grew s s [] [] := ⟨.refl _, .refl _, .nil _⟩

theorem trans (h : Grew s t x ts) (k : Grew t u y us) : Grew s u (x ++ y) (ts ++ us) :=
  ⟨h.names.trans k.names, h.arena.trans k.arena, (h.stores.mono k.names k.arena).append k.stores⟩

/-- The cursor does not matter. -/
theorem move (h : Grew s t x ts) (ha : u.arena = t.arena) (hn : u.names = t.names) :
    Grew s u x ts := by
  obtain ⟨h₁, h₂, h₃⟩ := h
  exact ⟨hn ▸ h₁, ha ▸ h₂, ha ▸ hn ▸ h₃⟩

/-- More names do not matter. -/
theorem name (h : Grew s t x ts) (ha : u.arena = t.arena) (hn : t.names.Kept u.names) :
    Grew s u x ts :=
  ⟨h.names.trans hn, ha ▸ h.arena, ha ▸ h.stores.mono hn (.refl _)⟩

/-- One node around the whole stretch. -/
theorem wrap (h : Grew s t x ts) (form : Form) : Grew s t [node form x] [node form ts] :=
  ⟨h.names, h.arena, h.stores.wrap form⟩

/-- A token that a node will hold. -/
theorem token (h : Grew s t x ts) (k : TokenKind) :
    Grew s t (x ++ [leaf (.token k)]) (ts ++ [leaf k]) :=
  ⟨h.names, h.arena, h.stores.append (.token k (.nil _))⟩

/-- An operator that a node will hold. -/
theorem op (h : Grew s t x ts) {n : Name} {k : TokenKind} (hn : t.names.IsOperator n k) :
    Grew s t (x ++ [leaf (.op n)]) (ts ++ [leaf k]) :=
  ⟨h.names, h.arena, h.stores.append (.op hn (.nil _))⟩

/-- A sign that is used as an operator. -/
theorem intern (s : State) {text : String} {k : TokenKind}
    (hop : ∀ {names : Interner} {n : Name}, names.strings[n.index]? = some text →
      names.IsOperator n k) :
    Grew s { s with names := (s.names.intern text).2 } [leaf (.op (s.names.intern text).1)] [leaf k] := by
  have grown : Grew s { s with names := (s.names.intern text).2 } [] [] :=
    (refl s).name rfl (.intern s.names text)
  exact grown.op (hop (Interner.Kept.strings_intern _ _))

theorem newExpr {kind : ExprKind} {o : Outline TokenKind} (h : Grew s t [kind.view] [o])
    (span : Span) :
    Grew s { t with arena := (t.arena.newExpr ⟨kind, span⟩).2 }
      [(t.arena.newExpr ⟨kind, span⟩).1.view] [o] :=
  ⟨h.names, h.arena.trans (.newExpr _ _), h.stores.newExpr span⟩

theorem newPattern {kind : PatternKind} {o : Outline TokenKind} (h : Grew s t [kind.view] [o])
    (span : Span) :
    Grew s { t with arena := (t.arena.newPattern ⟨kind, span⟩).2 }
      [(t.arena.newPattern ⟨kind, span⟩).1.view] [o] :=
  ⟨h.names, h.arena.trans (.newPattern _ _), h.stores.newPattern span⟩

/-- Whether a stored expression is a closed form can be seen from its outline. -/
theorem isClosedForm_of_stores {id : ExprId} {o : Outline TokenKind} {m m' : Mark}
    (h : Stores t.names t.arena m [id.view] [o] m') :
    isClosedForm id t = .ok o.isClosedForm t := by
  obtain ⟨⟨kind, span⟩, u, p, he, hs, hu, -⟩ := h.expr_inv
  cases hu
  have hk : (t.arena.expr? id).map Expr.kind = some kind := by rw [he]; rfl
  rw [isClosedForm, hk]
  cases kind with
  | app callee args b =>
    cases b <;> obtain ⟨us, ho, -⟩ := hs.unwrap <;> cases ho <;> rfl
  | _ =>
    obtain ⟨us, ho, -⟩ := hs.unwrap
    cases ho
    rfl

/-- Whether a stored expression is an `if` without `else` can be seen from its outline. -/
theorem isOpenIf_of_stores {id : ExprId} {o : Outline TokenKind} {m m' : Mark}
    (h : Stores t.names t.arena m [id.view] [o] m') : isOpenIf id t = .ok o.isOpenIf t := by
  obtain ⟨⟨kind, span⟩, u, p, he, hs, hu, -⟩ := h.expr_inv
  cases hu
  have hk : (t.arena.expr? id).map Expr.kind = some kind := by rw [he]; rfl
  rw [isOpenIf, hk]
  cases kind with
  | app callee args b =>
    cases b <;> obtain ⟨us, ho, -⟩ := hs.unwrap <;> cases ho <;> rfl
  | cond test thenBranch elseBranch position =>
    obtain ⟨us, ho, hparts⟩ := hs.unwrap
    cases ho
    obtain ⟨_, _, _, rfl, -, hparts⟩ := hparts.split
    obtain ⟨_, _, _, rfl, -, hparts⟩ := hparts.split
    obtain ⟨_, _, _, rfl, helse, hparts⟩ := hparts.split
    cases hparts
    obtain ⟨es, ho, hes⟩ := helse.unwrap
    cases ho
    cases elseBranch with
    | none =>
      have hnil : es = [] := List.eq_nil_of_length_eq_zero hes.length_eq
      rw [hnil]
      cases position <;> rfl
    | some e =>
      obtain ⟨o, rfl⟩ := List.length_eq_one_iff.1 hes.length_eq
      cases position <;> rfl
  | _ =>
    obtain ⟨us, ho, -⟩ := hs.unwrap
    cases ho
    rfl

/-- What was there before an expression stays where it is when the expression becomes a type. -/
theorem kept_outside {m m' : Mark} {a b c : Arena} (h : a.Kept b) (ho : Stores.Outside m m' b c)
    (hm : a.exprs.size ≤ m.exprs) : a.Kept c := by
  refine ⟨fun id e he => ?_, fun id p hp => ?_⟩
  · have hlt : id.index < a.exprs.size := (Array.getElem?_eq_some_iff.1 he).1
    rw [ho.expr id (.inl (by omega)), h.expr id e he]
  · have := h.pattern id p hp
    simp only [Arena.pattern?, ho.patterns] at this ⊢
    exact this

/-- Reading an expression again as a type succeeds if and only if its outline is a type. -/
theorem toType {id : ExprId} {o : Outline TokenKind} (h : Grew s t [id.view] [o]) :
    (∃ o' u, o.asType = some o' ∧ Grammar.toType id t = .ok () u ∧ u.cursor = t.cursor ∧
        Grew s u [id.view] [o']) ∨
      (∃ e u, o.asType = none ∧ Grammar.toType id t = .error (.error e) u ∧ u.cursor = t.cursor ∧
        s.arena.Kept u.arena) := by
  have hr := Stores.toType_retagged h.stores
  unfold Grammar.toType
  generalize hres : t.arena.toType id = r at hr
  cases ho : o.asType with
  | none =>
    rw [ho] at hr
    cases hr with
    | error hout => exact .inr ⟨_, _, rfl, rfl, rfl, kept_outside h.arena hout (Nat.le_refl _)⟩
  | some o' =>
    rw [ho] at hr
    cases hr with
    | @ok _ b hs hout =>
      refine .inl ⟨o', _, rfl, rfl, rfl, h.names, kept_outside h.arena hout (Nat.le_refl _), ?_⟩
      have hm : b.mark = t.arena.mark := by
        rw [Arena.mark, Arena.mark, hout.size, hout.patterns]
      rw [show ({ t with arena := b } : State).arena.mark = t.arena.mark from hm]
      exact hs

end Grew

end SolSyntax.Grammar
