import SolSyntax.Proofs.Outline

/-!
# Outlines in an arena

`Stores` says that a stretch of an arena holds the parts of some views and nothing else: parts come
before the whole, in the order in which they are written, without a gap.  A stretch is a pair of
marks, each of which counts the expressions and the patterns before it.

Principal results: `Stores.congr` — what a stretch holds depends on the stretch alone;
`Stores.toType` — reading an expression again as a type works on its stretch alone, and fails if and
only if there is a block in the way; `Stores.read` — following the references of the views gives the
outlines.
-/

namespace SolSyntax

open Outline (leaf node asType asTypes leavesAll)

/-- So many expressions and patterns. -/
structure Mark where
  exprs : Nat
  patterns : Nat
  deriving DecidableEq, Repr

/-- The end of an arena. -/
def Arena.mark (a : Arena) : Mark := ⟨a.exprs.size, a.patterns.size⟩

/-- What was stored stays where it is. -/
structure Arena.Kept (a b : Arena) : Prop where
  expr : ∀ id e, a.expr? id = some e → b.expr? id = some e
  pattern : ∀ id p, a.pattern? id = some p → b.pattern? id = some p

/-- Names keep their strings. -/
def Interner.Kept (names more : Interner) : Prop :=
  ∀ (i : Nat) (s : String), names.strings[i]? = some s → more.strings[i]? = some s

namespace Arena.Kept

theorem refl (a : Arena) : a.Kept a := ⟨fun _ _ h => h, fun _ _ h => h⟩

theorem trans {a b c : Arena} (h : a.Kept b) (k : b.Kept c) : a.Kept c :=
  ⟨fun id e he => k.expr id e (h.expr id e he), fun id p hp => k.pattern id p (h.pattern id p hp)⟩

theorem newExpr (a : Arena) (e : Expr) : a.Kept (a.newExpr e).2 := by
  refine ⟨fun id e' h => ?_, fun _ _ h => h⟩
  have hlt : id.index < a.exprs.size := (Array.getElem?_eq_some_iff.1 h).1
  rw [Arena.expr?_newExpr_of_lt a e hlt, h]

theorem newPattern (a : Arena) (p : Pattern) : a.Kept (a.newPattern p).2 := by
  refine ⟨fun _ _ h => h, fun id p' h => ?_⟩
  have hlt : id.index < a.patterns.size := (Array.getElem?_eq_some_iff.1 h).1
  rw [Arena.pattern?_newPattern_of_lt a p hlt, h]

end Arena.Kept

namespace Interner.Kept

theorem refl (names : Interner) : names.Kept names := fun _ _ h => h

theorem trans {a b c : Interner} (h : a.Kept b) (k : b.Kept c) : a.Kept c :=
  fun i s hi => k i s (h i s hi)

theorem intern (names : Interner) (s : String) : names.Kept (names.intern s).2 := by
  intro i t h
  unfold Interner.intern
  cases names.find? s with
  | some _ => exact h
  | none =>
    have hlt : i < names.strings.size := (Array.getElem?_eq_some_iff.1 h).1
    rw [Array.getElem?_push_lt hlt, ← Array.getElem?_eq_getElem hlt, h]

theorem strings_intern (names : Interner) (s : String) :
    (names.intern s).2.strings[(names.intern s).1.index]? = some s := by
  unfold Interner.intern
  cases h : names.find? s with
  | none => simp [Interner.size]
  | some n => exact Interner.find?_eq_some h

/-- Interning a string goes as it went before, once that is kept. -/
theorem intern_eq {names more : Interner} {s : String} (h : (names.intern s).2.Kept more) :
    more.intern s = ((names.intern s).1, more) := by
  have hat := h _ _ (strings_intern names s)
  -- no string before that one is the same
  have hfirst : ∀ (j : Nat) (t : String), j < (names.intern s).1.index →
      more.strings[j]? = some t → t ≠ s := by
    intro j t hj ht
    have hkept := (intern names s).trans h
    cases hf : names.find? s with
    | some n =>
      rw [Interner.intern, hf] at hj
      obtain ⟨i, hi, rfl⟩ := Option.map_eq_some_iff.1 hf
      obtain ⟨hlt, -, hne⟩ := Array.findIdx?_eq_some_iff_getElem.1 hi
      have hold := hkept j _ (Array.getElem?_eq_getElem (Nat.lt_trans hj hlt))
      rw [ht] at hold
      rw [Option.some.inj hold]
      simpa using hne j hj
    | none =>
      rw [Interner.intern, hf] at hj
      have hold := hkept j _ (Array.getElem?_eq_getElem hj)
      rw [ht] at hold
      rw [Option.some.inj hold]
      exact fun he => Interner.find?_eq_none hf (he ▸ Array.getElem_mem hj)
  obtain ⟨hlt, he⟩ := Array.getElem?_eq_some_iff.1 hat
  have hfind : more.find? s = some (names.intern s).1 := by
    rw [Interner.find?, Option.map_eq_some_iff]
    refine ⟨_, Array.findIdx?_eq_some_iff_getElem.2 ⟨hlt, by simp [he], fun j hj => ?_⟩, rfl⟩
    have := hfirst j _ hj (Array.getElem?_eq_getElem (Nat.lt_trans hj hlt))
    simpa using this
  rw [Interner.intern, hfind]

end Interner.Kept

/-- A name that a node holds as its operator comes from a token of a given kind. -/
inductive Interner.IsOperator (names : Interner) (n : Name) : TokenKind → Prop
  | operator : names.IsOperator n (.operator n)
  | pipe (h : names.strings[n.index]? = some "|") : names.IsOperator n .pipe
  | dot (h : names.strings[n.index]? = some ".") : names.IsOperator n .dot

theorem Interner.IsOperator.mono {names more : Interner} {n : Name} {k : TokenKind}
    (h : names.IsOperator n k) (hk : names.Kept more) : more.IsOperator n k := by
  cases h with
  | operator => exact .operator
  | pipe h => exact .pipe (hk _ _ h)
  | dot h => exact .dot (hk _ _ h)

/-- Views whose parts fill the stretch between two marks, with their outlines. -/
inductive Stores (names : Interner) (a : Arena) :
    Mark → List (Outline Ref) → List (Outline TokenKind) → Mark → Prop
  | nil (m) : Stores names a m [] [] m
  | token {m m' vs ts} (k) : Stores names a m vs ts m' →
      Stores names a m (leaf (.token k) :: vs) (leaf k :: ts) m'
  | op {m m' vs ts n k} : names.IsOperator n k → Stores names a m vs ts m' →
      Stores names a m (leaf (.op n) :: vs) (leaf k :: ts) m'
  | node {m₀ m m' ps us vs ts} (form) : Stores names a m₀ ps us m → Stores names a m vs ts m' →
      Stores names a m₀ (node form ps :: vs) (node form us :: ts) m'
  | expr {m m' vs ts id e u p} : a.expr? id = some e →
      Stores names a m [e.kind.view] [u] ⟨id.index, p⟩ →
      Stores names a ⟨id.index + 1, p⟩ vs ts m' →
      Stores names a m (leaf (.expr id) :: vs) (u :: ts) m'
  | pattern {m m' vs ts id p u} : a.pattern? id = some p →
      Stores names a m [p.kind.view] [u] ⟨m.exprs, id.index⟩ →
      Stores names a ⟨m.exprs, id.index + 1⟩ vs ts m' →
      Stores names a m (leaf (.pattern id) :: vs) (u :: ts) m'

namespace Stores

variable {names : Interner} {a b : Arena} {m m₁ m' : Mark} {vs ws : List (Outline Ref)}
  {ts us : List (Outline TokenKind)}

theorem le (h : Stores names a m vs ts m') :
    m.exprs ≤ m'.exprs ∧ m.patterns ≤ m'.patterns := by
  induction h with
  | nil => exact ⟨Nat.le_refl _, Nat.le_refl _⟩
  | token _ _ ih => exact ih
  | op _ _ ih => exact ih
  | node _ _ _ ih₁ ih₂ => omega
  | expr _ _ _ ih₁ ih₂ => simp only at ih₁ ih₂; omega
  | pattern _ _ _ ih₁ ih₂ => simp only at ih₁ ih₂; omega

theorem append (h : Stores names a m vs ts m₁) (k : Stores names a m₁ ws us m') :
    Stores names a m (vs ++ ws) (ts ++ us) m' := by
  induction h with
  | nil => exact k
  | token _ _ ih => exact .token _ (ih k)
  | op ho _ ih => exact .op ho (ih k)
  | node _ h₁ _ _ ih => exact .node _ h₁ (ih k)
  | expr he h₁ _ _ ih => exact .expr he h₁ (ih k)
  | pattern hp h₁ _ _ ih => exact .pattern hp h₁ (ih k)

/-- The first of some views has a stretch of its own. -/
theorem split {v : Outline Ref} (h : Stores names a m (v :: vs) ts m') :
    ∃ t ts' m₁, ts = t :: ts' ∧ Stores names a m [v] [t] m₁ ∧ Stores names a m₁ vs ts' m' := by
  cases h with
  | token k h => exact ⟨_, _, _, rfl, .token k (.nil _), h⟩
  | op ho h => exact ⟨_, _, _, rfl, .op ho (.nil _), h⟩
  | node form h₁ h => exact ⟨_, _, _, rfl, .node form h₁ (.nil _), h⟩
  | expr he h₁ h => exact ⟨_, _, _, rfl, .expr he h₁ (.nil _), h⟩
  | pattern hp h₁ h => exact ⟨_, _, _, rfl, .pattern hp h₁ (.nil _), h⟩

/-- Where a row of views is cut, its stretch is cut. -/
theorem split_append (h : Stores names a m (vs ++ ws) ts m') :
    ∃ us us' m₁, ts = us ++ us' ∧ Stores names a m vs us m₁ ∧ Stores names a m₁ ws us' m' := by
  induction vs generalizing m ts with
  | nil => exact ⟨[], ts, m, rfl, .nil m, h⟩
  | cons v vs ih =>
    obtain ⟨u, us, m₁, rfl, hv, h'⟩ := h.split
    obtain ⟨us₁, us₂, m₂, rfl, h₁, h₂⟩ := ih h'
    exact ⟨u :: us₁, us₂, m₂, rfl, hv.append h₁, h₂⟩

theorem length_eq (h : Stores names a m vs ts m') : ts.length = vs.length := by
  induction h <;> simp_all

/-- The arenas hold the same between two marks. -/
structure AgreeOn (m m' : Mark) (a b : Arena) : Prop where
  expr : ∀ id : ExprId, m.exprs ≤ id.index → id.index < m'.exprs → b.expr? id = a.expr? id
  pattern : ∀ id : PatternId, m.patterns ≤ id.index → id.index < m'.patterns →
    b.pattern? id = a.pattern? id

theorem AgreeOn.mono {n n' : Mark} (h : AgreeOn m m' a b) (he : m.exprs ≤ n.exprs)
    (hp : m.patterns ≤ n.patterns) (he' : n'.exprs ≤ m'.exprs) (hp' : n'.patterns ≤ m'.patterns) :
    AgreeOn n n' a b where
  expr id hm hm' := h.expr id (Nat.le_trans he hm) (Nat.lt_of_lt_of_le hm' he')
  pattern id hm hm' := h.pattern id (Nat.le_trans hp hm) (Nat.lt_of_lt_of_le hm' hp')

/-- What a stretch holds depends on the stretch alone. -/
theorem congr (h : Stores names a m vs ts m') (hab : AgreeOn m m' a b) : Stores names b m vs ts m' := by
  induction h with
  | nil => exact .nil _
  | token _ _ ih => exact .token _ (ih hab)
  | op ho _ ih => exact .op ho (ih hab)
  | node _ h₁ h₂ ih₁ ih₂ =>
    have l₁ := h₁.le
    have l₂ := h₂.le
    exact .node _ (ih₁ (hab.mono (Nat.le_refl _) (Nat.le_refl _) l₂.1 l₂.2))
      (ih₂ (hab.mono l₁.1 l₁.2 (Nat.le_refl _) (Nat.le_refl _)))
  | @expr m m' _ _ id _ _ p hid h₁ h₂ ih₁ ih₂ =>
    have l₁ : m.exprs ≤ id.index ∧ m.patterns ≤ p := h₁.le
    have l₂ : id.index < m'.exprs ∧ p ≤ m'.patterns := h₂.le
    exact .expr ((hab.expr id l₁.1 l₂.1).trans hid)
      (ih₁ (hab.mono (Nat.le_refl _) (Nat.le_refl _) (Nat.le_of_lt l₂.1) l₂.2))
      (ih₂ (hab.mono (Nat.le_succ_of_le l₁.1) l₁.2 (Nat.le_refl _) (Nat.le_refl _)))
  | @pattern m m' _ _ id _ _ hid h₁ h₂ ih₁ ih₂ =>
    have l₁ : m.exprs ≤ m.exprs ∧ m.patterns ≤ id.index := h₁.le
    have l₂ : m.exprs ≤ m'.exprs ∧ id.index < m'.patterns := h₂.le
    exact .pattern ((hab.pattern id l₁.2 l₂.2).trans hid)
      (ih₁ (hab.mono (Nat.le_refl _) (Nat.le_refl _) l₂.1 (Nat.le_of_lt l₂.2)))
      (ih₂ (hab.mono (Nat.le_refl _) (Nat.le_succ_of_le l₁.2) (Nat.le_refl _) (Nat.le_refl _)))

/-- A stretch stays as it is when more is stored and more names are known. -/
theorem mono {more : Interner} (h : Stores names a m vs ts m') (hn : names.Kept more)
    (ha : a.Kept b) : Stores more b m vs ts m' := by
  induction h with
  | nil => exact .nil _
  | token _ _ ih => exact .token _ ih
  | op ho _ ih => exact .op (ho.mono hn) ih
  | node _ _ _ ih₁ ih₂ => exact .node _ ih₁ ih₂
  | expr he _ _ ih₁ ih₂ => exact .expr (ha.expr _ _ he) ih₁ ih₂
  | pattern hp _ _ ih₁ ih₂ => exact .pattern (ha.pattern _ _ hp) ih₁ ih₂

/-- One node around the outlines of a stretch. -/
theorem wrap (h : Stores names a m vs ts m') (form : Form) :
    Stores names a m [.node form vs] [.node form ts] m' := .node form h (.nil _)

theorem unwrap {form : Form} (h : Stores names a m [.node form vs] us m') :
    ∃ ts, us = [.node form ts] ∧ Stores names a m vs ts m' := by
  cases h with
  | node _ h₁ h₂ =>
    cases h₂
    exact ⟨_, rfl, h₁⟩

/-- What the stretch of one expression is. -/
theorem expr_inv {id : ExprId} (h : Stores names a m [id.view] ts m') :
    ∃ e u p, a.expr? id = some e ∧ Stores names a m [e.kind.view] [u] ⟨id.index, p⟩ ∧ ts = [u] ∧
      m' = ⟨id.index + 1, p⟩ := by
  cases h with
  | expr he h₁ h₂ =>
    cases h₂
    exact ⟨_, _, _, he, h₁, rfl, rfl⟩

/-- A new expression closes the stretch of its parts. -/
theorem newExpr {kind : ExprKind} {t : Outline TokenKind} (span : Span)
    (h : Stores names a m [kind.view] [t] a.mark) :
    Stores names (a.newExpr ⟨kind, span⟩).2 m [(a.newExpr ⟨kind, span⟩).1.view] [t]
      (a.newExpr ⟨kind, span⟩).2.mark := by
  have hm : (a.newExpr ⟨kind, span⟩).2.mark = ⟨a.exprs.size + 1, a.patterns.size⟩ := by
    simp [Arena.mark, Arena.newExpr]
  rw [hm]
  exact .expr (Arena.expr?_newExpr a ⟨kind, span⟩)
    (h.mono (.refl _) (.newExpr a ⟨kind, span⟩)) (.nil _)

/-- A stretch without references to expressions holds no expressions. -/
theorem exprs_eq (h : Stores names a m vs ts m') (hv : ∀ id, Ref.expr id ∉ leavesAll vs) :
    m'.exprs = m.exprs := by
  induction h with
  | nil => rfl
  | token _ _ ih => exact ih fun id hid => hv id (by simp [hid])
  | op _ _ ih => exact ih fun id hid => hv id (by simp [hid])
  | node _ _ _ ih₁ ih₂ =>
    rw [ih₂ fun id hid => hv id (by simp [hid]), ih₁ fun id hid => hv id (by simp [hid])]
  | @expr _ _ _ _ id => exact absurd (by simp) (hv id)
  | pattern _ _ _ _ ih₂ => exact ih₂ fun id hid => hv id (by simp [hid])

theorem expr_notMem_view (kind : PatternKind) (id : ExprId) :
    Ref.expr id ∉ leavesAll [kind.view] := by
  cases kind <;>
    simp [PatternKind.view, Path.view, rowOf, Outline.leavesAll_eq_flatMap, PatternId.view,
      Ident.view, Literal.view]

/-- A new pattern closes the stretch of its parts. -/
theorem newPattern {kind : PatternKind} {t : Outline TokenKind} (span : Span)
    (h : Stores names a m [kind.view] [t] a.mark) :
    Stores names (a.newPattern ⟨kind, span⟩).2 m [(a.newPattern ⟨kind, span⟩).1.view] [t]
      (a.newPattern ⟨kind, span⟩).2.mark := by
  have hm : (a.newPattern ⟨kind, span⟩).2.mark = ⟨a.exprs.size, a.patterns.size + 1⟩ := by
    simp [Arena.mark, Arena.newPattern]
  have he : a.exprs.size = m.exprs := h.exprs_eq (expr_notMem_view kind)
  rw [hm, he]
  refine .pattern (Arena.pattern?_newPattern a ⟨kind, span⟩) ?_ (.nil _)
  rw [← he]
  exact h.mono (.refl _) (.newPattern a ⟨kind, span⟩)

/-! ## Reading a stretch as types -/

/-- The arenas differ at most in the expressions between two marks. -/
structure Outside (m m' : Mark) (a b : Arena) : Prop where
  expr : ∀ id : ExprId, id.index < m.exprs ∨ m'.exprs ≤ id.index → b.expr? id = a.expr? id
  patterns : b.patterns = a.patterns
  size : b.exprs.size = a.exprs.size

theorem Outside.refl (m m' : Mark) (a : Arena) : Outside m m' a a :=
  ⟨fun _ _ => rfl, rfl, rfl⟩

theorem Outside.trans {m m' : Mark} {a b c : Arena} (h : Outside m m' a b)
    (k : Outside m m' b c) : Outside m m' a c :=
  ⟨fun id hid => (k.expr id hid).trans (h.expr id hid), k.patterns.trans h.patterns,
    k.size.trans h.size⟩

theorem Outside.mono {m m' n n' : Mark} {a b : Arena} (h : Outside m m' a b)
    (hm : n.exprs ≤ m.exprs) (hm' : m'.exprs ≤ n'.exprs) : Outside n n' a b :=
  ⟨fun id hid => h.expr id (by omega), h.patterns, h.size⟩

/-- A stretch before or behind the place of a change stays as it is. -/
theorem outside {n n' : Mark} (h : Stores names a m vs ts m') (ho : Outside n n' a b)
    (hn : m'.exprs ≤ n.exprs ∨ n'.exprs ≤ m.exprs) : Stores names b m vs ts m' := by
  refine h.congr ⟨fun id _ _ => ho.expr id (by omega), fun id _ _ => ?_⟩
  simp only [Arena.pattern?, ho.patterns]

theorem outside_setKind (a : Arena) (id : ExprId) (kind : ExprKind) (m m' : Mark)
    (hm : m.exprs ≤ id.index) (hm' : id.index < m'.exprs) : Outside m m' a (a.setKind id kind) := by
  refine ⟨fun i hi => ?_, rfl, by simp [Arena.setKind]⟩
  have hne : id.index ≠ i.index := by omega
  simp only [Arena.expr?, Arena.setKind, Array.getElem?_modify, if_neg hne]

/-- In front of it another kind of an expression makes no difference. -/
theorem agreeOn_setKind (a : Arena) (id : ExprId) (kind : ExprKind) (m : Mark) (p : Nat) :
    AgreeOn m ⟨id.index, p⟩ a (a.setKind id kind) where
  expr i _ hi := (outside_setKind a id kind ⟨id.index, p⟩ ⟨id.index + 1, p⟩ (Nat.le_refl _)
    (Nat.lt_succ_self _)).expr i (.inl hi)
  pattern _ _ _ := rfl

theorem expr?_setKind {a : Arena} {id : ExprId} {e : Expr} (h : a.expr? id = some e)
    (kind : ExprKind) : (a.setKind id kind).expr? id = some { e with kind } := by
  simp only [Arena.expr?] at h
  simp [Arena.expr?, Arena.setKind, Array.getElem?_modify, h]

/-- How reading a stretch as types ends, if `types` are its outlines as types. -/
inductive Retagged (names : Interner) (a : Arena) (m : Mark) (vs : List (Outline Ref)) (m' : Mark) :
    Option (List (Outline TokenKind)) → Except Arena.BlockInType Unit × Arena → Prop
  | ok {ts : List (Outline TokenKind)} {b : Arena} : Stores names b m vs ts m' → Outside m m' a b →
      Retagged names a m vs m' (some ts) (.ok (), b)
  | error {e : Arena.BlockInType} {b : Arena} : Outside m m' a b → Retagged names a m vs m' none (.error e, b)

/-- `f` reads each expression below an index as a type. -/
def ReadsBelow (names : Interner) (f : ExprId → Arena → Except Arena.BlockInType Unit × Arena)
    (n : Nat) : Prop :=
  ∀ (id : ExprId) (a : Arena) (m : Mark) t m', id.index < n → Stores names a m [id.view] [t] m' →
    Retagged names a m [id.view] m' ((asType t).map ([·])) (f id a)

variable {f : ExprId → Arena → Except Arena.BlockInType Unit × Arena}

/-- If `f` reads each of some expressions as a type, `forEach` reads all of them so. -/
theorem forEach_retagged {ids : List ExprId} {n : Nat}
    (hf : ReadsBelow names f n) (h : Stores names a m (ids.map ExprId.view) ts m') (hn : m'.exprs ≤ n) :
    Retagged names a m (ids.map ExprId.view) m' (asTypes ts) (Arena.forEach f ids a) := by
  induction ids generalizing a m ts with
  | nil =>
    cases h
    exact .ok (.nil _) (.refl _ _ _)
  | cons id ids ih =>
    obtain ⟨t, ts, m₁, rfl, h₁, h₂⟩ := h.split
    obtain ⟨e, u, p, -, -, -, rfl⟩ := h₁.expr_inv
    have le₁ := h₁.le
    have le₂ := h₂.le
    simp only at le₁ le₂
    have first := hf id a m t _ (by omega) h₁
    simp only [Arena.forEach]
    generalize hr : f id a = r at first
    cases ht : asType t with
    | none =>
      rw [ht] at first
      cases first with
      | error ho =>
        simp only [asTypes, ht, Option.bind_none]
        exact .error (ho.mono (Nat.le_refl _) le₂.1)
    | some t' =>
      rw [ht] at first
      cases first with
      | @ok _ b hb ho =>
        have rest := ih (h₂.outside ho (.inr (Nat.le_refl _)))
        simp only [asTypes, ht, Option.bind_some]
        generalize hr' : Arena.forEach f ids b = r' at rest
        cases hts : asTypes ts with
        | none =>
          rw [hts] at rest
          cases rest with
          | error ho' =>
            exact .error ((ho.mono (Nat.le_refl _) le₂.1).trans (ho'.mono (by simp only; omega) (Nat.le_refl _)))
        | some ts' =>
          rw [hts] at rest
          cases rest with
          | ok hc ho' =>
            refine .ok ?_ ((ho.mono (Nat.le_refl _) le₂.1).trans
              (ho'.mono (by simp only; omega) (Nat.le_refl _)))
            exact (hb.outside ho' (.inl (Nat.le_refl _))).append hc

/-- A node is a type once the parts that are read again are. -/
theorem Retagged.close {b : Arena} {vs : List (Outline Ref)} {id : ExprId} {kind : ExprKind}
    {span : Span} {p : Nat} {parts : Option (List (Outline TokenKind))}
    {whole : Option (Outline TokenKind)} {r : Except Arena.BlockInType Unit × Arena}
    (h : Retagged names b m vs m₁ parts r) (ho : Outside m ⟨id.index + 1, p⟩ a b)
    (hid : b.expr? id = some ⟨kind, span⟩) (hm : m₁.exprs ≤ id.index)
    (failed : parts = none → whole = none)
    (done : ∀ us, parts = some us → ∃ u, whole = some u ∧
      ∀ c, Stores names c m vs us m₁ → Outside m m₁ b c →
        Stores names c m [kind.view] [u] ⟨id.index, p⟩) :
    Retagged names a m [id.view] ⟨id.index + 1, p⟩ (whole.map ([·])) r := by
  cases h with
  | error hc =>
    rw [failed rfl]
    exact .error (ho.trans (hc.mono (Nat.le_refl _) (by simp only; omega)))
  | ok hs hc =>
    obtain ⟨u, rfl, hu⟩ := done _ rfl
    refine .ok (.expr (e := ⟨kind, span⟩) ?_ (hu _ hs hc) (.nil _))
      (ho.trans (hc.mono (Nat.le_refl _) (by simp only; omega)))
    rw [hc.expr id (.inr hm), hid]

/-- A node none of whose parts is read again is a type already. -/
theorem Retagged.leave {id : ExprId} {t : Outline TokenKind} (h : Stores names a m [id.view] [t] m')
    (ht : asType t = some t) :
    Retagged names a m [id.view] m' ((asType t).map ([·])) (.ok (), a) := by
  rw [ht]
  exact .ok h (.refl _ _ _)

section Forms

variable {id : ExprId} (hf : ReadsBelow names f id.index) {span : Span} {p : Nat} {t : Outline TokenKind}
include hf

/-- A node all of whose parts are read again. -/
theorem retagged_whole {kind : ExprKind} {form : Form} {ids : List ExprId}
    (he : a.expr? id = some ⟨kind, span⟩) (hk : Stores names a m [kind.view] [t] ⟨id.index, p⟩)
    (hv : kind.view = .node form (ids.map ExprId.view))
    (hform : ∀ us : List (Outline TokenKind),
      asType (.node form us) = (asTypes us).map (Outline.node form)) :
    Retagged names a m [id.view] ⟨id.index + 1, p⟩ ((asType t).map ([·])) (Arena.forEach f ids a) := by
  rw [hv] at hk
  obtain ⟨us, hu, hs⟩ := hk.unwrap
  cases hu
  refine (forEach_retagged hf hs (Nat.le_refl _)).close (.refl _ _ _) he (Nat.le_refl _) ?_ ?_
  · intro hn
    rw [hform, hn, Option.map_none]
  · intro us' hus
    refine ⟨_, by rw [hform, hus, Option.map_some], fun c hc _ => ?_⟩
    rw [hv]
    exact hc.wrap form

/-- An application becomes that of a type before its parts are read. -/
theorem retagged_app {callee : ExprId} {args : List ExprId}
    (he : a.expr? id = some ⟨.app callee args none, span⟩)
    (hk : Stores names a m [(ExprKind.app callee args none).view] [t] ⟨id.index, p⟩) :
    Retagged names a m [id.view] ⟨id.index + 1, p⟩ ((asType t).map ([·]))
      (Arena.forEach f (callee :: args) (a.setKind id (.typeApp callee args))) := by
  have le := hk.le
  simp only at le
  obtain ⟨us, hu, hs⟩ := hk.unwrap
  cases hu
  have ho := outside_setKind a id (.typeApp callee args) m ⟨id.index + 1, p⟩ le.1 (Nat.lt_succ_self _)
  have hs' := hs.congr (agreeOn_setKind a id (.typeApp callee args) m p)
  refine (forEach_retagged hf hs' (Nat.le_refl _)).close ho
    (expr?_setKind he _) (Nat.le_refl _) ?_ ?_
  · intro hn
    simp only [asType, hn, Option.map_none]
  · intro us' hus
    refine ⟨_, by simp only [asType, hus, Option.map_some]; rfl, fun c hc _ => ?_⟩
    exact hc.wrap .typeApp

/-- The operator between two parts stays as it is. -/
theorem retagged_binary {lhs rhs : ExprId} {op : Ident} (he : a.expr? id = some ⟨.binary lhs op rhs, span⟩)
    (hk : Stores names a m [(ExprKind.binary lhs op rhs).view] [t] ⟨id.index, p⟩) :
    Retagged names a m [id.view] ⟨id.index + 1, p⟩ ((asType t).map ([·]))
      (Arena.forEach f [lhs, rhs] a) := by
  obtain ⟨us, hu, hs⟩ := hk.unwrap
  cases hu
  obtain ⟨l, _, m₁, rfl, hl, hs⟩ := hs.split
  cases hs with
  | @op _ _ _ _ _ k hop hs =>
    obtain ⟨r, _, m₂, rfl, hr, hs⟩ := hs.split
    cases hs
    refine (forEach_retagged hf (hl.append hr) (Nat.le_refl _)).close (.refl _ _ _) he
      (Nat.le_refl _) ?_ ?_
    · intro hn
      cases hl : asType l <;> cases hr : asType r <;> simp_all [asType, asTypes]
    · intro us hus
      obtain ⟨l', rest, hl', hrest, rfl⟩ := Outline.asTypes_cons_eq_some hus
      obtain ⟨r', rest, hr', hnil, rfl⟩ := Outline.asTypes_cons_eq_some hrest
      cases hnil
      refine ⟨.node .binary [l', .leaf k, r'], by simp [asType, asTypes, hl', hr'], ?_⟩
      intro c hc _
      obtain ⟨_, _, _, e, hl, hc⟩ := hc.split
      cases e
      exact (hl.append (Stores.op hop hc)).wrap .binary

/-- The type of an annotation is one already. -/
theorem retagged_ann {value type : ExprId} (he : a.expr? id = some ⟨.ann value type, span⟩)
    (hk : Stores names a m [(ExprKind.ann value type).view] [t] ⟨id.index, p⟩) :
    Retagged names a m [id.view] ⟨id.index + 1, p⟩ ((asType t).map ([·])) (Arena.forEach f [value] a) := by
  obtain ⟨us, hu, hs⟩ := hk.unwrap
  cases hu
  obtain ⟨v, _, m₁, rfl, hv, hs⟩ := hs.split
  refine (forEach_retagged hf hv hs.le.1).close (.refl _ _ _) he hs.le.1 ?_ ?_
  · intro hn
    cases hv : asType v <;> simp_all [asType, asTypes]
  · intro us hus
    obtain ⟨v', rest, hv', hnil, rfl⟩ := Outline.asTypes_cons_eq_some hus
    cases hnil
    refine ⟨_, by simp only [asType, hv', Option.map_some]; rfl, fun c hc ho => ?_⟩
    exact (hc.append (hs.outside ho (.inr (Nat.le_refl _)))).wrap .ann

end Forms

/-- `retag` reads the stretch of an expression as a type. -/
theorem retag_retagged (fuel : Nat) (id : ExprId) (a : Arena) (m : Mark) (t : Outline TokenKind)
    (m' : Mark) (hf : id.index < fuel) (h : Stores names a m [id.view] [t] m') :
    Retagged names a m [id.view] m' ((asType t).map ([·])) (Arena.retag fuel id a) := by
  induction fuel generalizing id a m t m' with
  | zero => omega
  | succ fuel ih =>
    obtain ⟨⟨kind, span⟩, u, p, he, hk, ht, rfl⟩ := h.expr_inv
    cases ht
    have hkind : (a.expr? id).map Expr.kind = some kind := by simp [he]
    have hparts : ReadsBelow names (Arena.retag fuel) id.index := fun id' a m t m' hid =>
      ih id' a m t m' (by omega)
    unfold Arena.retag
    rw [hkind]
    cases kind with
    | app callee args block =>
      cases block with
      | some block =>
        obtain ⟨us, hu, hs⟩ := hk.unwrap
        cases hu
        exact .error (.refl _ _ _)
      | none => exact retagged_app hparts he hk
    | binary lhs op rhs => exact retagged_binary hparts he hk
    | ann value type => exact retagged_ann hparts he hk
    | group inner => exact retagged_whole hparts he hk rfl fun us => by simp only [asType]
    | tuple items trailing => exact retagged_whole hparts he hk rfl fun us => by simp only [asType]
    | array items => exact retagged_whole hparts he hk rfl fun us => by simp only [asType]
    | literal | path | freeVar | univ | lambda | typeApp | pi | sigma | cases | cond | ret | block =>
      obtain ⟨us, hu, -⟩ := hk.unwrap
      cases hu
      exact .leave h (by simp only [asType])

/-- Reading an expression again as a type works on its stretch alone, and fails if and only if a
block is in the way. -/
theorem toType_retagged {id : ExprId} {t : Outline TokenKind}
    (h : Stores names a m [id.view] [t] m') :
    Retagged names a m [id.view] m' ((asType t).map ([·])) (a.toType id) :=
  retag_retagged _ id a m t m' (Nat.lt_succ_self _) h

/-! ## Following references -/

/-- Following the references of stored views gives their outlines, whatever references outside of
the stretch stand for. -/
theorem resolve (expr : ExprId → Outline TokenKind) (pattern : PatternId → Outline TokenKind)
    (h : Stores names a m vs ts m')
    (hn : ∀ n, TokenKind.operator n ∈ leavesAll ts → names.operatorKind n = .operator n)
    (he : ∀ id : ExprId, m.exprs ≤ id.index → id.index < m'.exprs → expr id = a.exprOutline names id)
    (hp : ∀ id : PatternId, m.patterns ≤ id.index → id.index < m'.patterns →
      pattern id = a.patternOutline names id) :
    Outline.bindAll (Ref.resolve names expr pattern) vs = ts := by
  induction h generalizing expr pattern with
  | nil => simp
  | token k _ ih =>
    simp only [Outline.leavesAll_cons, List.mem_append] at hn
    simp [ih _ _ (fun n hm => hn n (.inr hm)) he hp, Ref.resolve]
  | @op _ _ _ _ n k ho _ ih =>
    simp only [Outline.leavesAll_cons, Outline.leaves_leaf, List.mem_append, List.mem_singleton] at hn
    have hk : names.operatorKind n = k := by
      cases ho with
      | operator => exact hn n (.inl rfl)
      | pipe h => simp [Interner.operatorKind, Interner.lookup, Array.getD_eq_getD_getElem?, h]
      | dot h => simp [Interner.operatorKind, Interner.lookup, Array.getD_eq_getD_getElem?, h]
    simp [ih _ _ (fun n hm => hn n (.inr hm)) he hp, Ref.resolve, hk]
  | node form h₁ h₂ ih₁ ih₂ =>
    simp only [Outline.leavesAll_cons, Outline.leaves_node, List.mem_append] at hn
    have l₁ := h₁.le
    have l₂ := h₂.le
    rw [Outline.bindAll_cons, Outline.bind_node,
      ih₁ _ _ (fun n hm => hn n (.inl hm)) (fun id _ _ => he id (by omega) (by omega))
        (fun id _ _ => hp id (by omega) (by omega)),
      ih₂ _ _ (fun n hm => hn n (.inr hm)) (fun id _ _ => he id (by omega) (by omega))
        (fun id _ _ => hp id (by omega) (by omega))]
  | @expr m m' vs _ id e u p hid h₁ h₂ ih₁ ih₂ =>
    simp only [Outline.leavesAll_cons, List.mem_append] at hn
    have l₁ : m.exprs ≤ id.index ∧ m.patterns ≤ p := h₁.le
    have l₂ : id.index + 1 ≤ m'.exprs ∧ p ≤ m'.patterns := h₂.le
    have hu := ih₁ (a.readExpr names id.index) (a.patternOutline names)
      (fun n hm => hn n (.inl (by simpa using hm))) (fun i _ hi => Arena.readExpr_of_lt hi)
      (fun _ _ _ => rfl)
    simp only [Outline.bindAll_cons, Outline.bindAll_nil, List.cons.injEq, and_true] at hu
    rw [Outline.bindAll_cons, Outline.bind_leaf,
      ih₂ _ _ (fun n hm => hn n (.inr hm)) (fun i hi _ => he i (by simp only at hi; omega) (by omega))
        (fun i hi _ => hp i (by simp only at hi; omega) (by omega))]
    simp only [Ref.resolve, he id l₁.1 (by omega), Arena.exprOutline, Arena.readExpr, if_true, hid, hu]
  | @pattern m m' vs _ id p u hid h₁ h₂ ih₁ ih₂ =>
    simp only [Outline.leavesAll_cons, List.mem_append] at hn
    have l₁ : m.exprs ≤ m.exprs ∧ m.patterns ≤ id.index := h₁.le
    have l₂ : m.exprs ≤ m'.exprs ∧ id.index + 1 ≤ m'.patterns := h₂.le
    have hu := ih₁ (fun _ => .absent) (a.readPattern names id.index)
      (fun n hm => hn n (.inl (by simpa using hm))) (fun i hi hi' => by simp only at hi'; omega)
      (fun i _ hi => Arena.readPattern_of_lt hi)
    simp only [Outline.bindAll_cons, Outline.bindAll_nil, List.cons.injEq, and_true] at hu
    rw [Outline.bindAll_cons, Outline.bind_leaf,
      ih₂ _ _ (fun n hm => hn n (.inr hm)) (fun i hi _ => he i (by simp only at hi; omega) (by omega))
        (fun i hi _ => hp i (by simp only at hi; omega) (by omega))]
    simp only [Ref.resolve, hp id l₁.2 (by omega), Arena.patternOutline, Arena.readPattern, if_true,
      hid, hu]

/-- Following the references of stored views gives their outlines, unless the name of an operator
token spells a sign. -/
theorem read (h : Stores names a m vs ts m')
    (hn : ∀ n, TokenKind.operator n ∈ leavesAll ts → names.operatorKind n = .operator n) :
    vs.map (a.read names) = ts := by
  have := h.resolve (a.exprOutline names) (a.patternOutline names) hn (fun _ _ _ => rfl) (fun _ _ _ => rfl)
  rwa [Outline.bindAll_eq_map] at this

/-- Whatever the names stand for, following the references of stored views gives the same outlines in
every arena that keeps the stretch. -/
theorem exists_outlines (h : Stores names a m vs ts m') (other : Interner) :
    ∃ us, ∀ (b : Arena) (expr : ExprId → Outline TokenKind) (pattern : PatternId → Outline TokenKind),
      a.Kept b →
      (∀ id : ExprId, m.exprs ≤ id.index → id.index < m'.exprs → expr id = b.exprOutline other id) →
      (∀ id : PatternId, m.patterns ≤ id.index → id.index < m'.patterns →
        pattern id = b.patternOutline other id) →
      Outline.bindAll (Ref.resolve other expr pattern) vs = us := by
  induction h with
  | nil => exact ⟨[], fun _ _ _ _ _ _ => Outline.bindAll_nil _⟩
  | token k _ ih =>
    obtain ⟨us, ih⟩ := ih
    refine ⟨leaf k :: us, fun b expr pattern hb he hp => ?_⟩
    rw [Outline.bindAll_cons, ih b expr pattern hb he hp, Outline.bind_leaf]
    rfl
  | @op _ _ _ _ n _ _ _ ih =>
    obtain ⟨us, ih⟩ := ih
    refine ⟨leaf (other.operatorKind n) :: us, fun b expr pattern hb he hp => ?_⟩
    rw [Outline.bindAll_cons, ih b expr pattern hb he hp, Outline.bind_leaf]
    rfl
  | node form h₁ h₂ ih₁ ih₂ =>
    obtain ⟨us₁, ih₁⟩ := ih₁
    obtain ⟨us₂, ih₂⟩ := ih₂
    have l₁ := h₁.le
    have l₂ := h₂.le
    refine ⟨Outline.node form us₁ :: us₂, fun b expr pattern hb he hp => ?_⟩
    rw [Outline.bindAll_cons, Outline.bind_node,
      ih₁ b expr pattern hb (fun id _ _ => he id (by omega) (by omega)) (fun id _ _ => hp id (by omega) (by omega)),
      ih₂ b expr pattern hb (fun id _ _ => he id (by omega) (by omega)) (fun id _ _ => hp id (by omega) (by omega))]
  | @expr m m' vs _ id e _ p hid h₁ h₂ ih₁ ih₂ =>
    obtain ⟨us₁, ih₁⟩ := ih₁
    obtain ⟨us₂, ih₂⟩ := ih₂
    have l₁ : m.exprs ≤ id.index ∧ m.patterns ≤ p := h₁.le
    have l₂ : id.index + 1 ≤ m'.exprs ∧ p ≤ m'.patterns := h₂.le
    refine ⟨us₁ ++ us₂, fun b expr pattern hb he hp => ?_⟩
    rw [← ih₁ b (b.readExpr other id.index) (b.patternOutline other) hb
        (fun _ _ hi => Arena.readExpr_of_lt hi) (fun _ _ _ => rfl),
      ← ih₂ b expr pattern hb (fun i hi _ => he i (by simp only at hi; omega) (by omega))
        (fun i hi _ => hp i (by simp only at hi; omega) (by omega)),
      Outline.bindAll_cons, Outline.bindAll_cons, Outline.bindAll_nil, Outline.bind_leaf]
    simp only [Ref.resolve, he id l₁.1 (by omega), Arena.exprOutline, Arena.readExpr, if_true,
      hb.expr id e hid, List.singleton_append]
  | @pattern m m' vs _ id p _ hid h₁ h₂ ih₁ ih₂ =>
    obtain ⟨us₁, ih₁⟩ := ih₁
    obtain ⟨us₂, ih₂⟩ := ih₂
    have l₁ : m.exprs ≤ m.exprs ∧ m.patterns ≤ id.index := h₁.le
    have l₂ : m.exprs ≤ m'.exprs ∧ id.index + 1 ≤ m'.patterns := h₂.le
    refine ⟨us₁ ++ us₂, fun b expr pattern hb he hp => ?_⟩
    rw [← ih₁ b (fun _ => .absent) (b.readPattern other id.index) hb
        (fun i hi hi' => by simp only at hi'; omega) (fun _ _ hi => Arena.readPattern_of_lt hi),
      ← ih₂ b expr pattern hb (fun i hi _ => he i (by simp only at hi; omega) (by omega))
        (fun i hi _ => hp i (by simp only at hi; omega) (by omega)),
      Outline.bindAll_cons, Outline.bindAll_cons, Outline.bindAll_nil, Outline.bind_leaf]
    simp only [Ref.resolve, hp id l₁.2 (by omega), Arena.patternOutline, Arena.readPattern, if_true,
      hb.pattern id p hid, List.singleton_append]

/-- Stored views read the same in all arenas that keep the stretch. -/
theorem read_eq {b c : Arena} (h : Stores names a m vs ts m') (hb : a.Kept b) (hc : a.Kept c)
    (other : Interner) : vs.map (b.read other) = vs.map (c.read other) := by
  obtain ⟨us, hus⟩ := h.exists_outlines other
  have hread : ∀ d : Arena, a.Kept d → vs.map (d.read other) = us := by
    intro d hd
    have := hus d (d.exprOutline other) (d.patternOutline other) hd (fun _ _ _ => rfl) (fun _ _ _ => rfl)
    rwa [Outline.bindAll_eq_map] at this
  rw [hread b hb, hread c hc]

end Stores

end SolSyntax
