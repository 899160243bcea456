import SolSyntax.Proofs.Rooting
import SolSyntax.Proofs.Steering

/-!
# Steps that do not tell values from types

Two parses stand at the same place and have stored the same, but for some applications that are of types
in the one and of values in the other.  A step is impartial if it does the same in both, where it
succeeds: what has been missed, and whether an application before it is one of a value, does not concern
it.  Every production is; a context makes a difference only to those that are read in it.

Principal results: `Rules.impartial_rules` — the readers of expressions, types and blocks are impartial.
-/

namespace SolSyntax

namespace Cursor

theorem place_advance {c d : Cursor} (h : d.place = c.place) :
    d.advance.1 = c.advance.1 ∧ d.advance.2.place = c.advance.2.place := by
  have hend : d.isAtEnd = c.isAtEnd := OfPlace.eq d c h
  refine ⟨OfPlace.eq (f := current) d c h, ?_⟩
  unfold advance
  rw [hend]
  obtain ⟨htokens, hposition⟩ := Prod.mk.inj h
  split
  · exact h
  · exact Prod.ext htokens (congrArg (· + 1) hposition)

theorem place_check {c d : Cursor} (t : Tag) (h : d.place = c.place) :
    (d.check t).1 = (c.check t).1 ∧ (d.check t).2.place = (c.check t).2.place := by
  have hat : d.isAt t = c.isAt t := OfPlace.eq (f := (isAt · t)) d c h
  unfold check
  rw [hat]
  split <;> exact ⟨rfl, h⟩

theorem place_checkSet {c d : Cursor} (s : TagSet) (h : d.place = c.place) :
    (d.checkSet s).1 = (c.checkSet s).1 ∧ (d.checkSet s).2.place = (c.checkSet s).2.place := by
  have htag : d.currentTag = c.currentTag := OfPlace.eq d c h
  unfold checkSet
  rw [htag]
  split <;> exact ⟨rfl, h⟩

theorem place_expect {c d c' : Cursor} {t : Tag} {token : Token} (h : d.place = c.place)
    (hc : c.expect t = (.ok token, c')) : ∃ d', d.expect t = (.ok token, d') ∧ d'.place = c'.place := by
  obtain ⟨hvalue, hplace⟩ := place_check t h
  unfold expect at hc ⊢
  generalize c.check t = r at hc hvalue hplace
  generalize d.check t = r' at hvalue hplace ⊢
  obtain ⟨b, c₁⟩ := r
  obtain ⟨b', d₁⟩ := r'
  cases hvalue
  cases b with
  | true =>
    cases hc
    obtain ⟨htoken, hplace'⟩ := place_advance hplace
    exact ⟨_, congrArg (fun token => (Except.ok token, d₁.advance.2)) htoken, hplace'⟩
  | false => cases hc

theorem place_expectIdent {c d c' : Cursor} {i : Ident} (h : d.place = c.place)
    (hc : c.expectIdent = (.ok i, c')) : ∃ d', d.expectIdent = (.ok i, d') ∧ d'.place = c'.place := by
  have hcurrent : d.current = c.current := OfPlace.eq d c h
  obtain ⟨-, hplace⟩ := place_advance h
  unfold expectIdent at hc ⊢
  rw [hcurrent]
  split at hc
  · rename_i name hk
    cases hc
    exact ⟨_, rfl, hplace⟩
  · rename_i name hk
    cases hc
    exact ⟨_, rfl, hplace⟩
  · cases hc

end Cursor

open Cursor (OfPlace)

namespace Arena

/-- The new expression stands at its index, and nothing else has changed. -/
theorem expr?_newExpr_eq (a : Arena) (e : Expr) (id : ExprId) :
    (a.newExpr e).2.expr? id = if id = (a.newExpr e).1 then some e else a.expr? id := by
  split
  · rename_i h
    rw [h, expr?_newExpr]
  · rename_i h
    by_cases hlt : id.index < a.exprs.size
    · exact expr?_newExpr_of_lt a e hlt
    · have hne : id.index ≠ a.exprs.size := fun he => h (by
        obtain ⟨i⟩ := id
        exact congrArg ExprId.mk he)
      have hold : a.expr? id = none := Array.getElem?_eq_none (by omega)
      have hnew : (a.newExpr e).2.expr? id = none :=
        Array.getElem?_eq_none (by simp only [newExpr, Array.size_push]; omega)
      rw [hold, hnew]

/-- The same expression is stored in both arenas. -/
theorem AsTypes.newExpr {S : ExprId → Prop} {a b : Arena} (h : AsTypes S a b)
    (hstored : ∀ id, S id → id.index < a.exprs.size) (e : Expr) :
    (b.newExpr e).1 = (a.newExpr e).1 ∧ AsTypes S (a.newExpr e).2 (b.newExpr e).2 := by
  have hid : (b.newExpr e).1 = (a.newExpr e).1 := congrArg ExprId.mk h.recastIn.size_eq
  refine ⟨hid, h.patterns, fun id hin => ?_, fun id hout => ?_⟩
  · have hne : id ≠ (a.newExpr e).1 := fun he => absurd (hstored id hin) (he ▸ Nat.lt_irrefl _)
    rw [expr?_newExpr_eq, expr?_newExpr_eq, hid, if_neg hne, if_neg hne, h.inside id hin]
  · rw [expr?_newExpr_eq, expr?_newExpr_eq, hid, h.outside id hout]

end Arena

namespace Grammar

open Parse

/-- The same place and names; the expressions in `S`, each with its parts, are types in the second
state. -/
structure Recast (S : ExprId → Prop) (s t : State) : Prop where
  place : t.cursor.place = s.cursor.place
  names : t.names = s.names
  stored : ∀ id, S id → id.index < s.arena.exprs.size
  closed : s.arena.IsClosed S
  arena : s.arena.AsTypes S t.arena

namespace Recast

variable {S S' : ExprId → Prop} {s t : State}

/-- A state, and the same again. -/
theorem refl (s : State) : Recast (fun _ => False) s s :=
  ⟨rfl, rfl, fun _ h => h.elim, fun _ _ _ h => h.elim, .refl _⟩

theorem congr (h : Recast S s t) (hS : ∀ id, S id ↔ S' id) : Recast S' s t :=
  ⟨h.place, h.names, fun id hid => h.stored id ((hS id).2 hid),
    fun id e part hid he hpart => (hS part).1 (h.closed id e part ((hS id).2 hid) he hpart), h.arena.congr hS⟩

theorem move (h : Recast S s t) {c d : Cursor} (hplace : d.place = c.place) :
    Recast S { s with cursor := c } { t with cursor := d } :=
  ⟨hplace, h.names, h.stored, h.closed, h.arena⟩

theorem bound_eq (h : Recast S s t) : t.bound = s.bound :=
  congrArg (fun place : TokenList × Nat => place.1.size + 1) h.place

end Recast

/-- A step that does the same, whichever of the expressions before it are types. -/
class Impartial (p : Parse α) : Prop where
  run : ∀ S s t x s', Recast S s t → p s = .ok x s' → ∃ t', p t = .ok x t' ∧ Recast S s' t'

namespace Impartial

variable {p : Parse α}

/-- A step on the cursor alone. -/
theorem ofStep {f : Cursor → α × Cursor}
    (h : ∀ c d : Cursor, d.place = c.place → (f d).1 = (f c).1 ∧ (f d).2.place = (f c).2.place) :
    Impartial (step f) := by
  refine ⟨fun S s t x s' hst hrun => ?_⟩
  cases hrun
  obtain ⟨hvalue, hplace⟩ := h s.cursor t.cursor hst.place
  exact ⟨_, congrArg (EStateM.Result.ok · _) hvalue, hst.move hplace⟩

theorem ofTryStep {f : Cursor → Except SyntaxError α × Cursor}
    (h : ∀ (c d : Cursor) x c', d.place = c.place → f c = (.ok x, c') →
      ∃ d', f d = (.ok x, d') ∧ d'.place = c'.place) : Impartial (tryStep f) := by
  refine ⟨fun S s t x s' hst hrun => ?_⟩
  unfold tryStep at hrun
  split at hrun
  · rename_i y c hc
    cases hrun
    obtain ⟨d, hd, hplace⟩ := h s.cursor t.cursor _ c hst.place hc
    exact ⟨_, by unfold tryStep; rw [hd], hst.move hplace⟩
  · cases hrun

/-- A step that never succeeds. -/
theorem ofFailing (h : ∀ s x t, p s ≠ .ok x t) : Impartial p :=
  ⟨fun _ s _ x s' _ hrun => (h s x s' hrun).elim⟩

theorem bind [hp : Impartial p] {f : α → Parse β} [hf : ∀ x, Impartial (f x)] : Impartial (p >>= f) := by
  refine ⟨fun S s t y s' hst hrun => ?_⟩
  obtain ⟨x, s₁, hx, hy⟩ := exists_of_bind_ok hrun
  obtain ⟨t₁, hx', hst₁⟩ := hp.run S s t x s₁ hst hx
  obtain ⟨t', hy', hst'⟩ := (hf x).run S s₁ t₁ y s' hst₁ hy
  exact ⟨t', by rw [bind_of_ok hx', hy'], hst'⟩

theorem within [hp : Impartial p] (what : Construct) : Impartial (within what p) := by
  refine ⟨fun S s t x s' hst hrun => ?_⟩
  unfold Parse.within at hrun
  cases e : p s with
  | ok y u =>
    rw [e] at hrun
    cases hrun
    obtain ⟨t', ht', hst'⟩ := hp.run S s t x s' hst e
    exact ⟨t', by unfold Parse.within; rw [ht'], hst'⟩
  | error y u =>
    rw [e] at hrun
    cases hrun

theorem bounded {p : Nat → Parse α} (h : ∀ n, Impartial (p n)) : Impartial (bounded p) := by
  refine ⟨fun S s t x s' hst hrun => ?_⟩
  obtain ⟨t', ht', hst'⟩ := (h s.bound).run S s t x s' hst hrun
  exact ⟨t', by unfold Parse.bounded; rw [hst.bound_eq, ht'], hst'⟩

/-! ### Moving -/

theorem skipNewlines : Impartial skipNewlines := by
  refine ofStep fun c d h => ⟨rfl, ?_⟩
  obtain ⟨htokens, hposition⟩ := Prod.mk.inj h
  exact Prod.ext htokens (by simp only [Cursor.place, Cursor.skipNewlines, htokens, hposition])

theorem eatSeparators : Impartial eatSeparators := by
  refine ofStep fun c d h => ?_
  obtain ⟨htokens, hposition⟩ := Prod.mk.inj h
  simp only [Cursor.eatSeparators, htokens, hposition]
  split
  · exact ⟨rfl, h⟩
  · exact ⟨rfl, rfl⟩

/-! ### Storing and looking up -/

theorem newExpr (kind : ExprKind) (span : Span) : Impartial (newExpr kind span) := by
  refine ⟨fun S s t id s' hst hrun => ?_⟩
  cases hrun
  obtain ⟨hid, harena⟩ := hst.arena.newExpr hst.stored ⟨kind, span⟩
  refine ⟨_, congrArg (EStateM.Result.ok · _) hid, hst.place, hst.names, fun id hin => ?_, ?_, harena⟩
  · exact Nat.lt_of_lt_of_le (hst.stored id hin) ((Arena.KeptBelow.newExpr _ _).le_size (Nat.le_refl _))
  · intro id e part hin he hpart
    have hold := (Arena.KeptBelow.newExpr s.arena ⟨kind, span⟩ id (hst.stored id hin)).symm.trans he
    exact hst.closed id e part hin hold hpart

theorem newPattern (kind : PatternKind) (span : Span) : Impartial (newPattern kind span) := by
  refine ⟨fun S s t id s' hst hrun => ?_⟩
  cases hrun
  have hpatterns := hst.arena.patterns
  refine ⟨_, congrArg (fun ps : Array Pattern => EStateM.Result.ok (PatternId.mk ps.size) _) hpatterns,
    hst.place, hst.names, hst.stored, hst.closed, ?_, hst.arena.inside, hst.arena.outside⟩
  exact congrArg (fun ps : Array Pattern => ps.push ⟨kind, span⟩) hpatterns

theorem exprSpan (id : ExprId) : Impartial (exprSpan id) := by
  refine ⟨fun S s t x s' hst hrun => ?_⟩
  cases hrun
  exact ⟨t, congrArg (EStateM.Result.ok · t) (hst.arena.recastIn.exprSpan_eq id), hst⟩

theorem patternSpan (id : PatternId) : Impartial (patternSpan id) := by
  refine ⟨fun S s t x s' hst hrun => ?_⟩
  cases hrun
  exact ⟨t, congrArg (EStateM.Result.ok · t) (hst.arena.recastIn.patternSpan_eq id), hst⟩

theorem intern (text : String) : Impartial (intern text) := by
  refine ⟨fun S s t x s' hst hrun => ?_⟩
  cases hrun
  have hnames := hst.names
  refine ⟨{ t with names := (t.names.intern text).2 }, ?_, hst.place,
    congrArg (fun names : Interner => (names.intern text).2) hnames, hst.stored, hst.closed, hst.arena⟩
  exact congrArg (fun names : Interner => EStateM.Result.ok (names.intern text).1
    { t with names := (t.names.intern text).2 }) hnames

/-- An application is neither of the forms that stand out, be it of values or of types. -/
theorem gist_recast {S : ExprId → Prop} {a b : Arena} (h : a.RecastIn S b) (id : ExprId) {g : Gist}
    (hg : g = .openIf ∨ g = .closed) : b.gists[id.index]? = some g ↔ a.gists[id.index]? = some g := by
  rw [← Arena.gist?_eq, ← Arena.gist?_eq]
  obtain he | ⟨-, he⟩ := h.expr id
  · rw [he]
  · rw [he]
    cases a.expr? id with
    | none => rfl
    | some e =>
      obtain ⟨kind, span⟩ := e
      cases kind with
      | app callee args block =>
        cases block <;> rcases hg with rfl | rfl <;>
          exact iff_of_false (by simp [ExprKind.gist, ExprKind.asType, Expr.asType]) (by simp [ExprKind.gist])
      | _ => rfl

theorem isClosedForm (id : ExprId) : Impartial (isClosedForm id) := by
  refine ⟨fun S s t x s' hst hrun => ?_⟩
  rw [isClosedForm_eq] at hrun
  cases hrun
  have hgist {g : Gist} := gist_recast hst.arena.recastIn id (g := g)
  exact ⟨t, by simp [isClosedForm_eq, hgist (.inl rfl), hgist (.inr rfl)], hst⟩

theorem isOpenIf (id : ExprId) : Impartial (isOpenIf id) := by
  refine ⟨fun S s t x s' hst hrun => ?_⟩
  rw [isOpenIf_eq] at hrun
  cases hrun
  exact ⟨t, by simp [isOpenIf_eq, gist_recast hst.arena.recastIn id (.inl rfl)], hst⟩

instance (id : ExprId) : Impartial (toType id) := by
  refine ⟨fun S s t x s' hst hrun => ?_⟩
  unfold toType at hrun
  split at hrun
  · rename_i a ha
    cases hrun
    obtain ⟨b, hb, hab⟩ := Arena.retag_asTypes _ id _ _ a hst.closed hst.arena ha
    have recast : Arena.RecastIn (fun _ => True) s.arena (s.arena.toType id).2 :=
      Arena.retag_recastIn _ id s.arena s.arena.isClosed_true trivial
    rw [ha] at recast
    refine ⟨{ t with arena := b }, ?_, hst.place, hst.names, fun id hid => ?_, ?_, hab⟩
    · unfold toType
      rw [show t.arena.toType id = (.ok (), b) from hb]
    · rw [recast.size_eq]
      exact hst.stored id hid
    · exact recast.isClosed_iff.2 hst.closed
  · cases hrun

/-! ### Productions -/

instance : Sequential @Impartial where
  pure x := ⟨fun _ _ t _ _ hst hrun => by cases hrun; exact ⟨t, rfl, hst⟩⟩
  bind _ _ := bind
  exhausted := ofFailing fun _ _ _ h => by cases h
  within what _ := within what
  bounded := bounded

instance : Closed @Impartial where
  look f hf := ofStep (f := fun c => (f c, c)) fun c d h => ⟨hf.eq d c h, h⟩
  note _ := ofStep fun _ _ h => ⟨rfl, h⟩
  check tag := ofStep fun _ _ h => Cursor.place_check tag h
  checkSet set := ofStep fun _ _ h => Cursor.place_checkSet set h
  advance := ofStep fun _ _ h => Cursor.place_advance h
  expect _ := ofTryStep fun _ _ _ _ h hc => Cursor.place_expect h hc
  expectIdent := ofTryStep fun _ _ _ _ h hc => Cursor.place_expectIdent h hc
  skipNewlines := skipNewlines
  eatSeparators := eatSeparators
  fail _ := ofFailing fun _ _ _ h => by cases h
  unclosed _ _ := ofFailing fun _ _ _ h => by cases h
  exprSpan := exprSpan
  patternSpan := patternSpan
  intern := intern
  isClosedForm := isClosedForm
  isOpenIf := isOpenIf

instance : Storing @Impartial where
  newPattern := newPattern
  newExpr kind _ := newExpr kind

instance : Binding @Impartial := ⟨newExpr⟩

instance [h : Has @Impartial p] : Impartial p := h.has

instance (priority := low) [h : Impartial p] : Has @Impartial p := ⟨h⟩

end Impartial

/-- Impartial readers. -/
class Rules.Impartial (r : Rules) : Prop where
  expr : ∀ ctx, Grammar.Impartial (r.expr ctx)
  arrow : ∀ ctx, Grammar.Impartial (r.arrow ctx)
  block : Grammar.Impartial r.block

instance {r : Rules} [h : r.Impartial] : r.Have @Impartial := ⟨h.expr, h.arrow, h.block⟩

instance Rules.impartial_rules (n : Nat) : (rules n).Impartial :=
  have h : (rules n).Have @Grammar.Impartial := Rules.have_rules (fun _ _ _ => inferInstance) n
  ⟨h.expr, h.arrow, h.block⟩

end Grammar

end SolSyntax
