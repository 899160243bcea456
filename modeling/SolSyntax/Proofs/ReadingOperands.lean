import SolSyntax.Proofs.Reading
import SolSyntax.Proofs.Telltales

/-!
# Operands are read back

An expression ends where nothing goes on with it (`EndsExpr`).  Up to applications, what is inside of
brackets is read by rules that give back all expressions with fewer tokens (`Rules.Inverts`).

Principal results: `paramSet_yields`, `operand_yields`, `application_yields`.
-/


namespace SolSyntax.Grammar

open Outline (leaf node)
open Parse

/-! ## What may follow -/

/-- Nothing goes on with an application. -/
structure EndsApplication (ctx : Context) (r : List Token) : Prop where
  arg : TagSet.argStart.contains (headTag r) = false
  block : ctx.allowsBlockCall = true → headTag r ≠ .lbrace

/-- Nothing goes on with a chain of operators. -/
structure EndsChain (ctx : Context) (r : List Token) : Prop extends EndsApplication ctx r where
  operator : TagSet.binaryOperator.contains (headTag r) = false

/-- Nothing goes on with an expression. -/
structure EndsExpr (ctx : Context) (r : List Token) : Prop extends EndsChain ctx r where
  annotation : ctx.allowsAnnotation = true → headTag r ≠ .kwIs
  arrow : headTag r ≠ .arrow
  fatArrow : headTag r ≠ .fatArrow

theorem EndsChain.endsPath {ctx : Context} {u r : List Token} (h : EndsChain ctx r) : EndsPath u r := by
  refine .of_headTag fun e => ?_
  have := h.operator
  rw [e] at this
  exact absurd this (by decide)

/-- In a place that allows no more, nothing more goes on with an expression. -/
theorem EndsExpr.mono {ctx ctx' : Context} {r : List Token} (h : EndsExpr ctx r)
    (hblock : ctx'.allowsBlockCall = true → ctx.allowsBlockCall = true)
    (hallows : ctx'.allowsAnnotation = true → ctx.allowsAnnotation = true) : EndsExpr ctx' r :=
  ⟨⟨⟨h.arg, fun hb => h.block (hblock hb)⟩, h.operator⟩, fun ha => h.annotation (hallows ha), h.arrow,
    h.fatArrow⟩

/-- Between the items of a list every expression ends. -/
theorem EndsExpr.of_gap {ctx : Context} {close : Tag} {r : List Token} (hclose : close.isClosing = true)
    (h : Gap close r) : EndsExpr ctx r := by
  have htag := h.headTag
  generalize hr : headTag r = tag at htag
  have hends : TagSet.argStart.contains tag = false ∧ TagSet.binaryOperator.contains tag = false ∧
      tag ≠ .lbrace ∧ tag ≠ .kwIs ∧ tag ≠ .arrow ∧ tag ≠ .fatArrow := by
    rcases htag with rfl | rfl | rfl
    · decide
    · decide
    · cases tag <;> first | decide | cases hclose
  obtain ⟨harg, hop, hblock, his, harrow, hfat⟩ := hends
  subst hr
  exact ⟨⟨⟨harg, fun _ => hblock⟩, hop⟩, fun _ => his, harrow, hfat⟩

/-- Readers that give back every expression of at most so many tokens. -/
structure Rules.Inverts (r : Rules) (m : Nat) : Prop where
  expr : ∀ {pl u o v}, u.length ≤ m → Spells (.expr pl) u o → EndsExpr pl.ctx v →
    Yields (r.expr pl.ctx) ExprId.view u v o
  arrow : ∀ {pl u o v}, u.length ≤ m → Spells (.arrow pl) u o → EndsExpr pl.ctx v →
    Yields (r.arrow pl.ctx) ExprId.view u v o

variable {r : Rules} {m : Nat} {pl : Place} {u v w : List Token} {o : Outline TokenKind} {s s₁ : State}
  {x : List (Outline Ref)} {ts : List (Outline TokenKind)}

/-! ## Parameters -/

section Params

variable {k : ParamSetKind} {l : Bool} {close : Tag}

theorem forAllParam_yields {q : Token} {i : Outline TokenKind} (hq : q.tag = .quote)
    (hi : Derives .ident u [i]) : Yields forAllParam Param.view (q :: u) v (node .forAll [i]) := by
  intro s hs
  refine (Read.start hs).advance_bind (by rw [hq]; decide) fun h => ?_
  refine h.part_bind (ident_yields hi v) fun {name s₂} h => ⟨_, s₂, rfl, ?_⟩
  simpa [Param.view, ParamKind.view] using h.wrap .forAll

theorem typedParam_yields (hr : r.Inverts m) {c : Token} {p t : Outline TokenKind} (hw : w.length ≤ m)
    (hp : Derives .pattern u [p]) (hd : DotsTouch u) (hc : c.tag = .colon)
    (ht : Spells (.arrow ⟨.type, l⟩) w t) (hv : EndsExpr .type v) :
    Yields (typedParam r) ParamKind.view (u ++ c :: w) v (node .typed [node .row [p], t]) := by
  intro s hs
  rw [List.append_assoc, List.cons_append] at hs
  have hdot : headTag (c :: (w ++ v)) ≠ .dot := by
    rw [headTag_cons, hc]
    decide
  have hstart : TagSet.patternStart.contains (headTag (c :: (w ++ v))) = false := by
    rw [headTag_cons, hc]
    decide
  refine (Read.start hs).part_bind (pattern_yields hp hd hdot hstart) fun {binding s₁} h₁ => ?_
  refine (h₁.wrap .row).expect_bind hc (by decide) fun h₂ => ?_
  refine h₂.part_bind (hr.arrow hw ht hv) fun {type s₃} h₃ => ⟨_, s₃, rfl, ?_⟩
  simpa [ParamKind.view, partOf, rowOf] using h₃.wrap .typed

theorem bareParam_yields (hr : r.Inverts m) {t : Outline TokenKind} (hu : u.length ≤ m) (hk : k ≠ .sigma)
    (ht : Spells (.arrow ⟨.type, l⟩) u t) (hv : EndsExpr .type v) :
    Yields (bareParam r k) ParamKind.view u v (node .typed [node .row [], t]) := by
  intro s hs
  have hbare : bareParam r k = r.type >>= fun type => pure (.typed none type) := by
    cases k <;> first | rfl | exact absurd rfl hk
  rw [hbare]
  refine ((Read.start hs).wrap .row).part_bind (hr.arrow hu ht hv) fun {type s₁} h => ⟨_, s₁, rfl, ?_⟩
  simpa [ParamKind.view, partOf, rowOf] using h.wrap .typed

theorem memberParam_yields (hr : r.Inverts m) (hu : u.length ≤ m) (h : Spells (.param k l) u o)
    (hq : headTag u ≠ .quote) (hclose : close.isClosing = true) (hv : Gap close v) :
    Yields (memberParam r k) ParamKind.view u v o := by
  intro s hs
  have hends : EndsExpr .type v := .of_gap hclose hv
  have hask : Answers (look isAnnotated) s o.isTypedParam := by
    refine ⟨s, ?_, .refl s⟩
    show EStateM.Result.ok (isAnnotated s.cursor) s = _
    rw [Cursor.isAnnotated_eq, hs, h.annotatedIn_eq (hv.annotatedIn_eq hclose) hq]
  cases h with
  | forAll hquote => exact absurd hquote hq
  | typedParam hp hd hc ht =>
    refine (Read.start hs).yes hask fun h => h.part (typedParam_yields hr ?_ hp hd hc ht hends)
    simp only [List.length_append, List.length_cons] at hu
    omega
  | bareType hk ht => exact (Read.start hs).no hask fun h => h.part (bareParam_yields hr hu hk ht hends)
  | barePattern hp hd =>
    refine (Read.start hs).no hask fun h => ?_
    have hdot : headTag v ≠ .dot ∧ TagSet.patternStart.contains (headTag v) = false := by
      have htag := hv.headTag
      generalize headTag v = tag at htag
      rcases htag with rfl | rfl | rfl
      · decide
      · decide
      · cases tag <;> first | decide | cases hclose
    refine h.part_bind (pattern_yields hp hd hdot.1 hdot.2) fun {p s₁} h => ⟨_, s₁, rfl, ?_⟩
    simpa [ParamKind.view] using h.wrap .untyped

theorem param_yields (hr : r.Inverts m) (hu : u.length ≤ m) (h : Spells (.param k l) u o)
    (hclose : close.isClosing = true) (hv : Gap close v) : Yields (param r k) Param.view u v o := by
  intro s hs
  obtain ⟨t, w, hcons⟩ := List.exists_cons_of_ne_nil h.ne_nil
  refine (Read.start (hs.trans (congrArg (· ++ v) hcons))).current_bind ?_
  have hask := (Read.start hs).check .quote
  rw [headTag_append h.ne_nil] at hask
  by_cases hq : headTag u = .quote
  · obtain ⟨q, w, i, rfl, hi, rfl⟩ := h.quoted_param hq
    rw [hq] at hask
    exact (Read.start hs).yes hask fun h => h.part (forAllParam_yields hq hi)
  · rw [beq_false_of_ne hq] at hask
    refine (Read.start hs).no hask fun h' => ?_
    refine h'.part_bind (memberParam_yields hr hu h hq hclose hv) fun {kind s₁} h => ?_
    exact ⟨_, s₁, rfl, h⟩

/-- A parameter list is read, whatever follows. -/
theorem paramSet_yields (hr : r.Inverts m) (hu : u.length ≤ m + 1) (h : Spells (.params k l) u o) :
    Yields (paramSet r) ParamSet.view u v o := by
  intro s hs
  cases h with
  | @params _ _ a c close b w xs separated ha hc hb hne hrow hxs =>
    have hpair : a.tag.closing? = some close := closing?_of_paramSetShape? ha
    have hclose := Tag.isClosing_of_closing? (c := c.tag) (hc.symm ▸ hpair)
    rw [hc] at hclose
    have hlen : ∀ {y}, y ∈ xs → y.tokens.length ≤ m := by
      intro y hy
      have := hrow.length_piece_le hy
      simp only [List.length_append, List.length_cons, List.length_nil] at hu
      omega
    have hlist : Listable close (param r k) Param.view xs := by
      refine ⟨fun hy => (hxs _ hy).ne_nil, fun hy => (hxs _ hy).headTag_ne ?_,
        fun hy => (hxs _ hy).headTag_ne ?_, fun hy _ hgap => param_yields hr (hlen hy) (hxs _ hy) hclose hgap⟩
      · simp only [Part.starts]
        decide
      · simp only [Part.starts]
        cases close <;> first | decide | cases hclose
    show Succeeds (paramSetOf r s.cursor.currentTag s) _
    rw [Cursor.currentTag_eq, hs, List.cons_append, headTag_cons, paramSetOf, ha]
    refine (Read.start hs).bracketed_bind hrow hlist hclose hc
      (Tag.ne_eof_of_isOpening (Tag.isOpening_of_closing? hpair)) hb fun {found s₂} _ h => ⟨_, s₂, rfl, ?_⟩
    simpa [ParamSet.view] using h.wrap (.params k)

end Params

/-! ## Operands -/

section Operands

theorem listable_exprs (hr : r.Inverts m) {close : Tag} {xs : List Piece} (hclose : close.isClosing = true)
    (hxs : ∀ y ∈ xs, Spells (.expr pl) y.tokens y.outline) (hlen : ∀ {y}, y ∈ xs → y.tokens.length ≤ m) :
    Listable close (r.expr pl.ctx) ExprId.view xs := by
  refine ⟨fun hy => (hxs _ hy).ne_nil, fun hy => (hxs _ hy).headTag_ne ?_,
    fun hy => (hxs _ hy).headTag_ne ?_, fun hy _ hgap => hr.expr (hlen hy) (hxs _ hy) (.of_gap hclose hgap)⟩
  · simp only [Part.starts]
    decide
  · simp only [Part.starts]
    cases close <;> first | decide | cases hclose

/-- Expressions in brackets, and what a node of them is. -/
theorem exprsNode_yields (pl : Place) (node : Bracketed ExprId → ExprKind) (hr : r.Inverts m) {a c : Token}
    {close : Tag} {b : List Token} {xs : List Piece} {separated : Bool} {form : Form} (ha : a.tag ≠ .eof)
    (hc : c.tag = close) (hclose : close.isClosing = true) (hb : AllBreaks b) (hrow : Row xs w separated)
    (hxs : ∀ y ∈ xs, Spells (.expr pl) y.tokens y.outline)
    (hu : (a :: (b ++ w ++ [c])).length ≤ m + 1)
    (hnode : ∀ {found : Bracketed ExprId}, found.trailingComma = separated →
      found.items.length = xs.length → (node found).view = .node form (found.items.map ExprId.view)) :
    Yields (bracketed close (r.expr pl.ctx) >>= fun found => newExpr (node found) found.span) ExprId.view
      (a :: (b ++ w ++ [c])) v (.node form (xs.map Piece.outline)) := by
  have hlen : ∀ {y}, y ∈ xs → y.tokens.length ≤ m := by
    intro y hy
    have := hrow.length_piece_le hy
    simp only [List.length_append, List.length_cons, List.length_nil] at hu
    omega
  intro s hs
  refine (Read.start hs).bracketed_bind hrow (listable_exprs hr hclose hxs hlen) hclose hc ha hb
    fun {found s₂} hflag h => Read.newExpr ?_
  have hlength := h.length_eq
  simp only [List.nil_append, List.length_map] at hlength
  rw [hnode hflag hlength.symm]
  simpa using h.wrap form

theorem groupOrTuple_view {items : List ExprId} {separated : Bool}
    (h : items.length = 1 → separated = true) :
    (groupOrTuple items separated).view = node (.tuple separated) (items.map ExprId.view) := by
  unfold groupOrTuple
  split
  · exact absurd (h rfl) (by decide)
  · rfl

theorem parenthesized_yields (pl : Place) (hr : r.Inverts m) {a c : Token} {b : List Token} {xs : List Piece}
    {separated : Bool} (ha : a.tag = .lparen) (hc : c.tag = .rparen) (hb : AllBreaks b)
    (hrow : Row xs w separated) (hxs : ∀ y ∈ xs, Spells (.expr pl.nested) y.tokens y.outline)
    (hu : (a :: (b ++ w ++ [c])).length ≤ m + 1) : 
    Yields (parenthesized r pl.ctx) ExprId.view (a :: (b ++ w ++ [c])) v
      (node (if xs.length = 1 ∧ separated = false then .group else .tuple separated) (xs.map Piece.outline)) := by
  refine exprsNode_yields pl.nested (fun found => groupOrTuple found.items found.trailingComma) hr
    (by rw [ha]; decide) hc rfl hb hrow hxs hu ?_
  intro found hflag hlength
  split
  · rename_i h
    obtain ⟨i, hi⟩ := List.length_eq_one_iff.1 (hlength.trans h.1)
    rw [hflag, hi, h.2]
    rfl
  · rename_i h
    rw [groupOrTuple_view, hflag]
    intro e
    cases hs : separated with
    | true => rw [hflag, hs]
    | false => exact absurd ⟨hlength ▸ e, hs⟩ h

/-- An operand is read by what reads the expressions in its brackets. -/
theorem operand_yields (hr : r.Inverts m) (hu : u.length ≤ m + 1) (h : Spells (.operand pl) u o)
    (hv : EndsPath u v) : Yields (operand r pl.ctx) ExprId.view u v o := by
  intro s hs
  cases h with
  | @literal _ t l hl =>
    refine (Read.start hs).current_bind ?_
    rw [operandOf, hl]
    refine (Read.start hs).advance_bind (Tag.ne_eof_of_isPlain (TokenKind.isPlain_of_literal? hl)) fun h => ?_
    refine Read.newExpr ?_
    rw [ExprKind.view, Literal.view, TokenKind.tokenKind_literal? hl]
    exact (h.leaf t.kind).wrap .literal
  | path hp hd =>
    have hname := hp.isName_path
    obtain ⟨t, w, rfl⟩ := List.exists_cons_of_ne_nil (hp.ne_nil rfl)
    have hread : Succeeds (pathExpr s) fun id s' => Read s s' (t :: w) v [id.view] [o] :=
      (Read.start hs).part_bind (path_yields hp hd hv) fun h => Read.newExpr h
    refine (Read.start hs).current_bind ?_
    obtain ⟨n, hk | hk⟩ := TokenKind.exists_name hname <;> rw [operandOf, hk] <;> exact hread
  | @freeVar _ t w i ht hi =>
    have hread : Succeeds (freeVar s) fun id s' => Read s s' (t :: w) v [id.view] [node .freeVar [i]] := by
      refine (Read.start hs).advance_bind (by rw [ht]; decide) fun h => ?_
      refine h.part_bind (ident_yields hi v) fun h => Read.newExpr ?_
      simpa [ExprKind.view] using h.wrap .freeVar
    refine (Read.start hs).current_bind ?_
    rw [operandOf, TokenKind.eq_of_tag ht rfl]
    exact hread
  | @univ _ t ht =>
    refine (Read.start hs).current_bind ?_
    rw [operandOf, TokenKind.eq_of_tag ht rfl]
    refine (Read.start hs).advance_bind (by rw [ht]; decide) fun h => Read.newExpr ?_
    exact (h.leaf .kwUniverse).wrap .univ
  | @group _ a c b b' w e ha hc hb hb' he =>
    have hxs : ∀ y ∈ [Piece.mk w e], Spells (.expr pl.nested) y.tokens y.outline := by
      intro y hy
      rw [List.mem_singleton.1 hy]
      exact he
    have hread := parenthesized_yields (v := v) pl hr ha hc hb (.last hb') hxs hu s hs
    rw [if_pos ⟨rfl, rfl⟩] at hread
    refine (Read.start hs).current_bind ?_
    rw [operandOf, TokenKind.eq_of_tag ha rfl]
    exact hread
  | @tuple _ a c b w xs separated ha hc hb hrow hone hxs =>
    have hread := parenthesized_yields (v := v) pl hr ha hc hb hrow hxs hu s hs
    have hform : ¬(xs.length = 1 ∧ separated = false) := fun h => by
      rw [hone h.1] at h
      cases h.2
    rw [if_neg hform] at hread
    refine (Read.start hs).current_bind ?_
    rw [operandOf, TokenKind.eq_of_tag ha rfl]
    exact hread
  | @array _ a c b w xs separated ha hc hb hrow hxs =>
    have hread : Succeeds (array r pl.ctx s) fun id s' =>
        Read s s' (a :: (b ++ w ++ [c])) v [id.view] [node .array (xs.map Piece.outline)] :=
      exprsNode_yields pl.nested (fun found => .array found.items) hr (by rw [ha]; decide) hc rfl hb hrow hxs
        hu (fun _ _ => rfl) s hs
    refine (Read.start hs).current_bind ?_
    rw [operandOf, TokenKind.eq_of_tag ha rfl]
    exact hread

end Operands

/-! ## Applications -/

section Applications

variable {xs : List Piece} {f : Outline TokenKind}

theorem operand_starts {y : Piece} (h : Spells (.operand pl) y.tokens y.outline) :
    TagSet.argStart.contains (headTag y.tokens) = true ∧ headTag y.tokens ≠ .dot := by
  refine ⟨?_, h.headTag_ne (by simp only [Part.starts]; decide)⟩
  simpa only [Part.starts] using h.starts

/-- What ends a row of operands ends each of them. -/
theorem endsPath_of_operands (hxs : ∀ y ∈ xs, Spells (.operand pl) y.tokens y.outline)
    (h : EndsPath (u ++ xs.flatMap Piece.tokens) v) : EndsPath u (xs.flatMap Piece.tokens ++ v) := by
  cases xs with
  | nil => simpa using h
  | cons y ys =>
    refine .of_headTag ?_
    rw [List.flatMap_cons, List.append_assoc, headTag_append (hxs y List.mem_cons_self).ne_nil]
    exact (operand_starts (hxs y List.mem_cons_self)).2

theorem Read.isClosedForm {id : ExprId} (h : Read s s₁ u v [id.view] [o]) :
    Answers (isClosedForm id) s₁ o.isClosedForm :=
  ⟨s₁, Grew.isClosedForm_of_stores h.grew.stores, .refl s₁⟩

theorem Read.noBlock_bind {Q : α → State → Prop} {g : Option Block → Parse α} (h : Read s s₁ u v x ts)
    (hv : EndsApplication pl.ctx v)
    (next : ∀ {s₂}, Read s s₂ u v x ts → Succeeds (g none s₂) Q) :
    Succeeds ((blockArgument r pl.ctx >>= g) s₁) Q := by
  refine Succeeds.bind (P := fun b s₂ => b = none ∧ Read s s₂ u v x ts) ?_ ?_
  · unfold blockArgument
    split
    · rename_i hblock
      have hask := h.check .lbrace
      rw [beq_false_of_ne (hv.block hblock)] at hask
      exact h.no hask fun h => ⟨none, _, rfl, rfl, h⟩
    · exact ⟨none, s₁, rfl, rfl, h⟩
  · rintro b s₂ ⟨rfl, h⟩
    exact next h

/-- What an operand and the operands behind it are. -/
def applicationOf (ctx : Context) (f : Outline TokenKind) (xs : List Piece) : Outline TokenKind :=
  if xs.isEmpty then f else Outline.application ctx f (xs.map Piece.outline) []

theorem applicationKind_view (ctx : Context) (callee : ExprId) (args : List ExprId) :
    (applicationKind ctx callee args none).view =
      node (if ctx.inType then .typeApp else .app false) (callee.view :: args.map ExprId.view) := by
  unfold applicationKind
  split <;> rfl

theorem application_eq (ctx : Context) (as : List (Outline TokenKind)) :
    Outline.application ctx f as [] = node (if ctx.inType then .typeApp else .app false) (f :: as) := by
  unfold Outline.application
  split <;> simp

theorem operands_yield (xs : List Piece) (hr : r.Inverts m) (hu : (u ++ xs.flatMap Piece.tokens).length ≤ m + 1)
    (hf : Spells (.operand pl) u f) (hxs : ∀ y ∈ xs, Spells (.operand pl) y.tokens y.outline)
    (hv : EndsApplication pl.ctx v) (hpath : EndsPath (u ++ xs.flatMap Piece.tokens) v) :
    Yields (application r pl.ctx) ExprId.view (u ++ xs.flatMap Piece.tokens) v
      (applicationOf pl.ctx f xs) := by
  have hlen : u.length ≤ m + 1 := by
    rw [List.length_append] at hu
    omega
  intro s hs
  rw [List.append_assoc] at hs
  refine (Read.start hs).part_bind (operand_yields hr hlen hf (endsPath_of_operands hxs hpath))
    fun {callee s₁} h₁ => ?_
  have hask := h₁.isClosedForm
  rw [hf.not_isClosedForm] at hask
  refine h₁.no hask fun {s₂} h₂ => ?_
  have hrow : Rowed (checkSet .argStart) (operand r pl.ctx) ExprId.view s u xs v := by
    refine ⟨?_, ?_, fun h => by simpa [hv.arg] using h.checkSet .argStart⟩
    · rintro ys z zs rfl s₁ x ts hread
      have hz := hxs z (by simp)
      have := hread.checkSet .argStart
      rwa [headTag_append hz.ne_nil, (operand_starts hz).1] at this
    · rintro ys z zs rfl
      have hz : z.tokens.length ≤ m + 1 := by
        simp only [List.flatMap_append, List.flatMap_cons, List.length_append] at hu
        omega
      refine operand_yields hr hz (hxs z (by simp)) (endsPath_of_operands (fun y hy => hxs y (by simp [hy])) ?_)
      refine EndsPath.of_suffix (u := u ++ ys.flatMap Piece.tokens) ?_
      simpa using hpath
  refine h₂.many_bind hrow (fun y hy => (hxs y hy).ne_nil) fun {args s₃} hargs h₃ => ?_
  refine h₃.noBlock_bind hv fun {s₄} h₄ => ?_
  cases xs with
  | nil =>
    obtain rfl := List.eq_nil_of_length_eq_zero hargs
    exact ⟨callee, s₄, rfl, by simpa [applicationOf] using h₄⟩
  | cons y ys =>
    cases args with
    | nil => cases hargs
    | cons a as =>
      have hof : applicationOf pl.ctx f (y :: ys) =
          node (if pl.ctx.inType then .typeApp else .app false) (f :: (y :: ys).map Piece.outline) := by
        rw [applicationOf, if_neg (by simp), application_eq]
      refine Read.newExpr ?_
      rw [applicationKind_view, hof]
      exact h₄.wrap _

/-- An application is read if nothing goes on with it. -/
theorem application_yields (hr : r.Inverts m) (hu : u.length ≤ m + 1) (h : Spells (.application pl) u o)
    (hv : EndsApplication pl.ctx v) (hpath : EndsPath u v) : Yields (application r pl.ctx) ExprId.view u v o := by
  cases h with
  | operandApplication hf =>
    rw [← List.append_nil u] at hu hpath ⊢
    exact operands_yield [] hr hu hf (fun _ hy => by cases hy) hv hpath
  | @application _ w f xs hne hf hxs =>
    have hyields := operands_yield xs hr hu hf hxs hv hpath
    rwa [applicationOf, if_neg (by simpa using hne)] at hyields

end Applications

end SolSyntax.Grammar
