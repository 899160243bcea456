import SolSyntax.Proofs.Params

/-!
# Operands side by side

Operands agree if the expressions and blocks in them do.

Principal results: `operand_agrees`, `conditional_meet`.
-/

namespace SolSyntax.Grammar

open Outline (leaf node)
open Parse

variable {w : Window} {s t s₁ t₁ : State} {d k : Nat} {v : List Token} {x y : List (Outline Ref)}
  {ts : List (Outline TokenKind)}

/-- An expression that has been stored, in both runs. -/
theorem Both.found_expr {ph : Phrase} {kind kind' : ExprKind} {sp sp' : Span} {o : Outline TokenKind}
    {u v' : List Token} (hv : v = u ++ v') (hD : Derives ph u [o]) (hkind : Same w kind kind')
    (hsp : Same w sp sp') (b : Both w s t d v' s₁ t₁ [kind.view] [kind'.view] [o]) :
    Meet w s t never (Found w s t d v ph (one ExprId.view)) (Grammar.newExpr kind sp s₁)
      (Grammar.newExpr kind' sp' t₁) :=
  b.newExpr hkind hsp fun hid b => ⟨hid, u, v', _, hv, hD, b⟩

variable {r r' : Rules} [r.Forward] [r'.Forward] [r.Dead] (h : r.Agree w k r') {ctx : Context}

/-! ## Paths and brackets -/

theorem pathExpr_agrees : Agrees w k (.operand ctx) (one ExprId.view) pathExpr pathExpr := by
  intro d v s t al hk
  refine path_agrees.part al.both hk ?_
  intro p p' u v₁ o s₁ t₁ hp hv hD b
  exact Both.found_expr hv (.pathOperand hD) (hp.map ExprKind.path fun _ _ => rfl)
    (hp.map Path.span fun _ _ => rfl) b

theorem freeVar_meet {m : Token} (hm : m.tag = .caret) (al : Aligned w d (m :: v) s t) :
    Meet w s t never (Found w s t d (m :: v) (.operand ctx) (one ExprId.view)) (freeVar s)
      (freeVar t) := by
  refine al.both.advance_bind hm (fun e => by cases e) ?_
  intro s₁ t₁ b
  refine (ident_agrees (k := v.length + 1)).part b (Nat.lt_succ_self _) ?_
  intro name name' u v₁ o s₂ t₂ hname hv hD b'
  refine Both.found_expr (by rw [hv]; rfl) (.freeVar hm hD) (hname.map ExprKind.freeVar fun _ _ => rfl)
    (hname.map (fun name => m.span.merge name.span) fun _ _ => rfl) ?_
  exact b'.wrap .freeVar

include h

theorem parenthesized_meet {o : Token} (ho : o.tag = .lparen) (al : Aligned w d (o :: v) s t)
    (hk : v.length < k) :
    Meet w s t never (Found w s t d (o :: v) (.operand ctx) (one ExprId.view)) (parenthesized r ctx s)
      (parenthesized r' ctx t) := by
  refine (bracketed_meet (k := k) (by rw [ho]; rfl) rfl rfl (fun al hk => h.expr ctx.nested al hk) al hk).bind' ?_
  rintro ⟨items, trailing, sp⟩ ⟨items', trailing', sp'⟩ s₁ t₁
    ⟨hsame, hflag, u, c, v', ts, hv, hc, hD, -, b⟩
  have hitems := hsame.map Bracketed.items fun _ _ => rfl
  have hsp := hsame.map Bracketed.span fun _ _ => rfl
  have hflag : trailing = trailing' := hflag
  subst hflag
  have hlen : ts.length = items.length := by simpa using b.left.stores.length_eq
  have hlen' : ts.length = items'.length := by simpa using b.right.stores.length_eq
  have hall : o :: v = o :: (u ++ [c]) ++ v' := by simp [hv]
  by_cases hone : items.length = 1 ∧ trailing = false
  · obtain ⟨hone, rfl⟩ := hone
    obtain ⟨item, rfl⟩ := List.length_eq_one_iff.1 hone
    obtain ⟨item', rfl⟩ := List.length_eq_one_iff.1 (hlen'.symm.trans hlen)
    obtain ⟨o, rfl⟩ := List.length_eq_one_iff.1 hlen
    have hitem : Same w item item' := fun base hb => List.singleton_inj.1 (hitems base hb)
    refine Both.found_expr hall (.group ho hc hD) (hitem.map ExprKind.group fun _ _ => rfl) hsp ?_
    exact b.wrap .group
  · have htuple : ∀ l : List ExprId, l.length = items.length →
        groupOrTuple l trailing = .tuple l trailing := by
      intro l hl
      unfold groupOrTuple
      split
      · exact absurd ⟨hl.symm, rfl⟩ hone
      · rfl
    show Meet w s t never _ (newExpr (groupOrTuple items trailing) sp s₁)
      (newExpr (groupOrTuple items' trailing) sp' t₁)
    rw [htuple items rfl, htuple items' (hlen'.symm.trans hlen)]
    refine Both.found_expr hall (.tuple ho hc hD fun h => ?_)
      (hitems.map (ExprKind.tuple · trailing) fun _ _ => rfl) hsp ?_
    · rw [hlen] at h
      cases trailing with
      | true => rfl
      | false => exact absurd ⟨h, rfl⟩ hone
    · exact b.wrap (.tuple trailing)

theorem array_meet {o : Token} (ho : o.tag = .lbracket) (al : Aligned w d (o :: v) s t)
    (hk : v.length < k) :
    Meet w s t never (Found w s t d (o :: v) (.operand ctx) (one ExprId.view)) (array r ctx s)
      (array r' ctx t) := by
  refine (bracketed_meet (k := k) (by rw [ho]; rfl) rfl rfl (fun al hk => h.expr ctx.nested al hk) al hk).bind' ?_
  rintro a a' s₁ t₁ ⟨ha, -, u, c, v', ts, hv, hc, hD, -, b⟩
  have hall : o :: v = o :: (u ++ [c]) ++ v' := by simp [hv]
  have hkind := ha.map (fun found => ExprKind.array found.items) fun _ _ => rfl
  refine Both.found_expr hall (.array ho hc hD) hkind (ha.map Bracketed.span fun _ _ => rfl) ?_
  exact b.wrap .array

/-! ## Conditionals -/

omit [r.Forward] [r'.Forward] [r.Dead] in
theorem branch_agrees : Agrees w k (.branch ctx) (one ExprId.view) (branch r ctx) (branch r' ctx) := by
  refine (Peeks.isAt (by decide)).choose ?_ ((h.expr ctx).of_derives .exprBranch)
  intro d v s t al hk _
  refine h.block.part al.both hk ?_
  intro bl bl' u v₁ o s₁ t₁ hbl hv hD b
  refine Both.found_expr hv (.blockBranch hD) (hbl.map ExprKind.block fun _ _ => rfl)
    (hbl.map Block.span fun _ _ => rfl) ?_
  exact b.wrap .block

omit [r.Forward] [r'.Forward] [r.Dead] h in
theorem AllBreaks.append_inj {b u v : List Token} {e : Token} (hb : AllBreaks b) (hu : AllBreaks u)
    (he : e.tag ≠ .newline) (hv : headTag v ≠ .newline) {x : List Token} (h : b ++ e :: x = u ++ v) :
    b = u ∧ v = e :: x := by
  induction b generalizing u with
  | nil =>
    cases u with
    | nil => exact ⟨rfl, h.symm⟩
    | cons t u =>
      cases h
      exact absurd (hu _ List.mem_cons_self) he
  | cons t b ih =>
    cases u with
    | nil =>
      rw [List.nil_append] at h
      rw [← h] at hv
      exact absurd (hb _ List.mem_cons_self) hv
    | cons t' u =>
      injection h with ht h
      obtain ⟨rfl, hx⟩ := ih (fun t h => hb t (List.mem_cons_of_mem _ h))
        (fun t h => hu t (List.mem_cons_of_mem _ h)) h
      exact ⟨by rw [ht], hx⟩

/-- The `else` of an `if` and what follows it. -/
theorem elseBranch_agrees (position : IfPosition) :
    Agrees w k (.elseBranch ctx position) (one (partOf ExprId.view)) (elseBranch r ctx position)
      (elseBranch r' ctx position) := by
  refine Peeks.startsElse.choose ?_ ?_
  · rintro d v s t al hk ⟨b, e, u, hv, hb, he⟩
    refine al.both.skip_bind ?_ fun s' hend => Dead.stalled hend
    intro u₁ v₁ s₁ t₁ hv₁ hu₁ hhead _ b₁
    obtain ⟨rfl, rfl⟩ := AllBreaks.append_inj hb hu₁ (by rw [he]; decide) hhead (hv.symm.trans hv₁)
    refine b₁.advance_bind he (fun e => by cases e) ?_
    intro s₂ t₂ b₂
    refine b₂.skip_bind ?_ fun s' hend => Dead.stalled hend
    intro u₃ v₃ s₃ t₃ hv₃ hu₃ _ _ b₃
    rw [hv, hv₃, List.length_append, List.length_cons, List.length_append] at hk
    refine (branch_agrees h).part b₃ (by omega) ?_
    intro br br' u₄ v₄ o s₄ t₄ hbr hv₄ hD b₄
    refine .ok ⟨hbr.some, b ++ e :: (u₃ ++ u₄), v₄, _, by simp [hv, hv₃, hv₄], .elseSome he hb hu₃ hD, ?_⟩
    exact b₄.wrap .row
  · intro d v s t al _
    cases position with
    | expr => exact al.both.failWanting
    | stmt => exact .ok ⟨fun _ _ => rfl, [], v, _, rfl, .elseNone, al.both.wrap .row⟩

omit [r.Forward] [r'.Forward] [r.Dead] in
/-- What an `if` asks, up to the line breaks behind the `then`.  There it may stall. -/
theorem condition_meet (al : Aligned w d v s t) (hk : v.length < k) :
    Meet w s t (fun _ => True)
      (fun a a' s' t' => Same w a a' ∧ ∃ u b m b' v' o, v = u ++ b ++ m :: (b' ++ v') ∧ AllBreaks b ∧
        m.tag = .kwThen ∧ AllBreaks b' ∧ Derives (.expr .head) u [o] ∧
        Both w s t d v' s' t' [a.view] [a'.view] [o])
      (condition r s) (condition r' t) := by
  have := Dead.expect (show Tag.isInner .kwThen by decide)
  refine (h.expr .head).part al.both hk ?_
  intro test test' u v₁ o s₁ t₁ htest hv hD b₁
  refine b₁.skip_bind ?_ fun s' hend => Dead.stalled hend
  intro u₁ v₂ s₂ t₂ hv₁ hu₁ _ _ b₂
  refine b₂.expect_bind (by decide) ?_
  intro m v₃ s₃ t₃ hv₂ hm b₃
  refine b₃.skip_bind ?_ fun s' hend => ⟨hend, trivial⟩
  intro u₂ v₄ s₄ t₄ hv₃ hu₂ _ _ b₄
  exact .ok ⟨htest, u, u₁, m, u₂, v₄, o, by simp [hv, hv₁, hv₂, hv₃], hu₁, hm, hu₂, hD, b₄⟩

theorem conditional_meet {i : Token} (hi : i.tag = .kwIf) (position : IfPosition)
    (al : Aligned w d (i :: v) s t) (hk : v.length < k) :
    Meet w s t never (Found w s t d (i :: v) (.conditional ctx position) (one ExprId.view))
      (conditional r ctx position s) (conditional r' ctx position t) := by
  refine al.both.advance_bind hi (fun e => by cases e) ?_
  intro s₁ t₁ b₁
  refine ((condition_meet h b₁.aligned hk).base b₁.left.arena b₁.right.arena).bind ?_
    fun _ s' _ hend => Dead.stalled hend
  rintro test test' s₂ t₂ ⟨htest, u, b, m, b', v₁, o, hv, hb, hm, hb', hD, c₂⟩
  rw [hv, List.length_append, List.length_append, List.length_cons, List.length_append] at hk
  refine (branch_agrees h).part (b₁.trans c₂) (by omega) ?_
  intro br br' u₁ v₂ o₁ s₃ t₃ hbr hv₁ hD₁ b₃
  rw [hv₁, List.length_append] at hk
  refine (elseBranch_agrees h position).part b₃ (by omega) ?_
  intro el el' u₂ v₃ o₂ s₄ t₄ hel hv₂ hD₂ b₄
  have hall : i :: v = i :: (u ++ b ++ m :: (b' ++ u₁ ++ u₂)) ++ v₃ := by simp [hv, hv₁, hv₂]
  have hkind := htest.map₃ hbr hel (ExprKind.cond · · · position) fun _ _ _ _ => rfl
  refine b₄.spanFrom_bind al hall (List.cons_ne_nil _ _) (fun _ _ => rfl) fun sp sp' hsp => ?_
  refine Both.found_expr hall (.conditional hi hm hb hb' hD hD₁ hD₂) hkind hsp ?_
  exact b₄.wrap (.cond position)

/-! ## Case analysis -/

theorem matchArm_agrees : Agrees w k .arm (one MatchArm.view) (matchArm r) (matchArm r') := by
  intro d v s t al hk
  refine pattern_agrees.part al.both hk ?_
  intro p p' u v₁ o s₁ t₁ hp hv hD b₁
  rw [hv, List.length_append] at hk
  refine b₁.expect_bind (by decide) ?_
  intro f v₂ s₂ t₂ hv₁ hf b₂
  refine b₂.skip_bind ?_ fun s' hend => Dead.stalled hend
  intro u₂ v₃ s₃ t₃ hv₂ hu₂ _ _ b₃
  rw [hv₁, List.length_cons, hv₂, List.length_append] at hk
  refine (branch_agrees h).part b₃ (by omega) ?_
  intro body body' u₃ v₄ o₃ s₄ t₄ hbody hv₃ hD₃ b₄
  refine b₄.patternSpan_bind hp fun sp sp' hsp => ?_
  refine b₄.exprSpan_bind hbody fun sp₁ sp₁' hsp₁ => ?_
  have harm := hp.map₃ hbody (hsp.merge hsp₁) MatchArm.mk fun _ _ _ _ => rfl
  refine .ok ⟨harm, u ++ f :: (u₂ ++ u₃), v₄, _, by simp [hv, hv₁, hv₂, hv₃], .arm hf hu₂ hD hD₃, ?_⟩
  exact b₄.wrap .arm

theorem caseAnalysis_meet {m : Token} (hm : m.tag = .kwMatch) (al : Aligned w d (m :: v) s t)
    (hk : v.length < k) :
    Meet w s t never (Found w s t d (m :: v) (.operand ctx) (one ExprId.view)) (caseAnalysis r s)
      (caseAnalysis r' t) := by
  refine al.both.advance_bind hm (fun e => by cases e) ?_
  intro s₁ t₁ b₁
  refine (h.expr .head).part b₁ hk ?_
  intro e e' u v₁ o s₂ t₂ he hv hD b₂
  rw [hv, List.length_append] at hk
  have arm := (matchArm_agrees h).within .matchArm
  have arms : Meet w s₂ t₂ never _
      (braced (within .matchArm (matchArm r)) eatSeparators noObjection s₂)
      (braced (within .matchArm (matchArm r')) eatSeparators noObjection t₂) :=
    braced_meet (k := k) rfl eatSeparators_meet (fun al hk => arm al hk) (fun _ b => noObjection_meet b)
      b₂.aligned
      (by omega)
  refine (arms.base b₂.left.arena b₂.right.arena).bind' ?_
  rintro arms arms' s₃ t₃ ⟨harms, o', v₂, separated, hv₁, ho, -, u', c, v₃, ts, hv₂, hc, hDa, -, c₃⟩
  have hall : m :: v = m :: (u ++ o' :: (u' ++ [c])) ++ v₃ := by simp [hv, hv₁, hv₂]
  have hkind := he.map₂ (harms.map Prod.fst fun _ _ => rfl) ExprKind.cases fun _ _ _ => rfl
  refine (b₂.trans c₃).spanFrom_bind al hall (List.cons_ne_nil _ _) (fun _ _ => rfl)
    fun sp sp' hsp => ?_
  refine Both.found_expr hall (.cases hm ho hc hD hDa) hkind hsp ?_
  exact (b₂.trans (c₃.wrap .row)).wrap .cases

/-! ## The operand at hand -/

omit [r.Forward] [r'.Forward] [r.Dead] in
theorem returning_meet {m : Token} (hm : m.tag = .kwReturn) (al : Aligned w d (m :: v) s t)
    (hk : v.length < k) :
    Meet w s t never (Found w s t d (m :: v) (.operand ctx) (one ExprId.view)) (returning r ctx s)
      (returning r' ctx t) := by
  refine al.both.advance_bind hm (fun e => by cases e) ?_
  intro s₁ t₁ b₁
  have peeks : Peeks w _ (checkSet .exprStart) := .checkSet rfl rfl
  have item := optionally_item peeks fun al hk _ => h.expr ctx al hk
  refine item.opt.part b₁ hk ?_
  intro e e' u v₁ o s₂ t₂ he hv hD b₂
  have hall : m :: v = m :: u ++ v₁ := by rw [hv]; rfl
  refine b₂.spanFrom_bind al hall (List.cons_ne_nil _ _) (fun _ _ => rfl) fun sp sp' hsp => ?_
  refine Both.found_expr hall (.ret hm hD) (he.map ExprKind.ret fun _ _ => rfl) hsp ?_
  exact b₂.wrap .ret

omit [r.Forward] [r'.Forward] [r.Dead] h in
theorem operandOf_of_edge {a : Token} (ha : a.tag = .newline ∨ a.tag = .eof) :
    operandOf r ctx a = failWanting .primaryStart .expectedExpression := by
  obtain ⟨kind, span, position⟩ := a
  cases kind <;> first | rfl | (rcases ha with h | h <;> cases h)

/-- An operand agrees, with one token more than the expressions in it. -/
theorem operand_agrees :
    Agrees w (k + 1) (.operand ctx) (one ExprId.view) (operand r ctx) (operand r' ctx) := by
  intro d v s t al hk
  refine al.both.current_bind ?_ ?_
  · rintro tok u rfl
    have hu : u.length < k := Nat.lt_of_succ_lt_succ hk
    unfold operandOf
    cases hl : tok.kind.literal? with
    | some l =>
      have hplain := TokenKind.isPlain_of_literal? hl
      refine al.both.advance_bind rfl (Tag.ne_eof_of_isPlain hplain) ?_
      intro s₁ t₁ b
      rw [Tag.depthFrom_of_isPlain hplain] at b
      refine Both.found_expr List.singleton_append.symm (.literal hl) (fun _ _ => rfl)
        (fun _ _ => rfl) ?_
      rw [ExprKind.view, Literal.view, TokenKind.tokenKind_literal? hl]
      exact (b.token tok.kind).wrap .literal
    | none =>
      have htag : tok.tag = tok.kind.tag := rfl
      cases htok : tok.kind with
      | ident name => exact pathExpr_agrees al hk
      | symbol name => exact pathExpr_agrees al hk
      | caret => exact freeVar_meet (by rw [htag, htok]; rfl) al
      | kwUniverse =>
        have huniv : tok.tag = .kwUniverse := by rw [htag, htok]; rfl
        refine al.both.advance_bind huniv (fun e => by cases e) ?_
        intro s₁ t₁ b
        refine Both.found_expr List.singleton_append.symm (.univ huniv) (fun _ _ => rfl)
          (fun _ _ => rfl) ?_
        exact (b.token .kwUniverse).wrap .univ
      | lparen => exact parenthesized_meet h (by rw [htag, htok]; rfl) al hu
      | lbracket => exact array_meet h (by rw [htag, htok]; rfl) al hu
      | kwIf =>
        refine (conditional_meet h (by rw [htag, htok]; rfl) .expr al hu).mono (fun _ h => h) ?_
        rintro a a' s' t' ⟨ha, u', v', us, hv, hD, b⟩
        exact ⟨ha, u', v', us, hv, .conditionalOperand hD, b⟩
      | kwMatch => exact caseAnalysis_meet h (by rw [htag, htok]; rfl) al hu
      | kwReturn => exact returning_meet h (by rw [htag, htok]; rfl) al hu
      | _ => exact al.both.failWanting
  · intro hv a a' ha ha'
    rw [operandOf_of_edge (ha ▸ w.left_tag), operandOf_of_edge (ha' ▸ w.right_tag)]
    exact al.both.failWanting

end SolSyntax.Grammar
