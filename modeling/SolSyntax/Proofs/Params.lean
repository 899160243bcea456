import SolSyntax.Proofs.Lists
import SolSyntax.Proofs.Patterns

/-!
# Parameter lists side by side

A parameter stands in brackets.  So whether it has a type is told by the common tokens, and a list of
parameters agrees if expressions do.

Principal results: `paramSet_agrees`.
-/

namespace SolSyntax.Grammar

open Outline (leaf node)
open Parse

/-- What productions rely on: expressions and blocks agree before fewer than `k` common tokens. -/
structure Rules.Agree (w : Window) (k : Nat) (r r' : Rules) : Prop where
  expr : ∀ ctx, Agrees w k (.expr ctx) (one ExprId.view) (r.expr ctx) (r'.expr ctx)
  arrow : ∀ ctx, Agrees w k (.arrow ctx) (one ExprId.view) (r.arrow ctx) (r'.arrow ctx)
  block : Agrees w k .block (one Block.view) r.block r'.block

variable {w : Window} {s t s₁ t₁ : State} {d k : Nat} {v : List Token} {x y : List (Outline Ref)}
  {ts : List (Outline TokenKind)} {S : β → Prop} {Q : β → β → State → State → Prop}

/-- What comes next decides what is read. -/
theorem Both.currentTag_bind {f g : Tag → Parse β} (b : Both w s t d v s₁ t₁ x y ts)
    (here : ∀ tok u, v = tok :: u → Meet w s t S Q (f tok.tag s₁) (g tok.tag t₁))
    (edge : v = [] → ∀ a a' : Tag, a = .newline ∨ a = .eof → a' = .newline ∨ a' = .eof →
      Meet w s t S Q (f a s₁) (g a' t₁)) :
    Meet w s t S Q ((look Cursor.currentTag >>= f) s₁) ((look Cursor.currentTag >>= g) t₁) := by
  show Meet w s t S Q (f s₁.cursor.currentTag s₁) (g t₁.cursor.currentTag t₁)
  rw [Cursor.currentTag_eq, Cursor.currentTag_eq]
  obtain ⟨tok, u, hv, hs, ht⟩ | ⟨hv, hs, ht⟩ := b.aligned.headTag_eq
  · rw [hs, ht]
    exact here tok u hv
  · rw [hs, ht]
    exact edge hv _ _ w.left_tag w.right_tag

variable {r r' : Rules} [r.Forward] [r'.Forward] [r.Dead] (h : r.Agree w k r')

include h

omit [r.Dead] in
theorem typedParam_agrees {kind : ParamSetKind} :
    Agrees w k (.param kind) (one ParamKind.view) (typedParam r) (typedParam r') := by
  intro d v s t al hk
  unfold typedParam
  refine pattern_agrees.bindRow al.both hk ?_
  intro p p' u v₁ us s₁ t₁ hp hv hD b₁
  rw [hv, List.length_append] at hk
  refine b₁.expect_bind (by decide) ?_
  intro c v₂ s₂ t₂ hv₁ hc b₂
  rw [hv₁, List.length_cons] at hk
  refine (h.arrow .type).part b₂ (by omega) ?_
  intro type type' u' v₃ o s₃ t₃ htype hv₂ hD' b₃
  have hkind := hp.some.map₂ htype ParamKind.typed fun _ _ _ => rfl
  refine .ok ⟨hkind, u ++ c :: u', v₃, _, by simp [hv, hv₁, hv₂], .typedParam hc hD hD', ?_⟩
  exact b₃.wrap .typed

omit [r.Forward] [r'.Forward] [r.Dead] in
theorem bareParam_agrees (kind : ParamSetKind) :
    Agrees w k (.param kind) (one ParamKind.view) (bareParam r kind) (bareParam r' kind) := by
  intro d v s t al hk
  by_cases hkind : kind = .sigma
  · subst hkind
    refine pattern_agrees.part al.both hk ?_
    intro p p' u v₁ o s₁ t₁ hp hv hD b
    exact .ok ⟨hp.map ParamKind.untyped fun _ _ => rfl, u, v₁, _, hv, .barePattern hD, b.wrap .untyped⟩
  · have heq : ∀ r : Rules, bareParam r kind = r.type >>= fun type => pure (.typed none type) := by
      intro r
      cases kind with
      | sigma => exact absurd rfl hkind
      | _ => rfl
    rw [heq, heq]
    refine (h.arrow .type).part (al.both.wrap .row) hk ?_
    intro type type' u v₁ o s₁ t₁ htype hv hD b
    exact .ok ⟨htype.map (ParamKind.typed none) fun _ _ => rfl, u, v₁, _, hv, .bareType hkind hD, b.wrap .typed⟩

omit [r.Dead] in
theorem memberParam_meet (kind : ParamSetKind) (al : Aligned w d v s t) (hd : 0 < d)
    (hk : v.length < k) :
    Meet w s t never (Found w s t d v (.param kind) (one ParamKind.view)) (memberParam r kind s)
      (memberParam r' kind t) := by
  show Meet w s t never _ ((if isAnnotated s.cursor = true then _ else _ : Parse ParamKind) s)
    ((if isAnnotated t.cursor = true then _ else _ : Parse ParamKind) t)
  rw [al.isAnnotated_eq hd]
  split
  · exact typedParam_agrees h al hk
  · exact bareParam_agrees h kind al hk

omit [r.Dead] in
theorem param_meet (kind : ParamSetKind) (al : Aligned w d v s t) (hd : 0 < d) (hk : v.length < k) :
    Meet w s t never (Found w s t d v (.param kind) (one Param.view)) (param r kind s)
      (param r' kind t) := by
  refine al.both.start_bind fun start start' hstart => ?_
  refine (Peeks.check (by decide)).ite al.both ?_ ?_
  · intro s₁ t₁ hq b
    obtain _ | ⟨q, v₁⟩ := v
    · cases hq
    refine b.advance_bind hq (fun e => by cases e) ?_
    intro s₂ t₂ b₁
    rw [List.length_cons] at hk
    refine (ident_agrees (k := k)).part b₁ (by omega) ?_
    intro name name' u v₂ o s₃ t₃ hname hv hD b₂
    have hparam := hname.map (fun name => (⟨.forAll name, q.span.merge name.span⟩ : Param))
      fun _ _ => rfl
    exact .ok ⟨hparam, q :: u, v₂, _, by rw [hv]; rfl, .forAll hq hD,
      b₂.wrap .forAll⟩
  · intro s₁ t₁ b
    refine ((memberParam_meet h kind b.aligned hd hk).base b.left.arena b.right.arena).bind' ?_
    rintro p p' s₂ t₂ ⟨hp, u, v₁, us, hv, hD, b'⟩
    have hne := hD.ne_nil rfl
    have hv₀ : v ≠ [] := by
      rw [hv]
      exact List.append_ne_nil_of_left_ne_nil hne v₁
    cases hstart hv₀
    refine (b.trans b').spanFrom_bind al hv hne (fun _ _ => rfl) fun sp sp' hsp => ?_
    exact .ok ⟨hp.map₂ hsp Param.mk fun _ _ _ => rfl, u, v₁, us, hv, hD, b.trans b'⟩

/-- A parameter list agrees, with one token more than the expressions in it. -/
theorem paramSet_agrees : Agrees w (k + 1) .paramSet (one ParamSet.view) (paramSet r) (paramSet r') := by
  intro d v s t al hk
  refine al.both.currentTag_bind ?_ ?_
  · rintro o v rfl
    unfold paramSetOf
    cases hshape : paramSetShape? o.tag with
    | none => exact al.both.failWanting
    | some shape =>
      obtain ⟨kind, close⟩ := shape
      rw [List.length_cons] at hk
      have hclosing := closing?_of_paramSetShape? hshape
      refine (bracketed_meet (k := k) (Tag.isOpening_of_closing? hclosing)
        (Tag.isClosing_of_closing? hclosing) rfl
        (fun al hk => param_meet h kind al (Nat.succ_pos d) hk) al (by omega)).bind' ?_
      rintro a a' s₁ t₁ ⟨ha, -, u, c, v', ts, hv, hc, hD, -, b⟩
      have hset := ha.map (fun found => (⟨kind, found.items, found.span⟩ : ParamSet)) fun _ _ => rfl
      refine .ok ⟨hset, o :: (u ++ [c]), v', _, by simp [hv], .paramSet hshape hc hD, ?_⟩
      exact b.wrap (.params kind)
  · rintro - a a' (rfl | rfl) (rfl | rfl) <;> exact al.both.failWanting

end SolSyntax.Grammar
