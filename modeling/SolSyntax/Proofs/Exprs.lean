import SolSyntax.Proofs.Operands

/-!
# Expressions side by side

Each level of expressions agrees if the levels below do, and the recursion is tied by induction on
the number of common tokens.

Principal results: `rules_agree` — expressions, types and blocks agree.
-/

namespace SolSyntax.Grammar

open Outline (leaf node)
open Parse

variable {w : Window} {s t s₁ t₁ : State} {d k : Nat} {v : List Token} {x y : List (Outline Ref)}
  {ts : List (Outline TokenKind)}

variable {r r' : Rules} [r.Forward] [r'.Forward] [r.Dead] (h : r.Agree w k r') {ctx : Context}

/-! ## Applications -/

/-- Whether an application has neither arguments nor a block can be seen from the outlines. -/
theorem isEmpty_parts {as : List ExprId} {bl : Option Block} {us bs : List (Outline TokenKind)}
    (ha : us.length = as.length) (hb : bs.length = bl.toList.length) :
    (as.isEmpty && bl.isNone) = (us ++ bs).isEmpty := by
  cases as <;> cases us <;> cases bl <;> cases bs <;> simp_all

/-- Both runs make an application of what they have stored. -/
theorem Both.application {callee callee' : ExprId} {as as' : List ExprId} {bl bl' : Option Block}
    {o : Outline TokenKind} {us bs : List (Outline TokenKind)}
    (b : Both w s t d v s₁ t₁ (callee.view :: (as.map ExprId.view ++ bl.toList.map Block.view))
      (callee'.view :: (as'.map ExprId.view ++ bl'.toList.map Block.view)) (o :: (us ++ bs)))
    (hb : bs.length = bl.toList.length) (hb' : bs.length = bl'.toList.length)
    (hc : ctx.inType = true → bs = []) :
    Both w s t d v s₁ t₁ [(applicationKind ctx callee as bl).view]
      [(applicationKind ctx callee' as' bl').view] [Outline.application ctx o us bs] := by
  cases hi : ctx.inType with
  | true =>
    obtain rfl := hc hi
    obtain rfl : bl = none := by cases bl <;> first | rfl | cases hb
    obtain rfl : bl' = none := by cases bl' <;> first | rfl | cases hb'
    simp only [List.append_nil, Option.toList_none, List.map_nil] at b
    simp only [applicationKind, Outline.application, hi, if_true]
    exact b.wrap .typeApp
  | false =>
    simp only [applicationKind, Outline.application, hi]
    cases bs with
    | nil =>
      obtain rfl : bl = none := by cases bl <;> first | rfl | cases hb
      obtain rfl : bl' = none := by cases bl' <;> first | rfl | cases hb'
      simp only [Option.toList_none, List.map_nil, List.append_nil] at b ⊢
      exact b.wrap (.app false)
    | cons bo bs =>
      obtain ⟨blk, rfl⟩ : ∃ x, bl = some x := by cases bl <;> first | cases hb | exact ⟨_, rfl⟩
      obtain ⟨blk', rfl⟩ : ∃ x, bl' = some x := by cases bl' <;> first | cases hb' | exact ⟨_, rfl⟩
      exact b.wrap (.app true)

include h

omit [r.Forward] [r'.Forward] [r.Dead] in
theorem blockArgument_agrees :
    Agrees w k (.blockArgument ctx) (fun b => b.toList.map Block.view) (blockArgument r ctx)
      (blockArgument r' ctx) := by
  intro d v s t al hk
  unfold blockArgument
  by_cases hc : ctx.allowsBlockCall = true
  · rw [if_pos hc, if_pos hc]
    have item := optionally_item (Peeks.check (w := w) (show Tag.isInner .lbrace by decide))
      fun al hk _ => h.block al hk
    refine (item al hk).mono (fun _ h => h) ?_
    rintro (_ | bl) (_ | bl') s₁ t₁ hm
    · exact ⟨fun _ _ => rfl, [], v, [], rfl, .noBlockArgument, hm.1⟩
    · exact hm.elim
    · exact hm.elim
    · obtain ⟨hbl, u, v', us, hv, hD, b⟩ := hm
      exact ⟨hbl.some, u, v', us, hv, .blockArgument hc hD, b⟩
  · rw [if_neg hc, if_neg hc]
    exact .ok ⟨fun _ _ => rfl, [], v, [], rfl, .noBlockArgument, al.both⟩

/-- Arguments after a callee that has been read. -/
theorem applied_meet {u v₁ : List Token} {callee callee' : ExprId} {o : Outline TokenKind}
    (al : Aligned w d v s t) (hv : v = u ++ v₁) (hD : Derives (.operand ctx) u [o])
    (hclosed : o.isClosedForm = false) (hcallee : Same w callee callee')
    (b : Both w s t d v₁ s₁ t₁ [callee.view] [callee'.view] [o]) (hk : v₁.length < k) :
    Meet w s t never (Found w s t d v (.application ctx) (one ExprId.view))
      (applied r ctx callee s₁) (applied r' ctx callee' t₁) := by
  have peeks : Peeks w _ (checkSet .argStart) := .checkSet rfl rfl
  have item : Item w k (.argument ctx) ExprId.view (fun _ => True) never
      (optionally (checkSet .argStart) (operand r ctx))
      (optionally (checkSet .argStart) (operand r' ctx)) := by
    refine optionally_item peeks ?_
    intro d v s t al hk hstart
    refine (operand_agrees h al (Nat.lt_succ_of_lt hk)).mono (fun _ h => h) ?_
    rintro a a' s' t' ⟨ha, u, v', us, hv, hD, b⟩
    refine ⟨ha, u, v', us, hv, .argument ?_ hD, b⟩
    have hne := hD.ne_nil rfl
    cases u with
    | nil => exact absurd rfl hne
    | cons tok u =>
      rw [hv] at hstart
      exact hstart
  refine ((many_row rfl item b.aligned hk).base b.left.arena b.right.arena).bind' ?_
  rintro as as' s₂ t₂ ⟨has, u₂, v₂, us, hv₁, hDas, hnil, -, c₂⟩
  have b₂ := b.trans c₂
  have hlen : us.length = as.length := by simpa using c₂.left.stores.length_eq
  have hlen' : us.length = as'.length := by simpa using c₂.right.stores.length_eq
  rw [hv₁, List.length_append] at hk
  refine ((blockArgument_agrees h b₂.aligned (by omega)).base b₂.left.arena b₂.right.arena).bind' ?_
  rintro bl bl' s₃ t₃ ⟨hbl, u₃, v₃, bs, hv₂, hDb, c₃⟩
  have b₃ := b₂.trans c₃
  have hblock : bs.length = bl.toList.length := by simpa using c₃.left.stores.length_eq
  have hblock' : bs.length = bl'.toList.length := by simpa using c₃.right.stores.length_eq
  rw [isEmpty_parts hlen hblock, isEmpty_parts hlen' hblock']
  by_cases hnone : us ++ bs = []
  · obtain ⟨rfl, rfl⟩ := List.append_eq_nil_iff.1 hnone
    obtain rfl := hnil rfl
    obtain rfl : u₃ = [] := hDb.blockArgument_nil
    obtain rfl : as = [] := List.eq_nil_of_length_eq_zero hlen.symm
    obtain rfl : as' = [] := List.eq_nil_of_length_eq_zero hlen'.symm
    obtain rfl : bl = none := by cases bl <;> first | rfl | cases hblock
    obtain rfl : bl' = none := by cases bl' <;> first | rfl | cases hblock'
    exact .ok ⟨hcallee, u, v₃, [o], by rw [hv, hv₁, hv₂]; rfl, .operandApplication hD, b₃⟩
  · have hfalse : ¬(us ++ bs).isEmpty = true := by simpa using hnone
    rw [if_neg hfalse, if_neg hfalse]
    have hall : v = u ++ u₂ ++ u₃ ++ v₃ := by simp [hv, hv₁, hv₂]
    have hne : u ++ u₂ ++ u₃ ≠ [] := by simp [hD.ne_nil rfl]
    have hkind := hcallee.map₃ has hbl (applicationKind ctx) fun m callee as bl => by
      unfold applicationKind
      split <;> rfl
    refine b₃.exprSpan_bind hcallee fun sp sp' hsp => ?_
    refine b₃.spanFrom_bind al hall hne hsp fun sp₁ sp₁' hsp₁ => ?_
    refine Both.found_expr hall (.application hclosed hnone hD hDas hDb) hkind hsp₁ ?_
    refine Both.application ?_ hblock hblock' hDb.blockArgument_inType
    simpa using b₃

theorem application_agrees :
    Agrees w (k + 1) (.application ctx) (one ExprId.view) (application r ctx) (application r' ctx) := by
  intro d v s t al hk
  refine (operand_agrees h).part al.both hk ?_
  intro callee callee' u v₁ o s₁ t₁ hcallee hv hD b
  have hne := List.length_pos_iff.2 (hD.ne_nil rfl)
  rw [hv, List.length_append] at hk
  have hleft : isClosedForm callee s₁ = .ok o.isClosedForm s₁ :=
    Grew.isClosedForm_of_stores b.left.stores
  have hright : isClosedForm callee' t₁ = .ok o.isClosedForm t₁ :=
    Grew.isClosedForm_of_stores b.right.stores
  rw [bind_of_ok hleft, bind_of_ok hright]
  cases hc : o.isClosedForm with
  | true => exact .ok ⟨hcallee, u, v₁, [o], hv, .operandApplication hD, b⟩
  | false => exact applied_meet h al hv hD hc hcallee b (by omega)

/-! ## Chains -/

/-- Both runs have read an expression and stand before `v₁`. -/
def FoundExpr (w : Window) (s t : State) (d : Nat) (v : List Token) (ph : Phrase) (e e' : ExprId)
    (v₁ : List Token) (s₁ t₁ : State) : Prop :=
  Same w e e' ∧ ∃ u o, v = u ++ v₁ ∧ Derives ph u [o] ∧ Both w s t d v₁ s₁ t₁ [e.view] [e'.view] [o]

/-- What both runs see where an operator may come. -/
def FoundOperator (w : Window) (s t : State) (d : Nat) (v : List Token) (o o' : Option Ident)
    (s' t' : State) : Prop :=
  match o, o' with
  | some op, some op' => Same w op op' ∧ ∃ tok u, v = tok :: u ∧ tok.kind.isOperator = true ∧
    Both w s t d v s' t' [leaf (.op op.name)] [leaf (.op op'.name)] [leaf tok.kind]
  | none, none => Both w s t d v s' t' [] [] []
  | _, _ => False

omit [r.Forward] [r'.Forward] [r.Dead] h in
theorem signOperator_meet {tok : Token} {u : List Token} {text : String} {sp : Span}
    (hv : v = tok :: u) (hk : tok.kind.isOperator = true)
    (hop : ∀ {names : Interner} {n : Name}, names.strings[n.index]? = some text →
      names.IsOperator n tok.kind) (al : Aligned w d v s t) :
    Meet w s t never (FoundOperator w s t d v) (signOperator text sp s) (signOperator text sp t) := by
  have hal : Aligned w d v { s with names := (s.names.intern text).2 }
      { t with names := (t.names.intern text).2 } :=
    al.of_cursor rfl rfl (fun hn => by rw [hn]) fun _ _ _ ha => ha
  refine .ok ⟨fun base hb => ?_, tok, u, hv, hk, hal, .intern s hop, .intern t hop⟩
  rw [(al.twins base hb).names]
  rfl

omit [r.Forward] [r'.Forward] [r.Dead] h in
/-- Both runs see the same operator, or none. -/
theorem operator_meet (al : Aligned w d v s t) :
    Meet w s t never (FoundOperator w s t d v) (operator? s) (operator? t) := by
  have other : Meet w s t never (FoundOperator w s t d v)
      ((note .binaryOperator >>= fun _ => pure none) s)
      ((note .binaryOperator >>= fun _ => pure none) t) :=
    .ok (al.both.stay ⟨rfl, rfl, rfl, rfl⟩ ⟨rfl, rfl, rfl, rfl⟩)
  refine al.both.current_bind ?_ ?_
  · rintro tok u rfl
    unfold operatorOf
    cases hk : tok.kind with
    | operator name =>
      have grown : ∀ s : State, Grew s s [leaf (.op name)] [leaf tok.kind] :=
        fun s => (Grew.refl s).op (hk ▸ .operator)
      exact .ok ⟨fun _ _ => rfl, tok, u, rfl, by rw [hk]; rfl, al, grown s, grown t⟩
    | pipe =>
      exact signOperator_meet rfl (by rw [hk]; rfl) (fun h => hk ▸ .pipe h) al
    | dot =>
      have htag : tok.tag = .dot := by rw [Token.tag, hk]; rfl
      have stays : ∀ s : State,
          (final ((if isTightDot s.cursor = true then pure none else signOperator "." tok.span :
            Parse (Option Ident)) s)).cursor = s.cursor := by
        intro s
        split <;> rfl
      show Meet w s t never _ ((if isTightDot s.cursor = true then _ else _ : Parse (Option Ident)) s)
        ((if isTightDot t.cursor = true then _ else _ : Parse (Option Ident)) t)
      obtain heq | ⟨hw, hp, rfl⟩ := al.cases_isTightDot htag
      · rw [heq]
        split
        · exact .ok al.both
        · exact signOperator_meet rfl (by rw [hk]; rfl) (fun h => hk ▸ .dot h) al
      · refine .point hw hp ?_ ?_
        · rw [stays, al.left]
          exact Nat.le_refl _
        · rw [stays, al.right]
          exact Nat.le_refl _
    | _ => exact other
  · intro hv a a' ha ha'
    have edge : ∀ {a : Token}, a.tag = .newline ∨ a.tag = .eof →
        operatorOf a = note .binaryOperator >>= fun _ => pure none := by
      rintro ⟨kind, span, position⟩ h
      cases kind <;> first | rfl | (rcases h with h | h <;> cases h)
    rw [edge (ha ▸ w.left_tag), edge (ha' ▸ w.right_tag)]
    exact other

/-- An operator and its right side. -/
theorem joined_meet {u : List Token} {tok : Token} {lhs lhs' : ExprId} {op op' : Ident}
    {o : Outline TokenKind} (hop : tok.kind.isOperator = true)
    (b : Both w s t d (tok :: u) s₁ t₁ [lhs.view, leaf (.op op.name)] [lhs'.view, leaf (.op op'.name)]
      [o, leaf tok.kind])
    (hlhs : Same w lhs lhs') (hsame : Same w op op') (hk : u.length < k + 1) :
    Meet w s t never
      (fun a a' s' t' => Same w a a' ∧ ∃ u' v' o', u = u' ++ v' ∧ Derives (.application ctx) u' [o'] ∧
        Both w s t d v' s' t' [a.view] [a'.view] [node .binary [o, leaf tok.kind, o']])
      (joined r ctx lhs op s₁) (joined r' ctx lhs' op' t₁) := by
  have hplain := TokenKind.isPlain_of_isOperator hop
  refine b.advance_bind rfl (Tag.ne_eof_of_isPlain hplain) ?_
  intro s₂ t₂ b₁
  rw [Tag.depthFrom_of_isPlain hplain] at b₁
  refine (application_agrees h).part b₁ hk ?_
  intro rhs rhs' u' v' o' s₃ t₃ hrhs hv hD b₂
  refine b₂.exprSpan_bind hlhs fun sp sp' hsp => ?_
  refine b₂.exprSpan_bind hrhs fun sp₁ sp₁' hsp₁ => ?_
  have hkind := hlhs.map₃ hsame hrhs ExprKind.binary fun _ _ _ _ => rfl
  exact (b₂.wrap .binary).newExpr hkind (hsp.merge hsp₁) fun hid b => ⟨hid, u', v', o', hv, hD, b⟩

theorem chain_agrees :
    Agrees w (k + 1) (.chain ctx) (one ExprId.view) (chain r ctx) (chain r' ctx) := by
  intro d v s t al hk
  refine (application_agrees h).part al.both hk ?_
  intro lhs lhs' u v₁ o s₁ t₁ hlhs hv hD b
  refine Meet.repeating' (I := FoundExpr w s t d v (.chain ctx)) ?_ b.aligned ⟨hlhs, u, o, hv, .applicationChain hD, b⟩
  rintro lhs lhs' v₁ s₁ t₁ ⟨hlhs, u, o, rfl, hD, b⟩
  rw [List.length_append] at hk
  have := Has.afterOperator @Forward lhs (joined r ctx lhs)
  have := Has.afterOperator @Forward lhs' (joined r' ctx lhs')
  refine ((operator_meet b.aligned).base b.left.arena b.right.arena).bind' ?_
  rintro (_ | op) (_ | op') s₂ t₂ hm
  · exact .ok ⟨hlhs, u, v₁, [o], rfl, hD, b.trans hm⟩
  · exact hm.elim
  · exact hm.elim
  · obtain ⟨hsame, tok, u₁, rfl, hop, c⟩ := hm
    have b₁ := b.trans c
    rw [List.length_cons] at hk
    refine (joined_meet h hop b₁ hlhs hsame (by omega)).bind' ?_
    rintro e e' s₃ t₃ ⟨he, u', v', o', rfl, hD', b₂⟩
    refine .ok ⟨v', ?_, he, u ++ tok :: u', _, by simp, .chain hop hD hD', b₂⟩
    rw [List.length_cons, List.length_append]
    omega

/-! ## Annotations and binders -/

omit [r.Forward] [r'.Forward] [r.Dead] in
theorem ascribed_meet {value value' : ExprId} {o : Outline TokenKind}
    (b : Both w s t d v s₁ t₁ [value.view] [value'.view] [o]) (hvalue : Same w value value')
    (hk : v.length < k) :
    Meet w s t never
      (fun a a' s' t' => Same w a a' ∧ ∃ u v' type, v = u ++ v' ∧ Derives (.arrow .annotationType) u [type] ∧
        Both w s t d v' s' t' [a.view] [a'.view] [node .ann [o, type]])
      (ascribed r value s₁) (ascribed r' value' t₁) := by
  refine (h.arrow .annotationType).part b hk ?_
  intro type type' u v' o' s₂ t₂ htype hv hD b₁
  refine b₁.exprSpan_bind hvalue fun sp sp' hsp => ?_
  refine b₁.exprSpan_bind htype fun sp₁ sp₁' hsp₁ => ?_
  have hkind := hvalue.map₂ htype ExprKind.ann fun _ _ _ => rfl
  exact (b₁.wrap .ann).newExpr hkind (hsp.merge hsp₁) fun hid b => ⟨hid, u, v', o', hv, hD, b⟩

theorem annotated_agrees :
    Agrees w (k + 1) (.annotated ctx) (one ExprId.view) (annotated r ctx) (annotated r' ctx) := by
  intro d v s t al hk
  refine (chain_agrees h).part al.both hk ?_
  intro value value' u v₁ o s₁ t₁ hvalue hv hD b
  by_cases hc : ctx.allowsAnnotation = true
  · rw [if_pos hc, if_pos hc]
    refine Meet.repeating' (I := FoundExpr w s t d v (.annotated ctx)) ?_ b.aligned
      ⟨hvalue, u, o, hv, .chainAnnotated hD, b⟩
    rintro e e' v₁ s₁ t₁ ⟨he, u, o, rfl, hD, b⟩
    rw [List.length_append] at hk
    refine b.accept_ite (by decide) ?_ ?_
    · intro i v₂ s₂ t₂ hv₁ hi b₁
      subst hv₁
      rw [List.length_cons] at hk
      refine (ascribed_meet h b₁ he (by omega)).bind' ?_
      rintro a a' s₃ t₃ ⟨ha, u', v', type, rfl, hD', b₂⟩
      refine .ok ⟨v', ?_, ha, u ++ i :: u', _, by simp, .annotated hc hi hD hD', b₂⟩
      rw [List.length_cons, List.length_append]
      omega
    · intro s₂ t₂ b₁
      exact .ok ⟨he, u, v₁, [o], rfl, hD, b₁⟩
  · rw [if_neg hc, if_neg hc]
    exact .ok ⟨hvalue, u, v₁, [o], hv, .chainAnnotated hD, b⟩

theorem sigma_agrees :
    Agrees w (k + 1) (.sigma ctx) (one ExprId.view) (sigma r ctx) (sigma r' ctx) := by
  refine Peeks.startsSigma.choose ?_ ((annotated_agrees h).of_derives .annotatedSigma)
  intro d v s t al hk hstart
  refine (paramSet_agrees h).part al.both hk ?_
  intro params params' u v₁ o s₁ t₁ hparams hv hD b
  have hu := headTag_of_append hv (hD.ne_nil rfl)
  rw [hv, List.length_append] at hk
  refine b.expect_bind (by decide) ?_
  intro f v₂ s₂ t₂ hv₁ hf b₁
  rw [hv₁, List.length_cons] at hk
  refine (h.arrow (ctx.union .type)).part b₁ (by omega) ?_
  intro result result' u₁ v₃ o' s₃ t₃ hresult hv₂ hD' b₂
  have hall : v = u ++ f :: u₁ ++ v₃ := by simp [hv, hv₁, hv₂]
  have hkind := hparams.map₂ hresult ExprKind.sigma fun _ _ _ => rfl
  refine b₂.exprSpan_bind hresult fun sp sp' hsp => ?_
  refine Both.found_expr hall (.sigma (hu ▸ hstart) hf hD hD') hkind
    ((hparams.map ParamSet.span fun _ _ => rfl).merge hsp) ?_
  exact b₂.wrap .sigma

omit [r.Forward] [r'.Forward] [r.Dead] in
/-- The result after parameters and an arrow. -/
theorem arrowResult_meet {params params' : ParamSet} {o : Outline TokenKind}
    (b : Both w s t d v s₁ t₁ [params.view] [params'.view] [o]) (hparams : Same w params params')
    (hk : v.length < k) :
    Meet w s t never
      (fun a a' s' t' => Same w a a' ∧ ∃ u v' result, v = u ++ v' ∧ Derives (.arrow (ctx.union .type)) u [result] ∧
        Both w s t d v' s' t' [a.view] [a'.view] [node .pi [o, result]])
      (arrowResult r ctx params s₁) (arrowResult r' ctx params' t₁) := by
  refine (h.arrow (ctx.union .type)).part b hk ?_
  intro result result' u v' o' s₂ t₂ hresult hv hD b₁
  refine b₁.exprSpan_bind hresult fun sp sp' hsp => ?_
  have hkind := hparams.map₂ hresult ExprKind.pi fun _ _ _ => rfl
  exact (b₁.wrap .pi).newExpr hkind ((hparams.map ParamSet.span fun _ _ => rfl).merge hsp)
    fun hid b => ⟨hid, u, v', o', hv, hD, b⟩

omit [r.Forward] [r'.Forward] [r.Dead] h in
/-- What reading an expression again as a type changes, whether it succeeds or not. -/
theorem final_toType (id : ExprId) (s : State) :
    (final (toType id s)).cursor = s.cursor ∧ (final (toType id s)).names = s.names ∧
      (final (toType id s)).arena = (s.arena.toType id).2 := by
  unfold toType
  obtain ⟨_ | _, a⟩ := s.arena.toType id <;> exact ⟨rfl, rfl, rfl⟩

omit [r.Forward] [r'.Forward] [r.Dead] h in
/-- Both runs read an expression again as a type, or find a block in it. -/
theorem toType_meet {id id' : ExprId} {o : Outline TokenKind}
    (b : Both w s t d v s₁ t₁ [id.view] [id'.view] [o]) (hid : Same w id id') :
    Meet w s t never
      (fun _ _ s' t' => ∃ type, o.asType = some type ∧
        Both w s t d v s' t' [id.view] [id'.view] [type])
      (toType id s₁) (toType id' t₁) := by
  obtain ⟨hsc, hsn, hsa⟩ := final_toType id s₁
  obtain ⟨htc, htn, hta⟩ := final_toType id' t₁
  have hal : Aligned w d v (final (toType id s₁)) (final (toType id' t₁)) :=
    b.aligned.of_cursor hsc htc (fun hn => by rw [hsn, htn, hn]) fun base hb _ ha => by
      rw [hsa, hta, ha, hid base hb, b.left.stores.toType_behind base]
  obtain ⟨type, s₂, ho, hs, -, gs⟩ | ⟨e, s₂, ho, hs, -, ks⟩ := b.left.toType
  · obtain ⟨type', t₂, ho', ht, -, gt⟩ | ⟨e', t₂, ho', -⟩ := b.right.toType
    · rw [ho, Option.some.injEq] at ho'
      subst ho'
      rw [hs, ht] at hal ⊢
      exact .ok ⟨type, ho, hal, gs, gt⟩
    · rw [ho] at ho'
      cases ho'
  · obtain ⟨type', t₂, ho', -⟩ | ⟨e', t₂, ho', ht, -, kt⟩ := b.right.toType
    · rw [ho] at ho'
      cases ho'
    · rw [hs, ht] at hal ⊢
      exact .error v ks kt hal.left hal.right hal.twins

theorem domainArrow_agrees :
    Agrees w (k + 1) (.arrow ctx) (one ExprId.view) (domainArrow r ctx) (domainArrow r' ctx) := by
  intro d v s t al hk
  refine (sigma_agrees h).part al.both hk ?_
  intro domain domain' u v₁ o s₁ t₁ hdomain hv hD b
  rw [hv, List.length_append] at hk
  refine b.accept_ite (by decide) ?_ ?_
  · intro a v₂ s₂ t₂ hv₁ ha b₁
    rw [hv₁, List.length_cons] at hk
    refine (toType_meet b₁ hdomain).bind' ?_
    rintro - - s₃ t₃ ⟨type, htype, b₂⟩
    refine b₂.exprSpan_bind hdomain fun sp sp' hsp => ?_
    have hparams := hdomain.map₂ hsp domainParams fun _ _ _ => rfl
    have b₃ : Both w s t d v₂ s₃ t₃ [(domainParams domain sp).view] [(domainParams domain' sp').view]
        [Outline.domain type] := (((al.both.wrap .row).trans b₂).wrap .typed).wrap (.params .domain)
    refine (arrowResult_meet h b₃ hparams (by omega)).mono (fun _ h => h) ?_
    rintro e e' s₄ t₄ ⟨he, u', v', result, hv₂, hD', b₄⟩
    exact ⟨he, u ++ a :: u', v', _, by simp [hv, hv₁, hv₂], .domainArrow ha htype hD hD', b₄⟩
  · intro s₂ t₂ b₁
    exact .ok ⟨hdomain, u, v₁, [o], hv, .sigmaArrow hD, b₁⟩

theorem arrow_agrees :
    Agrees w (k + 1) (.arrow ctx) (one ExprId.view) (arrow r ctx) (arrow r' ctx) := by
  refine Peeks.startsParamList.choose ?_ (domainArrow_agrees h)
  intro d v s t al hk hstart
  refine (paramSet_agrees h).part al.both hk ?_
  intro params params' u v₁ o s₁ t₁ hparams hv hD b
  have hu := headTag_of_append hv (hD.ne_nil rfl)
  rw [hv, List.length_append] at hk
  refine b.expect_bind (by decide) ?_
  intro a v₂ s₂ t₂ hv₁ ha b₁
  rw [hv₁, List.length_cons] at hk
  refine (arrowResult_meet h b₁ hparams (by omega)).mono (fun _ h => h) ?_
  rintro e e' s₃ t₃ ⟨he, u', v', result, hv₂, hD', b₂⟩
  exact ⟨he, u ++ a :: u', v', _, by simp [hv, hv₁, hv₂],
    .paramsArrow (hu ▸ hstart.symm) ha hD hD', b₂⟩

/-! ## Lambdas -/

theorem lambda_agrees :
    Agrees w (k + 1) (.expr ctx) (one ExprId.view) (lambda r ctx) (lambda r' ctx) := by
  refine (Peeks.check (by decide)).choose ?_ ((arrow_agrees h).of_derives .arrowExpr)
  intro d v s t al hk hp
  obtain _ | ⟨p, v⟩ := v
  · cases hp
  refine al.both.advance_bind hp (fun e => by cases e) ?_
  intro s₁ t₁ b₁
  have item := before_item (w := w) (k := k) (show Tag.isInner .pipe by decide) atom_agrees
  rw [List.length_cons] at hk
  refine ((many_row rfl item b₁.aligned (by omega)).base b₁.left.arena b₁.right.arena).bind' ?_
  rintro as as' s₂ t₂ ⟨has, u, v₁, us, hv, hD, -, hstop, c₂⟩
  have hlen : us.length = as.length := by simpa using c₂.left.stores.length_eq
  have hlen' : us.length = as'.length := by simpa using c₂.right.stores.length_eq
  have b₂ := b₁.trans (c₂.wrap .row)
  have hempty : ∀ {l : List PatternId}, us.length = l.length → l.isEmpty = us.isEmpty := by
    intro l hl
    cases l <;> cases us <;> first | rfl | cases hl
  unfold lambdaBody
  rw [hempty hlen, hempty hlen']
  cases us with
  | nil => exact b₂.fail
  | cons o us =>
    obtain _ | ⟨q, v₂⟩ := v₁
    · cases hstop
    rw [hv, List.length_append, List.length_cons] at hk
    refine b₂.advance_bind hstop (fun e => by cases e) ?_
    intro s₃ t₃ b₃
    refine (h.expr ctx).part b₃ (by omega) ?_
    intro body body' u' v₃ o' s₄ t₄ hbody hv₁ hD' b₄
    have hall : p :: v = p :: (u ++ q :: u') ++ v₃ := by simp [hv, hv₁]
    have hkind := has.map₂ hbody ExprKind.lambda fun _ _ _ => rfl
    refine b₄.exprSpan_bind hbody fun sp sp' hsp => ?_
    refine Both.found_expr hall (.lambda hp hstop (List.cons_ne_nil _ _) hD hD') hkind
      (hsp.map p.span.merge fun _ _ => rfl) ?_
    exact b₄.wrap .lambda

/-! ## Blocks -/

omit [r.Forward] [r'.Forward] [r.Dead] in
theorem optionalType_agrees :
    Agrees w (k + 1) (.opt .typing) (one (partOf ExprId.view)) (optionalType r) (optionalType r') :=
  (accept_item (by decide) rfl (h.arrow .type) .typing).opt

omit [r.Dead] in
theorem letStmt_agrees {l : Token} (hl : l.tag = .kwLet) (al : Aligned w d (l :: v) s t)
    (hk : v.length < k) :
    Meet w s t never (Found w s t d (l :: v) .stmt (one Stmt.view)) (letStmt r s) (letStmt r' t) := by
  refine al.both.advance_bind hl (fun e => by cases e) ?_
  intro s₁ t₁ b₁
  refine pattern_agrees.part b₁ hk ?_
  intro p p' u v₁ o s₂ t₂ hp hv hD b₂
  rw [hv, List.length_append] at hk
  refine (optionalType_agrees h).part b₂ (by omega) ?_
  intro type type' u₁ v₂ o₁ s₃ t₃ htype hv₁ hD₁ b₃
  refine b₃.expect_bind (by decide) ?_
  intro e v₃ s₄ t₄ hv₂ he b₄
  rw [hv₁, List.length_append, hv₂, List.length_cons] at hk
  refine (h.expr .none).part b₄ (by omega) ?_
  intro value value' u₂ v₄ o₂ s₅ t₅ hvalue hv₃ hD₂ b₅
  have hall : l :: v = l :: (u ++ u₁ ++ e :: u₂) ++ v₄ := by simp [hv, hv₁, hv₂, hv₃]
  refine b₅.spanFrom_bind al hall (List.cons_ne_nil _ _) (fun _ _ => rfl) fun sp sp' hsp => ?_
  have hstmt : Same w (Stmt.letIn p type value sp) (Stmt.letIn p' type' value' sp') := by
    intro base hb
    rw [hp base hb, htype base hb, hvalue base hb, hsp base hb]
    rfl
  refine .ok ⟨hstmt, l :: (u ++ u₁ ++ e :: u₂), v₄, _, hall, .letStmt hl he hD hD₁ hD₂, ?_⟩
  exact b₅.wrap .letIn

theorem stmt_agrees : Agrees w k .stmt (one Stmt.view) (stmt r) (stmt r') := by
  refine (Peeks.isAt (by decide)).choose ?_ ((Peeks.isAt (by decide)).choose ?_ ?_)
  · intro d v s t al hk hl
    obtain _ | ⟨l, v⟩ := v
    · cases hl
    exact (letStmt_agrees h hl al (Nat.lt_of_succ_lt hk)).within
  · intro d v s t al hk hi
    obtain _ | ⟨i, v⟩ := v
    · cases hi
    refine (conditional_meet h hi .stmt al (Nat.lt_of_succ_lt hk)).bind' ?_
    rintro e e' s₁ t₁ ⟨he, u, v', us, hv, hD, b⟩
    exact .ok ⟨he.map Stmt.expr fun _ _ => rfl, u, v', us, hv, .ifStmt hD, b⟩
  · intro d v s t al hk
    refine (h.expr .none).part al.both hk ?_
    intro e e' u v' o s₁ t₁ he hv hD b
    exact .ok ⟨he.map Stmt.expr fun _ _ => rfl, u, v', [o], hv, .exprStmt hD, b⟩

omit [r.Forward] [r'.Forward] [r.Dead] h in
/-- Whether the last statement of a block is an `if` without `else` can be seen from the outlines. -/
theorem rejectOpenIf_of_stores {stmts : List Stmt} {m m' : Mark}
    (hs : Stores t.names t.arena m (stmts.map Stmt.view) ts m') :
    rejectOpenIf stmts t =
      if Outline.endsInOpenIf ts = true then failWanting (.single .kwElse) .lastWithoutElse t
      else .ok () t := by
  obtain rfl | ⟨init, last, rfl⟩ := List.eq_nil_or_concat stmts
  · obtain rfl : ts = [] := List.eq_nil_of_length_eq_zero hs.length_eq
    rfl
  · rw [List.concat_eq_append, List.map_append] at hs
    obtain ⟨us, us', m₁, rfl, -, hlast⟩ := hs.split_append
    obtain ⟨o, rfl⟩ := List.length_eq_one_iff.1 hlast.length_eq
    have hends : Outline.endsInOpenIf (us ++ [o]) = o.isOpenIf := by simp [Outline.endsInOpenIf]
    rw [hends]
    unfold rejectOpenIf
    rw [List.concat_eq_append, List.getLast?_concat]
    cases last with
    | expr id =>
      show (isOpenIf id >>= _) t = _
      rw [bind_of_ok (Grew.isOpenIf_of_stores hlast)]
      cases o.isOpenIf <;> rfl
    | letIn pattern type value span =>
      obtain ⟨_, ho, -⟩ := hlast.unwrap
      cases ho
      rfl

omit [r.Forward] [r'.Forward] [r.Dead] h in
theorem rejectOpenIf_meet {stmts stmts' : List Stmt}
    (b : Both w s t d v s₁ t₁ (stmts.map Stmt.view) (stmts'.map Stmt.view) ts) :
    Meet w s t never
      (fun _ _ s₂ t₂ => Outline.endsInOpenIf ts = false ∧
        Both w s t d v s₂ t₂ (stmts.map Stmt.view) (stmts'.map Stmt.view) ts)
      (rejectOpenIf stmts s₁) (rejectOpenIf stmts' t₁) := by
  rw [rejectOpenIf_of_stores b.left.stores, rejectOpenIf_of_stores b.right.stores]
  cases hopen : Outline.endsInOpenIf ts with
  | true => exact b.failWanting
  | false => exact .ok ⟨rfl, b⟩

theorem block_agrees : Agrees w (k + 1) .block (one Block.view) (block r) (block r') := by
  intro d v s t al hk
  have stmts : Meet w s t never _ (braced (stmt r) breakSeparator rejectOpenIf s)
      (braced (stmt r') breakSeparator rejectOpenIf t) :=
    braced_meet (k := k) rfl breakSeparator_meet (fun al hk => stmt_agrees h al hk)
      (fun _ b => rejectOpenIf_meet b) al (Nat.le_of_lt_succ hk)
  refine stmts.bind' ?_
  rintro a a' s₁ t₁ ⟨ha, o, v₁, separated, hv, ho, -, u, c, v', ts, hv₁, hc, hD, hopen, b⟩
  have hblock := ha.map (fun found => (⟨found.1, found.2⟩ : Block)) fun _ _ => rfl
  refine .ok ⟨hblock, o :: (u ++ [c]), v', _, by simp [hv, hv₁], .block ho hc hD hopen, ?_⟩
  exact b.wrap .stmts

omit [r.Forward] [r'.Forward] [r.Dead] h

/-- Expressions, types and blocks agree; the bounds on their nesting are not reached. -/
theorem rules_agree {n m : Nat} (hn : k ≤ n) (hm : k ≤ m) : (rules n).Agree w k (rules m) := by
  induction k generalizing n m with
  | zero =>
    refine ⟨fun ctx => ?_, fun ctx => ?_, ?_⟩ <;> intro d v s t _ hk <;> omega
  | succ k ih =>
    obtain _ | n := n
    · omega
    obtain _ | m := m
    · omega
    have h := ih (n := n) (m := m) (by omega) (by omega)
    exact ⟨fun ctx => lambda_agrees h, fun ctx => arrow_agrees h, block_agrees h⟩

end SolSyntax.Grammar
