import SolSyntax.Proofs.Exprs

/-!
# Declarations side by side

A declaration agrees wherever it stands.  If nothing comes after the common tokens in the left list,
doc-strings and attributes may stand last there, and the left run complains of that.

Principal results: `declLine_agrees` — a declaration and the end of its line.
-/

namespace SolSyntax.Grammar

open Outline (leaf node)
open Parse

variable {w : Window} {s t s₁ t₁ : State} {d k : Nat} {v : List Token} {x y : List (Outline Ref)}
  {ts : List (Outline TokenKind)}

variable {r r' : Rules} [r.Forward] [r'.Forward] [r.Dead] (h : r.Agree w k r')

/-! ## Doc-strings and attributes -/

def Attachment.view : Attachment → Outline Ref
  | .doc text => leaf (.token (.docString text))
  | .attr a => a.view

theorem Attachment.collect_view (as : List Attachment) :
    (Attachment.collect as).view = Outline.attributes (as.map Attachment.view) := by
  have parts : (Attachment.collect as).docs.map (fun n => leaf (.token (.docString n))) =
        (as.map Attachment.view).filter Outline.isLeaf ∧
      (Attachment.collect as).attributes.map Attribute.view =
        (as.map Attachment.view).filter (!·.isLeaf) := by
    induction as with
    | nil => exact ⟨rfl, rfl⟩
    | cons a as ih =>
      cases a with
      | doc text => exact ⟨congrArg (List.cons _) ih.1, ih.2⟩
      | attr a => exact ⟨ih.1, congrArg (List.cons _) ih.2⟩
  rw [Attributes.view, Outline.attributes, rowOf, rowOf, parts.1, parts.2]

theorem Attachment.isEmpty_collect (as : List Attachment) :
    (Attachment.collect as).isEmpty = as.isEmpty := by
  cases as with
  | nil => rfl
  | cons a as => cases a <;> simp [Attachment.collect, Attributes.isEmpty]

/-- Doc-strings and attributes are told apart in the same way wherever they are stored. -/
theorem Attachment.collect_relocate (m : Mark) (as : List Attachment) :
    Attachment.collect (relocate m as) = relocate m (Attachment.collect as) := by
  have parts : (Attachment.collect (relocate m as)).docs = (Attachment.collect as).docs ∧
      (Attachment.collect (relocate m as)).attributes = relocate m (Attachment.collect as).attributes := by
    induction as with
    | nil => exact ⟨rfl, rfl⟩
    | cons a as ih =>
      cases a with
      | doc text => exact ⟨congrArg (List.cons text) ih.1, ih.2⟩
      | attr a => exact ⟨ih.1, congrArg (List.cons (relocate m a)) ih.2⟩
  exact congr (congrArg Attributes.mk parts.1) parts.2

/-- Doc-strings take no room in the arena, so they can be listed before the attributes. -/
theorem Attachment.stores_collect {names : Interner} {a : Arena} {m m' : Mark}
    {as : List Attachment} (h : Stores names a m (as.map Attachment.view) ts m') :
    Stores names a m [(Attachment.collect as).view] [Outline.attributes ts] m' := by
  have parts : (∀ n, Stores names a n ((as.map Attachment.view).filter Outline.isLeaf)
        (ts.filter Outline.isLeaf) n) ∧
      Stores names a m ((as.map Attachment.view).filter (!·.isLeaf)) (ts.filter (!·.isLeaf)) m' := by
    induction as generalizing m ts with
    | nil =>
      cases h
      exact ⟨fun n => .nil n, .nil _⟩
    | cons b as ih =>
      cases b with
      | doc text =>
        obtain ⟨o, us, m₁, rfl, ho, hs⟩ := h.split
        cases ho with
        | token k hnil =>
          cases hnil
          exact ⟨fun n => .token _ ((ih hs).1 n), (ih hs).2⟩
      | attr value =>
        obtain ⟨o, us, m₁, rfl, ho, hs⟩ := h.split
        obtain ⟨os, e, hos⟩ := ho.unwrap
        cases e
        exact ⟨(ih hs).1, .node .attr hos (ih hs).2⟩
  rw [Attachment.collect_view]
  exact .node .attrs (.node .row (parts.1 m) (.node .row parts.2 (.nil _))) (.nil _)

theorem optionalArgs_agrees {ph : Phrase} (hph : ph.isSolid = true) {p q : Parse ExprId} [Forward p]
    [Forward q] [Dead p] (hp : Agrees w k ph (one ExprId.view) p q) :
    Agrees w (k + 1) (.args ph) (fun as => as.map ExprId.view) (optionalArgs p) (optionalArgs q) := by
  refine (Peeks.check (by decide)).choose ?_ ?_
  · intro d v s t al hk ho
    obtain _ | ⟨o, v⟩ := v
    · cases ho
    refine (bracketed_meet (k := k) (by rw [show o.tag = .lparen from ho]; rfl) rfl hph
      (fun al hk => hp al hk) al (Nat.lt_of_succ_lt_succ hk)).bind' ?_
    rintro a a' s₁ t₁ ⟨ha, -, u, c, v', ts, hv, hc, hD, -, b⟩
    exact .ok ⟨ha.map Bracketed.items fun _ _ => rfl, o :: (u ++ [c]), v', ts, by simp [hv], .args ho hc hD, b⟩
  · intro d v s t al _
    exact .ok ⟨fun _ _ => rfl, [], v, [], rfl, .noArgs, al.both⟩

include h

theorem attr_meet {a : Token} (ha : a.tag = .atSign) (al : Aligned w d (a :: v) s t)
    (hk : v.length < k) :
    Meet w s t never (Found w s t d (a :: v) .attr (one Attribute.view)) (attr r s) (attr r' t) := by
  refine al.both.advance_bind ha (fun e => by cases e) ?_
  intro s₁ t₁ b₁
  refine path_agrees.part b₁ hk ?_
  intro p p' u v₁ o s₂ t₂ hp hv hD b₂
  rw [hv, List.length_append] at hk
  refine (optionalArgs_agrees rfl (h.expr .none)).bindRow b₂ (by omega) ?_
  intro as as' u' v₂ us s₃ t₃ has hv₁ hD' b₃
  have hall : a :: v = a :: (u ++ u') ++ v₂ := by simp [hv, hv₁]
  refine b₃.spanFrom_bind al hall (List.cons_ne_nil _ _) (fun _ _ => rfl) fun sp sp' hsp => ?_
  have hattr := hp.map₃ has hsp Attribute.mk fun _ _ _ _ => rfl
  refine .ok ⟨hattr, a :: (u ++ u'), v₂, _, hall, .attr ha hD hD', ?_⟩
  exact b₃.wrap .attr

/-- A doc-string or an attribute; there the left run may stall, because line breaks come after it. -/
theorem attachment_item :
    Item w (k + 1) .attachment Attachment.view (fun _ => True) (fun o => o.isSome = true ∧ True)
      (attachment r) (attachment r') := by
  intro d v s t al hk
  refine al.both.current_bind ?_ ?_
  · rintro tok u rfl
    have hu : u.length < k := Nat.lt_of_succ_lt_succ hk
    have htag : tok.tag = tok.kind.tag := rfl
    unfold attachmentOf
    cases hkind : tok.kind with
    | docString text =>
      have hdoc : tok.tag = .docString := by rw [htag, hkind]; rfl
      refine al.both.advance_bind hdoc (fun e => by cases e) ?_
      intro s₁ t₁ b₁
      refine b₁.skip_bind ?_ fun s' hend => ⟨hend, rfl, trivial⟩
      intro u₁ v₁ s₂ t₂ hv hu₁ _ _ b₂
      refine .ok ⟨fun _ _ => rfl, tok :: u₁, v₁, [leaf tok.kind], by rw [hv]; rfl, .docAttachment hdoc hu₁, ?_⟩
      rw [hkind]
      exact b₂.token (.docString text)
    | atSign =>
      have hat : tok.tag = .atSign := by rw [htag, hkind]; rfl
      refine (attr_meet h hat al hu).within.bind ?_ fun _ _ h => h.elim
      rintro a a' s₁ t₁ ⟨ha, u₁, v₁, us, hv, hD, b₁⟩
      refine b₁.skip_bind ?_ fun s' hend => ⟨hend, rfl, trivial⟩
      intro u₂ v₂ s₂ t₂ hv₁ hu₂ _ _ b₂
      exact .ok ⟨ha.map Attachment.attr fun _ _ => rfl, u₁ ++ u₂, v₂, us,
        by rw [hv, hv₁, List.append_assoc], .attrAttachment hD hu₂, b₂⟩
    | _ => exact .ok ⟨al.both, trivial⟩
  · intro hv a a' ha ha'
    have edge : ∀ {r : Rules} {a : Token}, a.tag = .newline ∨ a.tag = .eof →
        attachmentOf r a = pure none := by
      rintro r ⟨kind, span, position⟩ h
      cases kind <;> first | rfl | (rcases h with h | h <;> cases h)
    rw [edge (ha ▸ w.left_tag), edge (ha' ▸ w.right_tag)]
    exact .ok ⟨al.both, trivial⟩

/-- What stands before a declaration or constructor.  The left run stalls only with something. -/
theorem attributes_meet (al : Aligned w d v s t) (hk : v.length < k + 1) :
    Meet w s t (fun a => a.isEmpty = false) (Found w s t d v .attrs (one Attributes.view))
      (attributes r s) (attributes r' t) := by
  refine (many_meet True rfl (attachment_item h) ?_ al hk).bind ?_ ?_
  · intro _ s' hend
    rw [Dead.attachment_of_isAtEnd hend]
    exact ⟨hend, rfl⟩
  · rintro as as' s₁ t₁ ⟨has, u, v', ts, hv, hD, -, -, b⟩
    have hattrs := has.map Attachment.collect Attachment.collect_relocate
    refine .ok ⟨hattrs, u, v', _, hv, .attrs hD, b.aligned, ?_, ?_⟩
    · exact ⟨b.left.names, b.left.arena, Attachment.stores_collect b.left.stores⟩
    · exact ⟨b.right.names, b.right.arena, Attachment.stores_collect b.right.stores⟩
  · rintro as s' ⟨has, -⟩ hend
    refine ⟨hend, ?_⟩
    show (Attachment.collect as).isEmpty = false
    rw [Attachment.isEmpty_collect]
    simpa using has

/-! ## Parts of declarations -/

theorem declParams_agrees :
    Agrees w (k + 1) (.star .paramSet) (fun ps => ps.map ParamSet.view) (declParams r)
      (declParams r') :=
  many_agrees rfl (optionally_item Peeks.startsDeclParams fun al hk _ => paramSet_agrees h al hk)

theorem constructorKind_agrees :
    Agrees w (k + 1) .constructorKind (one ConstructorKind.view) (constructorKind r)
      (constructorKind r') := by
  intro d v s t al hk
  refine al.both.accept_ite (by decide) ?_ ?_
  · intro c v₁ s₁ t₁ hv hc b₁
    subst hv
    refine (h.arrow .type).part b₁ (Nat.lt_of_succ_lt_succ hk) ?_
    intro type type' u v₂ o s₂ t₂ htype hv hD b₂
    refine .ok ⟨htype.map ConstructorKind.signature fun _ _ => rfl, c :: u, v₂, _,
    by rw [hv]; rfl, .signatureConstructor (.typing hc hD), ?_⟩
    exact b₂.wrap .signatureConstructor
  · intro s₁ t₁ b₁
    refine (optionalArgs_agrees rfl (h.arrow .type)).bind b₁ hk ?_
    intro as as' u v₂ us s₂ t₂ has hv hD b₂
    refine .ok ⟨has.map ConstructorKind.function fun _ _ => rfl, u, v₂, _, hv, .functionConstructor hD,
      ?_⟩
    exact b₂.wrap .functionConstructor

theorem constructor_agrees :
    Agrees w (k + 1) .constructor (one Constructor.view) (constructor r) (constructor r') := by
  intro d v s t al hk
  refine al.both.start_bind fun start start' hstart => ?_
  refine (attributes_meet h al hk).bind ?_ fun _ s' _ hend => Dead.stalled hend
  rintro attrs attrs' s₁ t₁ ⟨hattrs, u, v₁, us, hv, hD, b₁⟩
  obtain ⟨o, rfl⟩ := List.length_eq_one_iff.1 b₁.left.stores.length_eq
  rw [hv, List.length_append] at hk
  refine (ident_agrees (k := k + 1)).part b₁ (by omega) ?_
  intro name name' u₁ v₂ o₁ s₂ t₂ hname hv₁ hD₁ b₂
  rw [hv₁, List.length_append] at hk
  refine (constructorKind_agrees h).part b₂ (by omega) ?_
  intro kind kind' u₂ v₃ o₂ s₃ t₃ hkind hv₂ hD₂ b₃
  have hall : v = u ++ u₁ ++ u₂ ++ v₃ := by simp [hv, hv₁, hv₂]
  have hne : u ++ u₁ ++ u₂ ≠ [] := by simp [hD₁.ne_nil rfl]
  cases hstart (by rw [hall]; exact List.append_ne_nil_of_left_ne_nil hne v₃)
  refine b₃.spanFrom_bind al hall hne (fun _ _ => rfl) fun sp sp' hsp => ?_
  have hconstructor : Same w (Constructor.mk attrs name kind sp) ⟨attrs', name', kind', sp'⟩ := by
    intro base hb
    rw [hattrs base hb, hname base hb, hkind base hb, hsp base hb]
    rfl
  refine .ok ⟨hconstructor, u ++ u₁ ++ u₂, v₃, _, hall, .constructor hD hD₁ hD₂, ?_⟩
  exact b₃.wrap .constructor

/-! ## The forms of declarations -/

omit [r.Forward] [r'.Forward] [r.Dead] h in
theorem usingDecl_meet {m : Token} (hm : m.tag = .kwUsing) (al : Aligned w d (m :: v) s t) :
    Meet w s t never (Found w s t d (m :: v) .declKind (one DeclKind.view)) (usingDecl s)
      (usingDecl t) := by
  refine al.both.advance_bind hm (fun e => by cases e) ?_
  intro s₁ t₁ b₁
  refine (path_agrees (k := v.length + 1)).part b₁ (Nat.lt_succ_self _) ?_
  intro p p' u v₁ o s₂ t₂ hp hv hD b₂
  refine .ok ⟨hp.map DeclKind.using fun _ _ => rfl, m :: u, v₁, _, by rw [hv]; rfl, .usingDecl hm hD, ?_⟩
  exact b₂.wrap .using

omit [r.Dead] in
theorem commandArgs_agrees :
    Agrees w k .lineArgs (fun as => as.map ExprId.view) (commandArgs r) (commandArgs r') := by
  intro d v s t al hk
  refine (h.expr .none).part al.both hk ?_
  intro e e' u v₁ o s₁ t₁ he hv hD b₁
  rw [hv, List.length_append] at hk
  have more : Item w (k + 1) .moreArg ExprId.view (fun _ => True) never
      (optionally (accept .comma) r.value) (optionally (accept .comma) r'.value) :=
    accept_item (by decide) rfl (h.expr .none) .moreArg
  refine (many_agrees rfl more).bind b₁ (by omega) ?_
  intro as as' u₁ v₂ us s₂ t₂ has hv₁ hD₁ b₂
  exact .ok ⟨he.cons has, u ++ u₁, v₂, _, by simp [hv, hv₁], .lineArgs hD hD₁, b₂⟩

omit [r.Dead] in
theorem lineArgs_agrees :
    Agrees w k .lineArgs (fun as => as.map ExprId.view) (lineArgs r) (lineArgs r') := by
  refine Peeks.endsLine.choose ?_ (commandArgs_agrees h)
  intro d v s t al _ _
  exact .ok ⟨fun _ _ => rfl, [], v, [], rfl, .noLineArgs, al.both⟩

omit [r.Dead] in
theorem commandDecl_meet {m : Token} (hm : m.tag = .hash) (al : Aligned w d (m :: v) s t)
    (hk : v.length < k) :
    Meet w s t never (Found w s t d (m :: v) .declKind (one DeclKind.view)) (commandDecl r s)
      (commandDecl r' t) := by
  refine al.both.advance_bind hm (fun e => by cases e) ?_
  intro s₁ t₁ b₁
  refine path_agrees.part b₁ hk ?_
  intro p p' u v₁ o s₂ t₂ hp hv hD b₂
  rw [hv, List.length_append] at hk
  refine (lineArgs_agrees h).bindRow b₂ (by omega) ?_
  intro as as' u₁ v₂ us s₃ t₃ has hv₁ hD₁ b₃
  refine .ok ⟨hp.map₂ has DeclKind.command fun _ _ _ => rfl, m :: (u ++ u₁), v₂, _,
    by simp [hv, hv₁], .command hm hD hD₁, ?_⟩
  exact b₃.wrap .command

theorem inductiveDecl_meet {m : Token} (hm : m.tag = .kwInductive) (al : Aligned w d (m :: v) s t)
    (hk : v.length < k) :
    Meet w s t never (Found w s t d (m :: v) .declKind (one DeclKind.view)) (inductiveDecl r s)
      (inductiveDecl r' t) := by
  refine al.both.advance_bind hm (fun e => by cases e) ?_
  intro s₁ t₁ b₁
  refine path_agrees.part b₁ hk ?_
  intro p p' u v₁ o s₂ t₂ hp hv hD b₂
  rw [hv, List.length_append] at hk
  refine (declParams_agrees h).bindRow b₂ (by omega) ?_
  intro ps ps' u₁ v₂ us₁ s₃ t₃ hps hv₁ hD₁ b₃
  rw [hv₁, List.length_append] at hk
  refine (optionalType_agrees h).part b₃ (by omega) ?_
  intro type type' u₂ v₃ o₂ s₄ t₄ htype hv₂ hD₂ b₄
  rw [hv₂, List.length_append] at hk
  have item := (constructor_agrees h).within .constructor
  have constructors : Meet w s₄ t₄ never _
      (braced (within .constructor (constructor r)) eatSeparators noObjection s₄)
      (braced (within .constructor (constructor r')) eatSeparators noObjection t₄) :=
    braced_meet (k := k + 1) rfl eatSeparators_meet (fun al hk => item al hk)
      (fun _ b => noObjection_meet b) b₄.aligned (by omega)
  refine (constructors.base b₄.left.arena b₄.right.arena).bind' ?_
  rintro cs cs' s₅ t₅ ⟨hcs, o, v₄, separated, hv₃, ho, -, u₃, c, v₅, ts, hv₄, hc, hD₃, -, c₅⟩
  have hkind : Same w (DeclKind.inductiveType p ps type cs.1) (.inductiveType p' ps' type' cs'.1) := by
    intro base hb
    rw [hp base hb, hps base hb, htype base hb, hcs base hb]
    rfl
  refine .ok ⟨hkind, m :: (u ++ u₁ ++ u₂ ++ o :: (u₃ ++ [c])), v₅, _, by simp [hv, hv₁, hv₂, hv₃, hv₄],
    .inductiveDecl hm ho hc hD hD₁ hD₂ hD₃, ?_⟩
  exact (b₄.trans (c₅.wrap .row)).wrap .inductiveType

theorem signatureDecl_agrees :
    Agrees w (k + 1) .declKind (one DeclKind.view) (signatureDecl r) (signatureDecl r') := by
  intro d v s t al hk
  refine path_agrees.part al.both hk ?_
  intro p p' u v₁ o s₁ t₁ hp hv hD b₁
  have hne := List.length_pos_iff.2 (hD.ne_nil rfl)
  rw [hv, List.length_append] at hk
  refine (declParams_agrees h).bindRow b₁ (by omega) ?_
  intro ps ps' u₁ v₂ us₁ s₂ t₂ hps hv₁ hD₁ b₂
  rw [hv₁, List.length_append] at hk
  refine (optionalType_agrees h).part b₂ (by omega) ?_
  intro type type' u₂ v₃ o₂ s₃ t₃ htype hv₂ hD₂ b₃
  rw [hv₂, List.length_append] at hk
  have item := optionally_item (Peeks.check (w := w) (show Tag.isInner .lbrace by decide))
    fun al hk _ => h.block al hk
  refine item.opt.part b₃ (by omega) ?_
  intro body body' u₃ v₄ o₃ s₄ t₄ hbody hv₃ hD₃ b₄
  have hkind : Same w (DeclKind.signature p ps type body) (.signature p' ps' type' body') := by
    intro base hb
    rw [hp base hb, hps base hb, htype base hb, hbody base hb]
    rfl
  refine .ok ⟨hkind, u ++ u₁ ++ u₂ ++ u₃, v₄, _, by simp [hv, hv₁, hv₂, hv₃],
    .signatureDecl hD hD₁ hD₂ hD₃, ?_⟩
  exact b₄.wrap .signature

omit [r.Dead] in
theorem clauseDecl_agrees :
    Agrees w (k + 1) .declKind (one DeclKind.view) (clauseDecl r) (clauseDecl r') := by
  intro d v s t al hk
  refine path_agrees.part al.both hk ?_
  intro p p' u v₁ o s₁ t₁ hp hv hD b₁
  have hne := List.length_pos_iff.2 (hD.ne_nil rfl)
  rw [hv, List.length_append] at hk
  have item := before_item (w := w) (k := k) (show Tag.isInner .eq by decide) atom_agrees
  refine ((many_row rfl item b₁.aligned (by omega)).base b₁.left.arena b₁.right.arena).bind' ?_
  rintro as as' s₂ t₂ ⟨has, u₁, v₂, us, hv₁, hD₁, -, hstop, c₂⟩
  have b₂ := b₁.trans (c₂.wrap .row)
  obtain _ | ⟨e, v₃⟩ := v₂
  · cases hstop
  refine b₂.advance_bind hstop (fun e => by cases e) ?_
  intro s₃ t₃ b₃
  rw [hv₁, List.length_append, List.length_cons] at hk
  have value := optionally_item Peeks.continuesLine fun al hk _ => (h.expr .none).within .clauseValue al hk
  refine value.opt.part b₃ (by omega) ?_
  intro value value' u₂ v₄ o₂ s₄ t₄ hvalue hv₂ hD₂ b₄
  have hkind := hp.map₃ has hvalue DeclKind.clause fun _ _ _ _ => rfl
  refine .ok ⟨hkind, u ++ u₁ ++ e :: u₂, v₄, _, by simp [hv, hv₁, hv₂], .clauseDecl hstop hD hD₁ hD₂, ?_⟩
  exact b₄.wrap .clause

theorem namedDecl_agrees :
    Agrees w (k + 1) .declKind (one DeclKind.view) (namedDecl r) (namedDecl r') :=
  Peeks.isClauseLine.choose (fun al hk _ => clauseDecl_agrees h al hk) (signatureDecl_agrees h)

theorem declKind_agrees :
    Agrees w (k + 1) .declKind (one DeclKind.view) (declKind r) (declKind r') := by
  intro d v s t al hk
  refine al.both.currentTag_bind ?_ ?_
  · rintro m u rfl
    have hu : u.length < k := Nat.lt_of_succ_lt_succ hk
    cases hm : m.tag with
    | kwUsing => exact usingDecl_meet hm al
    | hash => exact commandDecl_meet h hm al hu
    | kwInductive => exact (inductiveDecl_meet h hm al hu).within
    | ident => exact namedDecl_agrees h al hk
    | symbol => exact namedDecl_agrees h al hk
    | _ => exact al.both.failWanting
  · rintro - a a' (rfl | rfl) (rfl | rfl) <;> exact al.both.failWanting

/-! ## Declarations -/

omit [r.Forward] [r'.Forward] [r.Dead] h in
/-- Both runs take the same visibility, or none. -/
theorem visibility_meet (b : Both w s t d v s₁ t₁ x y ts) :
    Meet w s t never
      (fun o o' s' t' => o = o' ∧ (o = none ∧ Both w s t d v s' t' x y ts ∨
        ∃ vis tok v', o = some vis ∧ tok.kind.visibility? = some vis ∧ v = tok :: v' ∧
          Both w s t d v' s' t' x y ts))
      (visibility s₁) (visibility t₁) := by
  refine b.current_bind ?_ ?_
  · rintro tok u rfl
    unfold visibilityOf
    cases hvis : tok.kind.visibility? with
    | none => exact .ok ⟨rfl, .inl ⟨rfl, b⟩⟩
    | some vis =>
      have hplain := TokenKind.isPlain_of_visibility? hvis
      refine b.advance_bind rfl (Tag.ne_eof_of_isPlain hplain) ?_
      intro s₂ t₂ b₂
      rw [Tag.depthFrom_of_isPlain hplain] at b₂
      exact .ok ⟨rfl, .inr ⟨vis, tok, u, rfl, hvis, rfl, b₂⟩⟩
  · intro hv a a' ha ha'
    have edge : ∀ {a : Token}, a.tag = .newline ∨ a.tag = .eof → visibilityOf a = pure none := by
      rintro ⟨kind, span, position⟩ h
      cases kind <;> first | rfl | (rcases h with h | h <;> cases h)
    rw [edge (ha ▸ w.left_tag), edge (ha' ▸ w.right_tag)]
    exact .ok ⟨rfl, .inl ⟨rfl, b⟩⟩

/-- What follows doc-strings and attributes. -/
theorem attributed_meet {u v₁ : List Token} {attrs attrs' : Attributes} {o : Outline TokenKind}
    {start start' : Token} (al : Aligned w d v s t) (hv : v = u ++ v₁) (hD : Derives .attrs u [o])
    (b : Both w s t d v₁ s₁ t₁ [attrs.view] [attrs'.view] [o]) (hattrs : Same w attrs attrs')
    (hstart : v ≠ [] → start' = start) (hk : v₁.length < k + 1) :
    Meet w s t never (Found w s t d v .decl (one Decl.view)) (attributed r start.span attrs s₁)
      (attributed r' start'.span attrs' t₁) := by
  have made : ∀ {vis kind kind' sp sp'}, Same w kind kind' → Same w sp sp' →
      Same w (Decl.mk attrs vis kind sp) ⟨attrs', vis, kind', sp'⟩ := by
    intro vis kind kind' sp sp' hkind hsp base hb
    rw [hattrs base hb, hkind base hb, hsp base hb]
    rfl
  refine (visibility_meet b).bind' ?_
  rintro vis vis' s₂ t₂ ⟨rfl, ⟨rfl, b₁⟩ | ⟨vis, tok, v₂, rfl, hvis, rfl, b₁⟩⟩
  · refine (declKind_agrees h).part b₁ hk ?_
    intro kind kind' u₁ v₃ o₁ s₃ t₃ hkind hv₁ hD₁ b₂
    have hall : v = u ++ u₁ ++ v₃ := by simp [hv, hv₁]
    have hne : u ++ u₁ ≠ [] := by simp [hD₁.ne_nil rfl]
    cases hstart (by rw [hall]; exact List.append_ne_nil_of_left_ne_nil hne v₃)
    refine b₂.spanFrom_bind al hall hne (fun _ _ => rfl) fun sp sp' hsp => ?_
    refine .ok ⟨made hkind hsp, u ++ u₁, v₃, _, hall, .decl hD hD₁, ?_⟩
    exact b₂.wrap (.decl none)
  · refine (declKind_agrees h).part b₁ (Nat.lt_of_succ_lt hk) ?_
    intro kind kind' u₁ v₃ o₁ s₃ t₃ hkind hv₁ hD₁ b₂
    have hall : v = u ++ tok :: u₁ ++ v₃ := by simp [hv, hv₁]
    have hne : u ++ tok :: u₁ ≠ [] := by simp
    cases hstart (by rw [hall]; exact List.append_ne_nil_of_left_ne_nil hne v₃)
    refine b₂.spanFrom_bind al hall hne (fun _ _ => rfl) fun sp sp' hsp => ?_
    refine .ok ⟨made hkind hsp, u ++ tok :: u₁, v₃, _, hall, .visibleDecl hvis hD hD₁, ?_⟩
    exact b₂.wrap (.decl (some vis))

omit [r.Forward] [r'.Forward] [r.Dead] h in
/-- Whether there are doc-strings or attributes can be seen from the outlines. -/
theorem isEmpty_of_stores {attrs attrs' : Attributes} {o : Outline TokenKind}
    (b : Both w s t d v s₁ t₁ [attrs.view] [attrs'.view] [o]) : attrs.isEmpty = attrs'.isEmpty := by
  have lengths : ∀ {names : Interner} {a : Arena} {m m' : Mark} {attrs : Attributes},
      Stores names a m [attrs.view] [o] m' →
      ∃ docs values : List (Outline TokenKind), o = node .attrs [node .row docs, node .row values] ∧
        docs.length = attrs.docs.length ∧ values.length = attrs.attributes.length := by
    intro names a m m' attrs hs
    obtain ⟨us, ho, hparts⟩ := hs.unwrap
    cases ho
    obtain ⟨_, _, _, rfl, hdocs, hmore⟩ := hparts.split
    obtain ⟨_, _, _, rfl, hvalues, hnil⟩ := hmore.split
    obtain ⟨docs, ho, hds⟩ := hdocs.unwrap
    cases ho
    obtain ⟨values, ho, hvs⟩ := hvalues.unwrap
    cases ho
    cases hnil
    exact ⟨docs, values, rfl, by simpa using hds.length_eq, by simpa using hvs.length_eq⟩
  obtain ⟨docs, values, rfl, h₁, h₂⟩ := lengths b.left.stores
  obtain ⟨docs', values', e, h₃, h₄⟩ := lengths b.right.stores
  cases e
  have hempty : ∀ {α β : Type} {l : List α} {m : List β}, l.length = m.length → l.isEmpty = m.isEmpty := by
    intro α β l m h
    cases l <;> cases m <;> first | rfl | cases h
  rw [Attributes.isEmpty, Attributes.isEmpty, hempty (h₁.symm.trans h₃), hempty (h₂.symm.trans h₄)]

omit [r.Forward] [r'.Forward] [r.Dead] h in
/-- No declaration begins with a line break. -/
theorem attributed_of_newline (start : Span) (attrs : Attributes) {s : State}
    (hs : headTag s.cursor.rest = .newline) :
    ∃ e s', attributed r start attrs s = .error (.error e) s' ∧ Moved 0 s s' := by
  have hvis : visibility s = .ok none s := by
    have htag : s.cursor.current.tag = .newline := by
      rw [Cursor.current_eq]
      cases hr : s.cursor.rest with
      | nil => rw [hr] at hs; cases hs
      | cons tok u => rw [hr] at hs; exact hs
    show visibilityOf s.cursor.current s = _
    generalize s.cursor.current = tok at htag
    obtain ⟨kind, span, position⟩ := tok
    cases kind <;> first | rfl | cases htag
  have htag : s.cursor.currentTag = .newline := by rw [Cursor.currentTag_eq, hs]
  rw [attributed, bind_of_ok hvis]
  have hkind : ∃ e s', declKind r s = .error (.error e) s' ∧ Moved 0 s s' := by
    show ∃ e s', declKindOf r s.cursor.currentTag s = .error (.error e) s' ∧ Moved 0 s s'
    rw [htag]
    exact ⟨_, _, rfl, rfl, rfl, rfl, rfl⟩
  obtain ⟨e, s', hk, ms⟩ := hkind
  exact ⟨e, s', bind_of_error hk, ms⟩

theorem decl_agrees : Agrees w (k + 1) .decl (one Decl.view) (decl r) (decl r') := by
  intro d v s t al hk
  refine al.both.start_bind fun start start' hstart => ?_
  refine (attributes_meet h al hk).bind ?_ ?_
  · rintro attrs attrs' s₁ t₁ ⟨hattrs, u, v₁, us, hv, hD, b⟩
    obtain ⟨o, rfl⟩ := List.length_eq_one_iff.1 b.left.stores.length_eq
    rw [hv, List.length_append] at hk
    show Meet w s t never _ ((if isDangling attrs s₁.cursor = true then _ else _ : Parse Decl) s₁)
      ((if isDangling attrs' t₁.cursor = true then _ else _ : Parse Decl) t₁)
    have hempty := isEmpty_of_stores b
    by_cases hw : v₁ = [] ∧ w.IsEnded ∧ attrs.isEmpty = false
    · -- the left run is at its end, where nothing is left to attach them to
      obtain ⟨rfl, hw, hsome⟩ := hw
      have hend : s₁.cursor.isAtEnd = true := by
        rw [isAtEnd_eq, b.aligned.left, List.nil_append, hw.1]
        rfl
      have hmore : headTag t₁.cursor.rest = .newline := by rw [b.aligned.right]; exact hw.2
      have hgoes : t₁.cursor.isAtEnd = false := by
        rw [isAtEnd_eq, hmore]
        rfl
      obtain ⟨e, t₂, ht, mt⟩ := attributed_of_newline (r := r') start'.span attrs' hmore
      have hleft : isDangling attrs s₁.cursor = true := by rw [isDangling, hsome, hend]; rfl
      have hright : isDangling attrs' t₁.cursor = false := by rw [isDangling, hgoes, Bool.and_false]
      rw [hleft, hright, if_pos rfl, if_neg Bool.false_ne_true, ht]
      exact b.error (.refl s₁) mt
    · have hsame : isDangling attrs s₁.cursor = isDangling attrs' t₁.cursor := by
        rw [isDangling, isDangling, ← hempty, isAtEnd_eq, isAtEnd_eq]
        obtain ⟨tok, u₁, rfl, hs, ht⟩ | ⟨rfl, hs, ht⟩ := b.aligned.headTag_eq
        · rw [hs, ht]
        · rw [hs, ht]
          obtain ⟨hl, hr⟩ | ⟨hl, hr⟩ | hended := w.cases_tails
          · rw [hl, hr]
          · rw [show headTag w.left = .newline from hl, show headTag w.right = .newline from hr]
          · cases hattrs : attrs.isEmpty with
            | true => rfl
            | false => exact absurd ⟨rfl, hended, hattrs⟩ hw
      rw [hsame]
      split
      · exact b.fail
      · exact attributed_meet h al hv hD b hattrs hstart (by omega)
  · intro attrs s' hsome hend
    show Stalled never ((if isDangling attrs s'.cursor = true then _ else _ : Parse Decl) s')
    rw [isDangling, hsome, hend]
    trivial

/-! ## Ends of lines -/

omit h in
/-- A line ends at a line break or at the end. -/
theorem lineEnd_eq (s : State) :
    ∃ s', Moved 0 s s' ∧ lineEnd s =
      if headTag s.cursor.rest = .newline ∨ headTag s.cursor.rest = .eof then .ok () s'
      else fail .expectedLineBreak s' := by
  obtain ⟨s₁, hs, ms⟩ := check_eq .newline s
  have hrest : s₁.cursor.rest = s.cursor.rest := ms.rest
  by_cases hn : headTag s.cursor.rest = .newline
  · refine ⟨s₁, ms, ?_⟩
    rw [if_pos (.inl hn), lineEnd, bind_of_ok hs, hn]
    rfl
  · obtain ⟨s₂, hs₁, ms₁⟩ := check_eq .eof s₁
    refine ⟨s₂, ms.trans ms₁, ?_⟩
    rw [lineEnd, bind_of_ok hs, beq_false_of_ne hn]
    show (check .eof >>= _) s₁ = _
    rw [hrest] at hs₁
    by_cases he : headTag s.cursor.rest = .eof
    · rw [he] at hs₁
      rw [if_pos (Or.inr he), bind_of_ok hs₁]
      rfl
    · rw [beq_false_of_ne he] at hs₁
      rw [if_neg fun h => Or.elim h hn he, bind_of_ok hs₁]
      rfl

omit [r.Forward] [r'.Forward] [r.Dead] h in
theorem lineEnd_meet (b : Both w s t d v s₁ t₁ x y ts) :
    Meet w s t never
      (fun _ _ s' t' => (headTag v = .newline ∨ headTag v = .eof) ∧ Both w s t d v s' t' x y ts)
      (lineEnd s₁) (lineEnd t₁) := by
  obtain ⟨s₂, ms, hs⟩ := lineEnd_eq s₁
  obtain ⟨t₂, mt, ht⟩ := lineEnd_eq t₁
  have b₁ := b.stay ms mt
  rw [hs, ht]
  obtain ⟨tok, u, rfl, hst, htt⟩ | ⟨rfl, hst, htt⟩ := b.aligned.headTag_eq
  · rw [hst, htt]
    by_cases hend : tok.tag = .newline ∨ tok.tag = .eof
    · rw [if_pos hend, if_pos hend]
      exact .ok ⟨hend, b₁⟩
    · rw [if_neg hend, if_neg hend]
      exact b₁.fail
  · rw [hst, htt, if_pos w.left_tag, if_pos w.right_tag]
    exact .ok ⟨.inr rfl, b₁⟩

/-- A declaration with the end of its line. -/
theorem declLine_agrees :
    ∀ {d v s t}, Aligned w d v s t → v.length < k + 1 →
      Meet w s t never
        (fun a a' s' t' => Same w a a' ∧ ∃ u v' o, v = u ++ v' ∧ Derives .decl u [o] ∧
          (headTag v' = .newline ∨ headTag v' = .eof) ∧
          Both w s t d v' s' t' [a.view] [a'.view] [o])
        (declLine r s) (declLine r' t) := by
  intro d v s t al hk
  refine (decl_agrees h).part al.both hk ?_
  intro a a' u v₁ o s₁ t₁ ha hv hD b
  refine (lineEnd_meet b).bind' ?_
  rintro - - s₂ t₂ ⟨hend, b₁⟩
  exact .ok ⟨ha, u, v₁, o, hv, hD, hend, b₁⟩

end SolSyntax.Grammar
