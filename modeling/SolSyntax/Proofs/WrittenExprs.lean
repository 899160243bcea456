import SolSyntax.Proofs.Taking

/-!
# How patterns and expressions are written

Each production of patterns, parameters and expressions takes the tokens of one part, and puts on the
node it makes the span of these tokens.

Principal results: `path_reads`, `pattern_reads`, `paramSet_reads`, `rules_read` — the readers of paths,
patterns, parameter lists, expressions, types and blocks.
-/

namespace SolSyntax.Grammar

open Parse

variable {ts : TokenList} {s t u : State} {row : List Sign}

/-- The current token covers its own place, if a step takes it. -/
theorem Takes.covers_first (h : Takes ts s t row) (hlt : s.cursor.position < t.cursor.position) :
    ts.Covers s.cursor.position (s.cursor.position + 1) s.cursor.current.span :=
  h.before.covers_current (Nat.lt_of_lt_of_le hlt h.after.le)

/-- Taking the current token, whose tag is known. -/
theorem advance_current {tok : Token} {tag : Tag} (hs : Inside ts s) (h : advance s = .ok tok t)
    (htag : s.cursor.currentTag = tag) (he : tag ≠ .eof) : TakesToken ts s t [tag] tok.span :=
  advance_takes [tag] hs h (by simp [htag]) (htag ▸ he)

theorem current_covers {tok : Token} {tag : Tag} (hs : Inside ts s) (h : advance s = .ok tok t)
    (htag : s.cursor.currentTag = tag) (he : tag ≠ .eof) :
    TakesToken ts s t [tag] s.cursor.current.span := by
  have taken := advance_current hs h htag he
  have hc := hs.covers_current (hs.lt_size (htag ▸ he))
  have hpos : t.cursor.position = s.cursor.position + 1 := by
    have := taken.takes.written
    generalize s.cursor.position = i, t.cursor.position = j at this
    cases this with
    | token _ hnil =>
      cases hnil
      rfl
  exact ⟨taken.takes, hpos ▸ hc⟩

/-! ## Paths -/

theorem covers_push (hts : ts.InOrder) {a : Arena} {others : List Ident} {i j k : Nat} {p : Path}
    (h : Written ts a (others.flatMap fun i => [.token [.dot], .part (.ident i)]) k j)
    (hp : ts.Covers i k p.span) : ts.Covers i j (others.foldl Path.push p).span := by
  induction others generalizing p k with
  | nil =>
    cases h
    exact hp
  | cons x others ih =>
    cases h with
    | token _ h =>
      cases h with
      | part _ _ hc h =>
        have hlt := hp.lt
        exact ih h (hp.merge hts hc (by omega) (by have := hc.lt; omega))

/-- A point and an identifier, if the point belongs to a path. -/
theorem segment_reads : Reads ts (optionally (look isPathDot) segment)
    fun o => o.toList.flatMap fun i => [.token [.dot], .part (.ident i)] := by
  intro s o t hs h
  unfold optionally segment at h
  obtain ⟨c, s₁, h₁, h⟩ := bind_eq_ok.1 h
  cases h₁
  split at h
  · rename_i hdot
    have htag : s.cursor.currentTag = .dot := by
      simp only [isPathDot, Bool.and_eq_true] at hdot
      exact eq_of_beq hdot.1.1.1
    simp only [bind_eq_ok] at h
    obtain ⟨i, s₂, ⟨tok, s₃, h₃, h₂⟩, h⟩ := h
    cases h
    have dot := advance_current hs h₃ htag (by decide)
    simpa using dot.takes.trans (expectIdent_takes dot.takes.after h₂)
  · cases h
    exact .refl hs

theorem path_reads (hts : ts.InOrder) : Reads ts path fun p => [.part (.path p)] := by
  intro s p t hs h
  unfold path at h
  simp only [bind_eq_ok] at h
  obtain ⟨first, s₁, h₁, others, s₂, h₂, h⟩ := h
  cases h
  have head := expectIdent_takes hs h₁
  have tail := segment_reads.many head.after h₂
  have hsigns : (Path.ofIdents first others).signs =
      [.part (.ident first)] ++ others.flatMap fun i => [.token [.dot], .part (.ident i)] := by
    have := Path.segments_ofIdents first others
    simp only [Path.segments, List.cons.injEq] at this
    rw [Path.signs, this.1, this.2]
    rfl
  refine (head.trans tail).part (hsigns ▸ .path _) ?_
  exact covers_push hts tail.written (head.covers (.refl _))

/-! ## Literals and identifiers -/

theorem literal_tag {value : Literal} {c : Cursor} (h : c.current.kind.literal? = some value) :
    c.currentTag = value.tokenKind.tag := by
  rw [currentTag_eq_tag, Token.tag, ← TokenKind.tokenKind_literal? h]

theorem literal_ne_eof (value : Literal) : value.tokenKind.tag ≠ .eof := by
  cases value <;> intro h <;> cases h

/-- The tag of a token whose kind is known. -/
theorem currentTag_of_kind {c : Cursor} {kind : TokenKind} (h : c.current.kind = kind) :
    c.currentTag = kind.tag := by
  rw [currentTag_eq_tag, Token.tag, h]

/-! ## Patterns -/

section Patterns

variable (hts : ts.InOrder)
include hts

theorem patternPath_reads : Reads ts patternPath fun id => [.part (.pattern id)] := by
  intro s id t hs h
  unfold patternPath at h
  obtain ⟨p, s₁, h₁, h⟩ := bind_eq_ok.1 h
  have taken := path_reads hts hs h₁
  exact taken.newPattern h rfl (taken.covers (.refl _))

variable {q : Parse PatternId}

theorem patternGroup_takes (hq : Reads ts q fun id => [.part (.pattern id)]) {id : PatternId}
    (hs : Inside ts s) (htag : s.cursor.currentTag = .lparen) (h : patternGroup q s = .ok id t) :
    Takes ts s t [.part (.pattern id)] := by
  unfold patternGroup at h
  simp only [bind_eq_ok] at h
  obtain ⟨o, s₁, h₁, _, s₂, h₂, inner, s₃, h₃, _, s₄, h₄, closing, s₅, h₅, h⟩ := h
  have first := advance_current hs h₁ htag (by decide)
  have gap := skipNewlines_takes first.takes.after h₂
  have pattern := hq gap.after h₃
  have gap' := skipNewlines_takes pattern.after h₄
  have last := expectClosing_takes gap'.after h₅ (by decide)
  have inside := gap.trans (pattern.trans gap')
  refine (first.takes.trans (inside.trans last.takes)).newPattern h rfl ?_
  exact first.covers.merge hts last.covers (Nat.le_trans first.takes.le inside.le)
    (Nat.le_trans inside.le last.takes.le)

theorem atomOf_takes (hq : Reads ts q fun id => [.part (.pattern id)]) {token : Token}
    {id : PatternId} (hs : Inside ts s) (htoken : token = s.cursor.current)
    (h : atomOf q token s = .ok id t) : Takes ts s t [.part (.pattern id)] := by
  have kind_eq : ∀ {kind}, token.kind = kind → s.cursor.currentTag = kind.tag :=
    fun hkind => currentTag_of_kind (htoken ▸ hkind)
  generalize hp : atomOf q token = p at h
  unfold atomOf at hp
  split at hp
  · rename_i value hvalue
    subst hp
    obtain ⟨tok, s₁, h₁, h⟩ := bind_eq_ok.1 h
    have taken := current_covers hs h₁ (literal_tag (htoken ▸ hvalue)) (literal_ne_eof value)
    exact taken.takes.newPattern h rfl (htoken ▸ taken.covers)
  · split at hp <;> subst hp
    · exact patternPath_reads hts hs h
    · exact patternPath_reads hts hs h
    · rename_i hkind
      obtain ⟨tok, s₁, h₁, h⟩ := bind_eq_ok.1 h
      have taken := current_covers hs h₁ (kind_eq hkind) (fun e => by cases e)
      exact taken.takes.newPattern h rfl (htoken ▸ taken.covers)
    · rename_i hkind
      exact patternGroup_takes hts hq hs (kind_eq hkind) h
    · cases h

theorem atomWith_reads (hq : Reads ts q fun id => [.part (.pattern id)]) :
    Reads ts (atomWith q) fun id => [.part (.pattern id)] := by
  intro s id t hs h
  unfold atomWith at h
  obtain ⟨token, s₁, h₁, h⟩ := bind_eq_ok.1 h
  cases h₁
  exact atomOf_takes hts hq hs rfl h

omit hts in
/-- A row of atoms, each of which a question lets begin. -/
theorem atoms_read {test : Parse Bool} (hq : Reads ts q fun id => [.part (.pattern id)])
    (htest : ∀ ⦃s c t⦄, test s = .ok c t → Moved 0 s t) :
    Reads ts (many (optionally test q)) fun ids => ids.map fun id => .part (.pattern id) := by
  intro s ids t hs h
  show Takes ts s t (ids.map fun id => .part (.pattern id))
  rw [List.map_eq_flatMap]
  exact (hq.optionally htest).many hs h

theorem patternApplication_reads (hq : Reads ts q fun id => [.part (.pattern id)]) :
    Reads ts (patternApplication q) fun id => [.part (.pattern id)] := by
  intro s id t hs h
  unfold patternApplication at h
  simp only [bind_eq_ok] at h
  obtain ⟨p, s₁, h₁, args, s₂, h₂, span, s₃, h₃, h⟩ := h
  have head := path_reads hts hs h₁
  have tail := atoms_read (atomWith_reads hts hq) (fun _ _ _ h => (checkSet_ok h).1) head.after h₂
  have whole := head.trans tail
  obtain ⟨rfl, hspan⟩ := whole.covers_spanFrom hts (head.covers (.refl _)) tail.le h₃
  exact whole.newPattern h rfl hspan

theorem patternWith_reads (hq : Reads ts q fun id => [.part (.pattern id)]) :
    Reads ts (patternWith q) fun id => [.part (.pattern id)] := by
  intro s id t hs h
  unfold patternWith at h
  obtain ⟨c, s₁, h₁, h⟩ := bind_eq_ok.1 h
  have m := (checkSet_ok h₁).1
  have asked := Takes.of_moved hs m
  split at h
  · exact (patternApplication_reads hts hq asked.after h).start m
  · exact (atomWith_reads hts hq asked.after h).start m

theorem patternAt_takes (n : Nat) : Reads ts (patternAt n) fun id => [.part (.pattern id)] := by
  induction n with
  | zero => exact fun _ _ _ _ h => by cases h
  | succ n ih => exact patternWith_reads hts ih

theorem pattern_reads : Reads ts pattern fun id => [.part (.pattern id)] :=
  fun s _ _ hs h => patternAt_takes hts s.bound hs h

theorem atom_reads : Reads ts atom fun id => [.part (.pattern id)] :=
  fun s _ _ hs h => atomWith_reads hts (patternAt_takes hts s.bound) hs h

end Patterns

/-- Readers of expressions, types and blocks that take the tokens of one part. -/
structure Rules.Read (ts : TokenList) (r : Rules) : Prop where
  expr : ∀ ctx, Reads ts (r.expr ctx) fun id => [.part (.expr id)]
  arrow : ∀ ctx, Reads ts (r.arrow ctx) fun id => [.part (.expr id)]
  block : Reads ts r.block fun b => [.part (.block b)]

section Expressions

variable (hts : ts.InOrder) {r : Rules} (hr : r.Read ts)

section

include hr

theorem value_reads : Reads ts r.value fun id => [.part (.expr id)] := hr.expr _

theorem type_reads : Reads ts r.type fun id => [.part (.expr id)] := hr.arrow _

theorem optionalType_reads : Reads ts (optionalType r) typing := by
  intro s o t hs h
  unfold optionalType optionally at h
  obtain ⟨c, s₁, h₁, h⟩ := bind_eq_ok.1 h
  have colon := accept_takes hs h₁ (by decide)
  split at h
  · rename_i hc
    rw [if_pos hc] at colon
    obtain ⟨id, s₂, h₂, h⟩ := bind_eq_ok.1 h
    cases h
    exact colon.trans (type_reads hr colon.after h₂)
  · rename_i hc
    rw [if_neg hc] at colon
    cases h
    exact colon

end

/-! ## Parameters -/

theorem paramSetShape?_ne {tag close : Tag} {kind : ParamSetKind}
    (h : paramSetShape? tag = some (kind, close)) : tag ≠ .eof ∧ close ≠ .eof ∧ kind ≠ .domain := by
  cases tag <;> cases h <;> decide

/-- A parameter list is a bracketed list, whose kind its opening bracket tells. -/
theorem paramSet_ok {params : ParamSet} (h : paramSet r s = .ok params t) :
    ∃ close found, paramSetShape? s.cursor.currentTag = some (params.kind, close) ∧
      bracketed close (param r params.kind) s = .ok found t ∧ params.params = found.items ∧
      params.span = found.span := by
  unfold paramSet at h
  obtain ⟨tag, s₁, h₁, h⟩ := bind_eq_ok.1 h
  cases h₁
  generalize s.cursor.currentTag = tag at h
  generalize hp : paramSetOf r tag = q at h
  unfold paramSetOf at hp
  split at hp <;> subst hp
  · cases h
  · rename_i kind close hshape
    obtain ⟨found, s₂, h₂, h⟩ := bind_eq_ok.1 h
    cases h
    exact ⟨close, found, hshape, h₂, rfl, rfl⟩

theorem ParamKind.parts_ne_nil (kind : ParamKind) : partsIn kind.signs ≠ [] := by
  cases kind with
  | typed binding type => cases binding <;> exact List.cons_ne_nil _ _
  | forAll name => exact List.cons_ne_nil _ _
  | untyped pattern => exact List.cons_ne_nil _ _

section

include hts

theorem forAllParam_takes {p : Param} (hs : Inside ts s) (htag : s.cursor.currentTag = .quote)
    (h : forAllParam s = .ok p t) : Takes ts s t [.part (.param p)] := by
  unfold forAllParam at h
  simp only [bind_eq_ok] at h
  obtain ⟨mark, s₁, h₁, name, s₂, h₂, h⟩ := h
  cases h
  have first := advance_current hs h₁ htag (by decide)
  have ident := expectIdent_takes first.takes.after h₂
  refine (first.takes.trans ident).part (.param _) ?_
  exact first.covers.merge hts (ident.covers (.refl _)) first.takes.le ident.le

include hr

theorem memberParam_reads (kind : ParamSetKind) :
    Reads ts (memberParam r kind) ParamKind.signs := by
  intro s k t hs h
  unfold memberParam at h
  obtain ⟨c, s₁, h₁, h⟩ := bind_eq_ok.1 h
  cases h₁
  split at h
  · unfold typedParam at h
    simp only [bind_eq_ok] at h
    obtain ⟨binding, s₁, h₁, _, s₂, h₂, type, s₃, h₃, h⟩ := h
    cases h
    have pattern := pattern_reads hts hs h₁
    have colon := (expect_takes pattern.after h₂ (by decide)).takes
    exact pattern.trans (colon.trans (type_reads hr colon.after h₃))
  · generalize hp : bareParam r kind = p at h
    unfold bareParam at hp
    split at hp <;> subst hp
    · obtain ⟨p, s₁, h₁, h⟩ := bind_eq_ok.1 h
      cases h
      exact pattern_reads hts hs h₁
    · obtain ⟨type, s₁, h₁, h⟩ := bind_eq_ok.1 h
      cases h
      exact type_reads hr hs h₁

theorem param_reads (kind : ParamSetKind) : Reads ts (param r kind) fun p => [.part (.param p)] := by
  intro s p t hs h
  unfold param at h
  obtain ⟨start, s₁, h₁, h⟩ := bind_eq_ok.1 h
  cases h₁
  obtain ⟨c, s₁, h₁, h⟩ := bind_eq_ok.1 h
  obtain ⟨m, hc⟩ := check_ok h₁
  have asked := Takes.of_moved hs m
  split at h
  · rename_i hquote
    rw [hc] at hquote
    exact (forAllParam_takes hts asked.after (m.currentTag.trans (eq_of_beq hquote)) h).start m
  · simp only [bind_eq_ok] at h
    obtain ⟨k, s₂, h₂, span, s₃, h₃, h⟩ := h
    cases h
    have inner := (memberParam_reads hts hr kind asked.after h₂).start m
    have hlt := inner.written.lt_of_part (ParamKind.parts_ne_nil k)
    obtain ⟨rfl, hspan⟩ := inner.covers_spanFrom hts (inner.covers_first hlt) hlt h₃
    exact inner.part (.param ⟨k, span⟩) hspan

theorem paramSet_reads : Reads ts (paramSet r) fun p => [.part (.paramSet p)] := by
  intro s p t hs h
  obtain ⟨close, found, hshape, hlist, hitems, hspan⟩ := paramSet_ok h
  obtain ⟨kind, items, span⟩ := p
  obtain rfl : items = found.items := hitems
  obtain rfl : span = found.span := hspan
  generalize htag : s.cursor.currentTag = tag at hshape
  obtain ⟨ho, hc, -⟩ := paramSetShape?_ne hshape
  obtain ⟨list, hspan⟩ := (param_reads hts hr kind).bracketed hts hs htag ho hc hlist
  have hsigns : (⟨kind, found.items, found.span⟩ : ParamSet).signs =
      listed tag close commas (found.items.map .param) := by
    cases tag <;> cases hshape <;> rfl
  exact list.part (hsigns ▸ .paramSet ⟨kind, found.items, found.span⟩) hspan

end

/-! ## Operands -/

section

include hts

theorem pathExpr_reads : Reads ts pathExpr fun id => [.part (.expr id)] := by
  intro s id t hs h
  unfold pathExpr at h
  obtain ⟨p, s₁, h₁, h⟩ := bind_eq_ok.1 h
  have taken := path_reads hts hs h₁
  exact taken.newExpr h rfl (taken.covers (.refl _))

theorem freeVar_takes {id : ExprId} (hs : Inside ts s) (htag : s.cursor.currentTag = .caret)
    (h : freeVar s = .ok id t) : Takes ts s t [.part (.expr id)] := by
  unfold freeVar at h
  simp only [bind_eq_ok] at h
  obtain ⟨mark, s₁, h₁, name, s₂, h₂, h⟩ := h
  have first := advance_current hs h₁ htag (by decide)
  have ident := expectIdent_takes first.takes.after h₂
  refine (first.takes.trans ident).newExpr h rfl ?_
  exact first.covers.merge hts (ident.covers (.refl _)) first.takes.le ident.le

omit hts in
theorem groupOrTuple_signs (items : List ExprId) (trailingComma : Bool) :
    (groupOrTuple items trailingComma).signs = listed .lparen .rparen commas (items.map .expr) := by
  unfold groupOrTuple
  split <;> rfl

include hr

theorem parenthesized_takes {ctx : Context} {id : ExprId} (hs : Inside ts s)
    (htag : s.cursor.currentTag = .lparen) (h : parenthesized r ctx s = .ok id t) :
    Takes ts s t [.part (.expr id)] := by
  unfold parenthesized at h
  obtain ⟨found, s₁, h₁, h⟩ := bind_eq_ok.1 h
  obtain ⟨list, hspan⟩ := (hr.expr ctx.nested).bracketed hts hs htag (by decide) (by decide) h₁
  exact list.newExpr h (groupOrTuple_signs _ _) hspan

theorem array_takes {ctx : Context} {id : ExprId} (hs : Inside ts s)
    (htag : s.cursor.currentTag = .lbracket) (h : array r ctx s = .ok id t) :
    Takes ts s t [.part (.expr id)] := by
  unfold array at h
  obtain ⟨found, s₁, h₁, h⟩ := bind_eq_ok.1 h
  obtain ⟨list, hspan⟩ := (hr.expr ctx.nested).bracketed hts hs htag (by decide) (by decide) h₁
  exact list.newExpr h rfl hspan

omit hts in
theorem branch_reads (ctx : Context) : Reads ts (branch r ctx) fun id => [.part (.expr id)] := by
  intro s id t hs h
  unfold branch at h
  obtain ⟨c, s₁, h₁, h⟩ := bind_eq_ok.1 h
  cases h₁
  split at h
  · obtain ⟨b, s₂, h₂, h⟩ := bind_eq_ok.1 h
    have block := hr.block hs h₂
    exact block.newExpr h rfl (block.covers (.refl _))
  · exact hr.expr ctx hs h

omit hts in
theorem elseBranch_reads (ctx : Context) (position : IfPosition) :
    Reads ts (elseBranch r ctx position) fun o => o.toList.flatMap fun id =>
      [.gap breaks, .token [.kwElse], .gap breaks, .part (.expr id)] := by
  intro s o t hs h
  unfold elseBranch at h
  obtain ⟨c, s₁, h₁, h⟩ := bind_eq_ok.1 h
  cases h₁
  split at h
  · rename_i helse
    simp only [bind_eq_ok] at h
    obtain ⟨_, s₂, h₂, tok, s₃, h₃, _, s₄, h₄, id, s₅, h₅, h⟩ := h
    cases h
    have gap := skipNewlines_takes hs h₂
    have htag : s₂.cursor.currentTag = .kwElse := by
      cases h₂
      exact eq_of_beq helse
    have token := (advance_current gap.after h₃ htag (by decide)).takes
    have gap' := skipNewlines_takes token.after h₄
    exact gap.trans (token.trans (gap'.trans (branch_reads hr ctx gap'.after h₅)))
  · cases position with
    | expr => cases h
    | stmt =>
      cases h
      exact .refl hs

omit hts in
theorem condition_reads : Reads ts (condition r) fun id =>
    [.part (.expr id), .gap breaks, .token [.kwThen], .gap breaks] := by
  intro s id t hs h
  unfold condition at h
  simp only [bind_eq_ok] at h
  obtain ⟨test, s₁, h₁, _, s₂, h₂, _, s₃, h₃, _, s₄, h₄, h⟩ := h
  cases h
  have value := hr.expr _ hs h₁
  have gap := skipNewlines_takes value.after h₂
  have token := (expect_takes gap.after h₃ (by decide)).takes
  exact value.trans (gap.trans (token.trans (skipNewlines_takes token.after h₄)))

theorem conditional_takes {ctx : Context} {position : IfPosition} {id : ExprId} (hs : Inside ts s)
    (htag : s.cursor.currentTag = .kwIf) (h : conditional r ctx position s = .ok id t) :
    Takes ts s t [.part (.expr id)] := by
  unfold conditional at h
  simp only [bind_eq_ok] at h
  obtain ⟨start, s₁, h₁, test, s₂, h₂, thenBranch, s₃, h₃, elseBranch, s₄, h₄, span, s₅, h₅, h⟩ := h
  have first := advance_current hs h₁ htag (by decide)
  have head := condition_reads hr first.takes.after h₂
  have body := branch_reads hr ctx head.after h₃
  have rest := head.trans (body.trans (elseBranch_reads hr ctx position body.after h₄))
  have whole := first.takes.trans rest
  obtain ⟨rfl, hspan⟩ := whole.covers_spanFrom hts first.covers rest.le h₅
  exact whole.newExpr h rfl hspan

theorem matchArm_reads : Reads ts (matchArm r) fun a => [.part (.arm a)] := by
  intro s a t hs h
  unfold matchArm at h
  simp only [bind_eq_ok] at h
  obtain ⟨p, s₁, h₁, _, s₂, h₂, _, s₃, h₃, body, s₄, h₄, A, s₅, h₅, B, s₆, h₆, h⟩ := h
  cases h₅
  cases h₆
  cases h
  have head := pattern_reads hts hs h₁
  have token := (expect_takes head.after h₂ (by decide)).takes
  have gap := skipNewlines_takes token.after h₃
  have value := branch_reads hr _ gap.after h₄
  have rest := token.trans gap
  refine (head.trans (rest.trans value)).part (.arm _) ?_
  exact (head.covers (rest.trans value).retained).merge hts (value.covers (.refl _))
    (Nat.le_trans head.le rest.le) (Nat.le_trans rest.le value.le)

theorem caseAnalysis_takes {id : ExprId} (hs : Inside ts s) (htag : s.cursor.currentTag = .kwMatch)
    (h : caseAnalysis r s = .ok id t) : Takes ts s t [.part (.expr id)] := by
  unfold caseAnalysis at h
  simp only [bind_eq_ok] at h
  obtain ⟨start, s₁, h₁, scrutinee, s₂, h₂, found, s₃, h₃, span, s₄, h₄, h⟩ := h
  have first := advance_current hs h₁ htag (by decide)
  have value := hr.expr _ first.takes.after h₂
  have arms := ((matchArm_reads hts hr).within _).braced .eatSeparators
    (fun _ _ _ _ h => by cases h; exact .refl _) hts (by decide) value.after h₃
  have rest := value.trans arms.1
  have whole := first.takes.trans rest
  obtain ⟨rfl, hspan⟩ := whole.covers_spanFrom hts first.covers rest.le h₄
  exact whole.newExpr h rfl hspan

theorem returning_takes {ctx : Context} {id : ExprId} (hs : Inside ts s)
    (htag : s.cursor.currentTag = .kwReturn) (h : returning r ctx s = .ok id t) :
    Takes ts s t [.part (.expr id)] := by
  unfold returning at h
  simp only [bind_eq_ok] at h
  obtain ⟨start, s₁, h₁, value, s₂, h₂, span, s₃, h₃, h⟩ := h
  have first := advance_current hs h₁ htag (by decide)
  have rest := (hr.expr ctx).optionally (fun _ _ _ h => (checkSet_ok h).1) first.takes.after h₂
  have whole := first.takes.trans rest
  obtain ⟨rfl, hspan⟩ := whole.covers_spanFrom hts first.covers rest.le h₃
  exact whole.newExpr h (by simp [ExprKind.signs, List.map_eq_flatMap]) hspan

theorem operandOf_takes {ctx : Context} {token : Token} {id : ExprId} (hs : Inside ts s)
    (htoken : token = s.cursor.current) (h : operandOf r ctx token s = .ok id t) :
    Takes ts s t [.part (.expr id)] := by
  have kind_eq : ∀ {kind}, token.kind = kind → s.cursor.currentTag = kind.tag :=
    fun hkind => currentTag_of_kind (htoken ▸ hkind)
  generalize hp : operandOf r ctx token = p at h
  unfold operandOf at hp
  split at hp
  · rename_i value hvalue
    subst hp
    obtain ⟨tok, s₁, h₁, h⟩ := bind_eq_ok.1 h
    have taken := current_covers hs h₁ (literal_tag (htoken ▸ hvalue)) (literal_ne_eof value)
    exact taken.takes.newExpr h rfl (htoken ▸ taken.covers)
  · split at hp <;> rename_i hkind <;> subst hp
    · exact pathExpr_reads hts hs h
    · exact pathExpr_reads hts hs h
    · exact freeVar_takes hts hs (kind_eq hkind) h
    · obtain ⟨tok, s₁, h₁, h⟩ := bind_eq_ok.1 h
      have taken := current_covers hs h₁ (kind_eq hkind) (fun e => by cases e)
      exact taken.takes.newExpr h rfl (htoken ▸ taken.covers)
    · exact parenthesized_takes hts hr hs (kind_eq hkind) h
    · exact array_takes hts hr hs (kind_eq hkind) h
    · exact conditional_takes hts hr hs (kind_eq hkind) h
    · exact caseAnalysis_takes hts hr hs (kind_eq hkind) h
    · exact returning_takes hts hr hs (kind_eq hkind) h
    · cases h

theorem operand_reads (ctx : Context) : Reads ts (operand r ctx) fun id => [.part (.expr id)] := by
  intro s id t hs h
  unfold operand at h
  obtain ⟨token, s₁, h₁, h⟩ := bind_eq_ok.1 h
  cases h₁
  exact operandOf_takes hts hr hs rfl h

omit hts in
theorem blockArgument_reads (ctx : Context) : Reads ts (blockArgument r ctx) fun o =>
    o.toList.map fun b => .part (.block b) := by
  intro s o t hs h
  show Takes ts s t (o.toList.map fun b => .part (.block b))
  rw [List.map_eq_flatMap]
  unfold blockArgument at h
  split at h
  · exact hr.block.optionally (fun _ _ _ h => (check_ok h).1) hs h
  · cases h
    exact .refl hs

/-- A callee that has been taken, and what it is applied to. -/
theorem applied_takes {ctx : Context} {callee id : ExprId} (h₀ : Takes ts s t [.part (.expr callee)])
    (h : applied r ctx callee t = .ok id u) : Takes ts s u [.part (.expr id)] := by
  unfold applied at h
  simp only [bind_eq_ok] at h
  obtain ⟨args, s₁, h₁, block, s₂, h₂, h⟩ := h
  have operands := ((operand_reads hts hr ctx).optionally
    (fun _ _ _ h => (checkSet_ok h).1)).many h₀.after h₁
  have last := blockArgument_reads hr ctx operands.after h₂
  have rest := operands.trans last
  have whole := h₀.trans rest
  split at h
  · rename_i hnone
    cases h
    rw [Bool.and_eq_true, List.isEmpty_iff, Option.isNone_iff_eq_none] at hnone
    rw [hnone.1, hnone.2] at whole
    exact whole
  · simp only [bind_eq_ok] at h
    obtain ⟨A, s₃, h₃, span, s₄, h₄, h⟩ := h
    cases h₃
    obtain ⟨rfl, hspan⟩ := whole.covers_spanFrom hts (h₀.covers rest.retained) rest.le h₄
    refine whole.newExpr h ?_ hspan
    unfold applicationKind
    split
    · rename_i htype
      have hblock : block = none := by
        simp only [blockArgument, Context.allowsBlockCall, htype] at h₂
        cases h₂
        rfl
      simp [ExprKind.signs, hblock, List.map_eq_flatMap]
    · simp [ExprKind.signs, List.map_eq_flatMap]

theorem application_reads (ctx : Context) :
    Reads ts (application r ctx) fun id => [.part (.expr id)] := by
  intro s id t hs h
  unfold application at h
  simp only [bind_eq_ok] at h
  obtain ⟨callee, s₁, h₁, closed, s₂, h₂, h⟩ := h
  have head := operand_reads hts hr ctx hs h₁
  obtain rfl : s₂ = s₁ := by
    cases h₂
    rfl
  split at h
  · cases h
    exact head
  · exact applied_takes hts hr head h

end

/-! ## Chains and annotations -/

/-- What a token says of the operator that it is. -/
structure IsOperatorAt (op : Ident) (c : Cursor) : Prop where
  kind : op.kind = .symbol
  span : op.span = c.current.span
  tag : c.currentTag ∈ IdentKind.symbol.tags
  ne_eof : c.currentTag ≠ .eof

/-- Asking for an operator takes nothing; one that is seen is the current token. -/
theorem operator?_ok {o : Option Ident} (h : operator? s = .ok o t) :
    t.cursor.tokens = s.cursor.tokens ∧ t.cursor.position = s.cursor.position ∧
      ∀ op, o = some op → IsOperatorAt op t.cursor := by
  have seen : ∀ {kind : TokenKind} {op : Ident}, s.cursor.current.kind = kind →
      kind.tag ∈ IdentKind.symbol.tags → kind.tag ≠ .eof → op.kind = .symbol →
      op.span = s.cursor.current.span → ∀ op', some op = some op' → IsOperatorAt op' s.cursor := by
    rintro kind op hkind hmem he hop hspan op' ⟨⟩
    rw [← currentTag_of_kind hkind] at hmem he
    exact ⟨hop, hspan, hmem, he⟩
  unfold operator? at h
  obtain ⟨token, s₁, h₁, h⟩ := bind_eq_ok.1 h
  obtain ⟨rfl, rfl⟩ : token = s.cursor.current ∧ s₁ = s := by
    cases h₁
    exact ⟨rfl, rfl⟩
  generalize hkind : s₁.cursor.current.kind = kind at seen
  unfold operatorOf at h
  rw [hkind] at h
  cases kind with
  | operator name =>
    cases h
    exact ⟨rfl, rfl, seen rfl (by simp [TokenKind.tag, IdentKind.tags]) (fun e => by cases e) rfl rfl⟩
  | pipe =>
    cases h
    exact ⟨rfl, rfl, seen rfl (by simp [TokenKind.tag, IdentKind.tags]) (fun e => by cases e) rfl rfl⟩
  | dot =>
    obtain ⟨tight, s₂, h₂, h⟩ := bind_eq_ok.1 h
    cases h₂
    split at h
    · cases h
      exact ⟨rfl, rfl, fun _ h => by cases h⟩
    · cases h
      exact ⟨rfl, rfl,
        seen rfl (by simp [TokenKind.tag, IdentKind.tags]) (fun e => by cases e) rfl rfl⟩
  | _ =>
    cases h
    exact ⟨rfl, rfl, fun _ h => by cases h⟩

theorem operator?_reads : Reads ts operator? fun _ => [] := by
  intro s o t hs h
  refine .of_quiet hs h ?_
  rw [(operator?_ok h).2.1]
  exact .nil _

section

include hts hr

/-- What stands left of an operator has been taken. -/
theorem joined_takes {ctx : Context} {lhs id : ExprId} {op : Ident}
    (h₀ : Takes ts s t [.part (.expr lhs)]) (hop : IsOperatorAt op t.cursor)
    (h : joined r ctx lhs op t = .ok id u) : Takes ts s u [.part (.expr id)] := by
  unfold joined at h
  simp only [bind_eq_ok] at h
  obtain ⟨tok, s₁, h₁, rhs, s₂, h₂, A, s₃, h₃, B, s₄, h₄, h⟩ := h
  cases h₃
  cases h₄
  have token := advance_takes op.kind.tags h₀.after h₁ (hop.kind ▸ hop.tag) hop.ne_eof
  have hc := (current_covers h₀.after h₁ rfl hop.ne_eof).covers
  rw [← hop.span] at hc
  have operator := token.takes.part (.ident op) hc
  have right := application_reads hts hr ctx operator.after h₂
  refine (h₀.trans (operator.trans right)).newExpr h rfl ?_
  exact (h₀.covers (operator.trans right).retained).merge hts (right.covers (.refl _))
    (Nat.le_trans h₀.le operator.le) (Nat.le_trans operator.le right.le)

theorem chain_reads (ctx : Context) : Reads ts (chain r ctx) fun id => [.part (.expr id)] := by
  intro s id t hs h
  unfold chain at h
  obtain ⟨first, s₁, h₁, h⟩ := bind_eq_ok.1 h
  let taken (lhs : ExprId) (u : State) : Prop := Takes ts s u [.part (.expr lhs)]
  refine repeating_invariant (I := taken) (Q := taken) ?_ (application_reads hts hr ctx hs h₁) h
  intro lhs u step v htaken hturn
  unfold chainTurn at hturn
  obtain ⟨o, u₁, ho, hturn⟩ := bind_eq_ok.1 hturn
  have asked : Takes ts s u₁ [.part (.expr lhs)] := Takes.trans htaken (operator?_reads htaken.after ho)
  cases o with
  | none =>
    cases hturn
    exact asked
  | some op =>
    obtain ⟨id, u₂, hjoined, hturn⟩ := bind_eq_ok.1 hturn
    cases hturn
    exact joined_takes hts hr asked ((operator?_ok ho).2.2 op rfl) hjoined

/-- What is annotated has been taken, and `is`. -/
theorem ascribed_takes {v : State} {value id : ExprId} (h₀ : Takes ts s t [.part (.expr value)])
    (h₁ : Takes ts t u [.token [.kwIs]]) (h : ascribed r value u = .ok id v) :
    Takes ts s v [.part (.expr id)] := by
  unfold ascribed at h
  simp only [bind_eq_ok] at h
  obtain ⟨type, s₁, htype, A, s₂, h₂, B, s₃, h₃, h⟩ := h
  cases h₂
  cases h₃
  have right := hr.arrow _ h₁.after htype
  refine (h₀.trans (h₁.trans right)).newExpr h rfl ?_
  exact (h₀.covers (h₁.trans right).retained).merge hts (right.covers (.refl _))
    (Nat.le_trans h₀.le h₁.le) (Nat.le_trans h₁.le right.le)

theorem annotated_reads (ctx : Context) :
    Reads ts (annotated r ctx) fun id => [.part (.expr id)] := by
  intro s id t hs h
  unfold annotated at h
  obtain ⟨first, s₁, h₁, h⟩ := bind_eq_ok.1 h
  have head := chain_reads hts hr ctx hs h₁
  split at h
  · let taken (value : ExprId) (u : State) : Prop := Takes ts s u [.part (.expr value)]
    refine repeating_invariant (I := taken) (Q := taken) ?_ head h
    intro value u step v htaken hturn
    unfold annotationTurn at hturn
    obtain ⟨c, u₁, hc, hturn⟩ := bind_eq_ok.1 hturn
    have token := accept_takes htaken.after hc (by decide)
    split at hturn <;> rename_i hkw
    · rw [if_pos hkw] at token
      obtain ⟨id, u₂, hid, hturn⟩ := bind_eq_ok.1 hturn
      cases hturn
      exact ascribed_takes hts hr htaken token hid
    · rw [if_neg hkw] at token
      cases hturn
      exact htaken.trans token
  · cases h
    exact head

/-! ## Binders -/

/-- The parameters and the arrow have been taken; the result comes next. -/
theorem binder_takes {v : State} {params : ParamSet} {tag : Tag} (kind : ParamSet → ExprId → ExprKind)
    {ctx : Context} {id : ExprId}
    (hkind : ∀ result, (kind params result).signs =
      [.part (.paramSet params), .token [tag], .part (.expr result)])
    (h₀ : Takes ts s t [.part (.paramSet params)]) (h₁ : Takes ts t u [.token [tag]])
    (h : (do
      let result ← r.arrow ctx
      newExpr (kind params result) (params.span.merge (← exprSpan result)) : Parse ExprId) u =
        .ok id v) : Takes ts s v [.part (.expr id)] := by
  simp only [bind_eq_ok] at h
  obtain ⟨result, s₁, hresult, B, s₂, h₂, h⟩ := h
  cases h₂
  have right := hr.arrow _ h₁.after hresult
  refine (h₀.trans (h₁.trans right)).newExpr h (hkind result) ?_
  exact (h₀.covers (h₁.trans right).retained).merge hts (right.covers (.refl _))
    (Nat.le_trans h₀.le h₁.le) (Nat.le_trans h₁.le right.le)

theorem sigma_reads (ctx : Context) : Reads ts (sigma r ctx) fun id => [.part (.expr id)] := by
  intro s id t hs h
  unfold sigma at h
  obtain ⟨c, s₁, h₁, h⟩ := bind_eq_ok.1 h
  cases h₁
  split at h
  · simp only [bind_eq_ok] at h
    obtain ⟨params, s₂, h₂, tok, s₃, h₃, h⟩ := h
    have head := paramSet_reads hts hr hs h₂
    exact binder_takes hts hr .sigma (fun _ => rfl) head
      (expect_takes head.after h₃ (by decide)).takes h
  · exact annotated_reads hts hr ctx hs h

omit hts hr in
/-- Reading as a type takes nothing. -/
theorem toType_reads (id : ExprId) : Reads ts (toType id) fun _ => [] := by
  intro s x t hs h
  have retained := Arena.Retains.retag (id.index + 1) id s.arena
  unfold toType Arena.toType at h
  split at h
  · rename_i arena harena
    cases h
    rw [harena] at retained
    exact ⟨hs, ⟨hs.tokens, hs.le⟩, retained, .nil _⟩
  · cases h

omit hts hr in
/-- What stands before an arrow is the only parameter. -/
theorem domainParams_takes {domain : ExprId} (h : Takes ts s t [.part (.expr domain)]) :
    Takes ts s t [.part (.paramSet (domainParams domain (t.arena.exprSpan domain)))] := by
  have hc := h.covers (.refl t.arena)
  let param : Param := ⟨.typed none domain, t.arena.exprSpan domain⟩
  exact (h.part (.param param) hc).part (.paramSet ⟨.domain, [param], t.arena.exprSpan domain⟩) hc

theorem domainArrow_reads (ctx : Context) :
    Reads ts (domainArrow r ctx) fun id => [.part (.expr id)] := by
  intro s id t hs h
  unfold domainArrow at h
  obtain ⟨domain, s₁, h₁, h⟩ := bind_eq_ok.1 h
  obtain ⟨c, s₂, h₂, h⟩ := bind_eq_ok.1 h
  have head := sigma_reads hts hr ctx hs h₁
  have token := accept_takes head.after h₂ (by decide)
  split at h <;> rename_i hc
  · rw [if_pos hc] at token
    unfold domainResult at h
    simp only [bind_eq_ok] at h
    obtain ⟨_, s₃, h₃, A, s₄, h₄, h⟩ := h
    cases h₄
    have arrow : Takes ts s₁ s₃ [.token [.arrow]] := token.trans (toType_reads domain token.after h₃)
    have hspan : s₁.arena.exprSpan domain = s₃.arena.exprSpan domain :=
      (head.covers (.refl _)).unique (head.covers arrow.retained)
    have params := domainParams_takes head
    rw [hspan] at params
    exact binder_takes hts hr .pi (fun _ => rfl) params arrow h
  · rw [if_neg hc] at token
    cases h
    exact head.trans token

theorem arrow_reads (ctx : Context) : Reads ts (arrow r ctx) fun id => [.part (.expr id)] := by
  intro s id t hs h
  unfold arrow at h
  obtain ⟨c, s₁, h₁, h⟩ := bind_eq_ok.1 h
  cases h₁
  split at h
  · simp only [bind_eq_ok] at h
    obtain ⟨params, s₂, h₂, tok, s₃, h₃, h⟩ := h
    have head := paramSet_reads hts hr hs h₂
    exact binder_takes hts hr .pi (fun _ => rfl) head (expect_takes head.after h₃ (by decide)).takes h
  · exact domainArrow_reads hts hr ctx hs h

theorem lambda_reads (ctx : Context) : Reads ts (lambda r ctx) fun id => [.part (.expr id)] := by
  intro s id t hs h
  unfold lambda at h
  obtain ⟨c, s₁, h₁, h⟩ := bind_eq_ok.1 h
  obtain ⟨m, hc⟩ := check_ok h₁
  have asked := Takes.of_moved hs m
  split at h
  · rename_i hpipe
    rw [hc] at hpipe
    have htag := m.currentTag.trans (eq_of_beq hpipe)
    simp only [bind_eq_ok] at h
    obtain ⟨start, s₂, h₂, params, s₃, h₃, h⟩ := h
    have first := advance_current asked.after h₂ htag (by decide)
    have row := atoms_read (atom_reads hts) (fun _ _ _ h => (isBefore_ok h).1) first.takes.after h₃
    unfold lambdaBody at h
    split at h
    · cases h
    · simp only [bind_eq_ok] at h
      obtain ⟨tok, s₄, h₄, body, s₅, h₅, B, s₆, h₆, h⟩ := h
      cases h₆
      have pipe := (advance_current row.after h₄ (many_isBefore h₃) (by decide)).takes
      have value := hr.expr ctx pipe.after h₅
      have rest := row.trans pipe
      have whole := first.takes.trans (rest.trans value)
      refine ((whole.newExpr h ?_ ?_)).start m
      · simp [ExprKind.signs]
      · exact first.covers.merge hts (value.covers (.refl _)) (Nat.le_trans first.takes.le rest.le)
          (Nat.le_trans rest.le value.le)
  · exact (arrow_reads hts hr ctx asked.after h).start m

/-! ## Blocks -/

theorem letStmt_takes {x : Stmt} (hs : Inside ts s) (htag : s.cursor.currentTag = .kwLet)
    (h : letStmt r s = .ok x t) : Takes ts s t [.part x.node] := by
  unfold letStmt at h
  simp only [bind_eq_ok] at h
  obtain ⟨start, s₁, h₁, p, s₂, h₂, type, s₃, h₃, tok, s₄, h₄, value, s₅, h₅, span, s₆, h₆, h⟩ := h
  cases h
  have first := advance_current hs h₁ htag (by decide)
  have pattern := pattern_reads hts first.takes.after h₂
  have typed := optionalType_reads hr pattern.after h₃
  have eq := (expect_takes typed.after h₄ (by decide)).takes
  have rest := pattern.trans (typed.trans (eq.trans (value_reads hr eq.after h₅)))
  have whole := first.takes.trans rest
  obtain ⟨rfl, hspan⟩ := whole.covers_spanFrom hts first.covers rest.le h₆
  refine whole.part ?_ hspan
  simpa [Stmt.node] using Arena.Writes.letStmt p type value span

theorem stmt_reads : Reads ts (stmt r) fun x => [.part x.node] := by
  intro s x t hs h
  unfold stmt at h
  obtain ⟨c, s₁, h₁, h⟩ := bind_eq_ok.1 h
  cases h₁
  split at h
  · rename_i hlet
    exact letStmt_takes hts hr hs (eq_of_beq hlet) (within_ok h)
  · obtain ⟨c, s₁, h₁, h⟩ := bind_eq_ok.1 h
    cases h₁
    split at h
    · rename_i hif
      obtain ⟨id, s₁, h₁, h⟩ := bind_eq_ok.1 h
      cases h
      exact conditional_takes hts hr hs (eq_of_beq hif) h₁
    · obtain ⟨id, s₁, h₁, h⟩ := bind_eq_ok.1 h
      cases h
      exact value_reads hr hs h₁

omit hts hr in
theorem rejectOpenIf_ok {stmts : List Stmt} {x : Unit} (h : rejectOpenIf stmts s = .ok x t) :
    Moved 0 s t := by
  generalize hp : rejectOpenIf stmts = p at h
  unfold rejectOpenIf at hp
  split at hp <;> subst hp
  · obtain ⟨c, s₁, h₁, h⟩ := bind_eq_ok.1 h
    obtain rfl : s = s₁ := by
      cases h₁
      rfl
    cases c with
    | true => cases h
    | false =>
      cases h
      exact .refl _
  · cases h
    exact .refl _

theorem block_reads : Reads ts (block r) fun b => [.part (.block b)] := by
  intro s b t hs h
  unfold block at h
  obtain ⟨found, s₁, h₁, h⟩ := bind_eq_ok.1 h
  cases h
  obtain ⟨list, hspan⟩ := (stmt_reads hts hr).braced .breakSeparator
    (fun _ _ _ _ h => rejectOpenIf_ok h) hts (by decide) hs h₁
  exact list.part (.block ⟨found.1, found.2⟩) hspan

end

end Expressions

/-- The readers of expressions, types and blocks. -/
theorem rules_read (hts : ts.InOrder) (n : Nat) : (rules n).Read ts := by
  induction n with
  | zero =>
    constructor
    case expr | arrow =>
      intro ctx s id t _ h
      cases h
    case block =>
      intro s b t _ h
      cases h
  | succ n ih => exact ⟨lambda_reads hts ih, arrow_reads hts ih, block_reads hts ih⟩

end SolSyntax.Grammar
