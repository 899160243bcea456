import SolSyntax.Proofs.Modules

/-!
# The bracket that closes a group

A scan ahead counts brackets and does not tell their kinds apart; the grammar pairs them kind by kind.
On what the grammar reads both come to the same bracket, because a phrase is properly bracketed and so
leaves the count as it is.  What such a scan has seen behind a group is therefore what a reader finds
there.

Principal result: `readers_match_brackets`.
-/

namespace SolSyntax

/-- The tokens from one index up to another. -/
def TokenList.slice (ts : TokenList) (i j : Nat) : List Token := (ts.toList.drop i).take (j - i)

/-- A group, the kinds of whose outer brackets may differ. -/
def IsGroup (u : List Token) : Prop :=
  ∃ o m c, u = o :: (m ++ [c]) ∧ o.tag.isOpening = true ∧ c.tag.isClosing = true ∧ Nested false m

theorem groupSplit_group {o c : Token} {m : List Token} (ho : o.tag.isOpening = true)
    (hc : c.tag.isClosing = true) (hm : Nested false m) (r : List Token) :
    groupSplit (o :: (m ++ c :: r)) 0 = some (o :: m, r) := by
  have hlast : groupSplit (c :: r) 1 = some ([], r) := by rw [groupSplit, if_pos ⟨hc, Nat.le_refl _⟩]
  rw [groupSplit, Tag.depthFrom_of_isOpening ho, hm.closes_zero.groupSplit_eq _ Nat.one_pos, hlast]
  simp [Tag.isClosing_of_isOpening ho, Tag.ne_eof_of_isOpening ho]

/-- The search that begins at a group ends with it. -/
theorem IsGroup.groupSplit_eq {u : List Token} (h : IsGroup u) (r : List Token) :
    ∃ v, groupSplit (u ++ r) 0 = some (v, r) ∧ v.length + 1 = u.length := by
  obtain ⟨o, m, c, rfl, ho, hc, hm⟩ := h
  refine ⟨o :: m, ?_, by simp⟩
  rw [List.cons_append, List.append_assoc, List.singleton_append, groupSplit_group ho hc hm]

namespace Grammar

open Parse

/-- Where it succeeds the reader has passed properly bracketed tokens, none of which is an end. -/
def ReadsNested (p : Parse α) : Prop :=
  ∀ s a s', p s = .ok a s' →
    s'.cursor.tokens = s.cursor.tokens ∧ s.cursor.position ≤ s'.cursor.position ∧
      Nested false (s.cursor.tokens.slice s.cursor.position s'.cursor.position) ∧
      ∀ t ∈ s.cursor.tokens.slice s.cursor.position s'.cursor.position, t.tag ≠ .eof

/-- Where it begins with an opening bracket and succeeds the reader ends behind the bracket that is
found by counting. -/
def ReadsGroup (p : Parse α) : Prop :=
  ∀ s a s', s.cursor.currentTag.isOpening = true → p s = .ok a s' →
    ∃ close, s.cursor.matchingClose? s.cursor.position = some close ∧ s'.cursor.position = close + 1

/-- From `s` to `s'` the tokens `u` were taken. -/
structure Took (s s' : State) (u : List Token) : Prop where
  onward : s.cursor.Onward s'.cursor
  rest : s.cursor.rest = u ++ s'.cursor.rest

namespace Took

variable {s s' : State} {u : List Token}

theorem position (h : Took s s' u) (hu : u ≠ []) :
    s'.cursor.position = s.cursor.position + u.length := by
  have hlen := congrArg List.length h.rest
  have hpos := List.length_pos_iff.2 hu
  rw [List.length_append, Cursor.length_rest, Cursor.length_rest, h.onward.tokens] at hlen
  have := h.onward.bound (by omega)
  omega

/-- What was taken is what lies between the two places. -/
theorem slice_eq (h : Took s s' u) (hu : u ≠ []) :
    s.cursor.tokens.slice s.cursor.position s'.cursor.position = u := by
  have hrest : s.cursor.tokens.toList.drop s.cursor.position = u ++ s'.cursor.rest := h.rest
  rw [TokenList.slice, hrest, h.position hu, Nat.add_sub_cancel_left, List.take_left]

/-- A group that was taken ends where the search says. -/
theorem matchingClose?_eq (h : Took s s' u) (hu : IsGroup u) :
    ∃ close, s.cursor.matchingClose? s.cursor.position = some close ∧
      s'.cursor.position = close + 1 := by
  have hne : u ≠ [] := by
    rintro rfl
    obtain ⟨o, m, c, e, -⟩ := hu
    cases e
  obtain ⟨v, hsplit, hlen⟩ := hu.groupSplit_eq s'.cursor.rest
  have hrest : s.cursor.tokens.toList.drop s.cursor.position = u ++ s'.cursor.rest := h.rest
  refine ⟨s.cursor.position + v.length, ?_, ?_⟩
  · rw [Cursor.matchingClose?, Cursor.closeFrom_eq, hrest, hsplit]
    rfl
  · rw [h.position hne]
    omega

end Took

/-- A production that agrees with itself takes a phrase and stores its outlines. -/
theorem Agrees.read {α : Type} [Relocate α] {k : Nat} {ph : Phrase} {view : α → List (Outline Ref)} {p : Parse α}
    [Forward p] (h : Agrees .whole k ph view p p) {s s' : State} {a : α} (hk : s.cursor.rest.length < k)
    (hp : p s = .ok a s') : ∃ u ts, Took s s' u ∧ Derives ph u ts ∧ Grew s s' (view a) ts := by
  have onward := Forward.onward (p := p) s
  rw [hp] at onward
  obtain ⟨b, s₁, hr, -, u, v, ts, hv, hD, hb⟩ | ⟨e, s₁, hr⟩ := (h (Aligned.whole s) hk).whole
  · rw [hp] at hr
    cases hr
    have hrest : s'.cursor.rest = v := hb.aligned.left.trans (List.append_nil v)
    exact ⟨u, ts, ⟨onward.cursor, hrest ▸ hv⟩, hD, hb.left⟩
  · rw [hp] at hr
    cases hr

/-- What a production that agrees with itself takes is a phrase. -/
theorem Agrees.took {α : Type} [Relocate α] {k : Nat} {ph : Phrase} {view : α → List (Outline Ref)} {p : Parse α}
    [Forward p] (h : Agrees .whole k ph view p p) {s s' : State} {a : α} (hk : s.cursor.rest.length < k)
    (hp : p s = .ok a s') : ∃ u ts, Took s s' u ∧ Derives ph u ts := by
  obtain ⟨u, ts, took, hD, -⟩ := h.read hk hp
  exact ⟨u, ts, took, hD⟩

section Readers

variable {α : Type} [Relocate α] {p : Rules → Parse α} [∀ n, Forward (p (rules n))]

/-- A reader of phrases of one kind. -/
theorem readsNested_ofRules {ph : Phrase} {view : α → List (Outline Ref)} (hph : ph.isSolid = true)
    (h : ∀ {k n}, k ≤ n → Agrees .whole k ph view (p (rules n)) (p (rules n))) :
    ReadsNested (Reader.ofRules p) := by
  intro s a s' hp
  have hbound := (Aligned.whole s).length_lt_bound.1
  obtain ⟨u, ts, took, hD⟩ := (h hbound).took (Nat.lt_succ_self _) hp
  have hne := hD.ne_nil hph
  rw [took.slice_eq hne]
  exact ⟨took.onward.tokens, took.onward.position, hD.nested, hD.nested.ne_eof⟩

/-- A reader of phrases that are groups. -/
theorem readsGroup_ofRules {ph : Phrase} {view : α → List (Outline Ref)}
    (hph : ∀ {u ts}, Derives ph u ts → IsGroup u)
    (h : ∀ {k n}, k ≤ n → Agrees .whole k ph view (p (rules n)) (p (rules n))) :
    ReadsGroup (Reader.ofRules p) := by
  intro s a s' _ hp
  have hbound := (Aligned.whole s).length_lt_bound.1
  obtain ⟨u, ts, took, hD⟩ := (h hbound).took (Nat.lt_succ_self _) hp
  exact took.matchingClose?_eq (hph hD)

end Readers

theorem isGroup_of_paramSet {u : List Token} {ts : List (Outline TokenKind)}
    (h : Derives .paramSet u ts) : IsGroup u := by
  cases h with
  | @paramSet o c k close _ m ts hs hc hD =>
    have hclose := closing?_of_paramSetShape? hs
    exact ⟨o, m, c, rfl, Tag.isOpening_of_closing? hclose,
      hc ▸ Tag.isClosing_of_closing? hclose, hD.nested⟩

theorem isGroup_of_block {u : List Token} {ts : List (Outline TokenKind)} (h : Derives .block u ts) :
    IsGroup u := by
  cases h with
  | @block o c _ m ts ho hc hD => exact ⟨o, m, c, rfl, by rw [ho]; rfl, by rw [hc]; rfl, hD.nested⟩

/-! ## Groups of expressions -/

/-- Expressions in brackets are a group, even if the bracket before them is of another kind. -/
theorem bracketed_took {n : Nat} {ctx : Context} {close : Tag} (hclose : close.isClosing = true)
    {s s' : State} {found : Bracketed ExprId} (hn : s.cursor.rest.length ≤ n)
    (hopen : s.cursor.currentTag.isOpening = true)
    (h : bracketed close ((rules n).expr ctx) s = .ok found s') :
    ∃ u, Took s s' u ∧ IsGroup u := by
  have onward := Forward.onward (p := bracketed close ((rules n).expr ctx)) s
  rw [h] at onward
  rw [Cursor.currentTag_eq] at hopen
  have al := Aligned.whole s
  obtain ⟨o, v, hov⟩ : ∃ o v, s.cursor.rest = o :: v := by
    cases hr : s.cursor.rest with
    | nil =>
      rw [hr] at hopen
      cases hopen
    | cons o v => exact ⟨o, v, rfl⟩
  rw [hov] at al hopen
  rw [hov, List.length_cons] at hn
  have agree : (rules n).Agree .whole n (rules n) := rules_agree (Nat.le_refl n) (Nat.le_refl n)
  have meets := bracketed_meet (k := n) hopen hclose rfl (fun al hk => agree.expr ctx al hk) al hn
  obtain ⟨found', s₁, hr, -, -, u, c, v', ts, hv, hc, hD, -, b⟩ | ⟨e, s₁, hr⟩ := meets.whole
  · rw [h] at hr
    cases hr
    have hrest : s'.cursor.rest = v' := b.aligned.left.trans (List.append_nil v')
    refine ⟨o :: (u ++ [c]), ⟨onward.cursor, ?_⟩, o, u, c, rfl, hopen, hc ▸ hclose, hD.nested⟩
    rw [hov, hv, hrest]
    simp
  · rw [h] at hr
    cases hr

/-- A production that makes a node of expressions in brackets. -/
theorem readsGroup_node {close : Tag} (hclose : close.isClosing = true) (ctx : Context)
    (node : Bracketed ExprId → ExprKind) :
    ReadsGroup (Reader.ofRules fun r => do
      let found ← bracketed close (r.expr ctx)
      newExpr (node found) found.span) := by
  intro s a s' hopen h
  obtain ⟨found, s₁, hp, hnode⟩ := exists_of_bind_ok h
  cases hnode
  obtain ⟨u, took, hu⟩ := bracketed_took hclose (length_rest_le_bound s) hopen hp
  exact took.matchingClose?_eq hu

/-! ## What was seen behind a group -/

/-- A reader of groups ends before what a scan has seen behind the group. -/
theorem ReadsGroup.expect {p : Parse α} (h : ReadsGroup p) {s s' : State} {a : α} {tag : Tag}
    (htag : tag ≠ .eof) (hopen : s.cursor.currentTag.isOpening = true) (hp : p s = .ok a s')
    (htokens : s'.cursor.tokens = s.cursor.tokens)
    (hseen : ∀ close, s.cursor.matchingClose? s.cursor.position = some close →
      s.cursor.tagAt (close + 1) = tag) :
    ∃ tok s'', expect tag s' = .ok tok s'' := by
  obtain ⟨close, hclose, hpos⟩ := h s a s' hopen hp
  have hat : headTag s'.cursor.rest = tag := by
    rw [← Cursor.currentTag_eq, Cursor.currentTag, hpos, Cursor.tagAt, htokens]
    exact hseen close hclose
  cases hrest : s'.cursor.rest with
  | nil =>
    rw [hrest] at hat
    exact absurd hat.symm htag
  | cons tok r =>
    rw [hrest] at hat
    obtain ⟨s'', hs'', -⟩ := expect_eq tag hrest hat htag
    exact ⟨tok, s'', hs''⟩

theorem seen_of_groupFollowedBy {c : Cursor} {tag : Tag} (h : c.groupFollowedBy tag = true) {close : Nat}
    (hclose : c.matchingClose? c.position = some close) : c.tagAt (close + 1) = tag := by
  rw [Cursor.groupFollowedBy, hclose] at h
  exact eq_of_beq h

theorem seen_of_isParamList {c : Cursor} (h : isParamList c = true) {close : Nat}
    (hclose : c.matchingClose? c.position = some close) : c.tagAt (close + 1) = .arrow := by
  rw [isParamList, hclose] at h
  exact eq_of_beq (Bool.and_eq_true_iff.1 h).1

theorem readsNested_paramSet : ReadsNested Reader.paramSet :=
  readsNested_ofRules rfl fun hk => (paramSet_agrees (rules_agree hk hk)).mono (Nat.le_succ _)

theorem readsGroup_paramSet : ReadsGroup Reader.paramSet :=
  readsGroup_ofRules isGroup_of_paramSet fun hk =>
    (paramSet_agrees (rules_agree hk hk)).mono (Nat.le_succ _)

/-- Behind parameters stands the arrow for which they were taken to be parameters. -/
theorem expect_arrow {s s' : State} {params : ParamSet} (hp : Reader.paramSet s = .ok params s')
    (h : startsParamList s.cursor = true) : ∃ tok s'', expect .arrow s' = .ok tok s'' := by
  have htokens := (readsNested_paramSet s params s' hp).1
  rw [startsParamList, Bool.or_eq_true, Bool.and_eq_true, Bool.and_eq_true] at h
  rcases h with ⟨hat, hseen⟩ | ⟨hat, hseen⟩
  · have hopen : s.cursor.currentTag.isOpening = true := by rw [eq_of_beq hat]; rfl
    exact readsGroup_paramSet.expect (fun e => by cases e) hopen hp htokens
      fun _ => seen_of_groupFollowedBy hseen
  · have hopen : s.cursor.currentTag.isOpening = true := by rw [eq_of_beq hat]; rfl
    exact readsGroup_paramSet.expect (fun e => by cases e) hopen hp htokens
      fun _ => seen_of_isParamList hseen

theorem expect_fatArrow {s s' : State} {params : ParamSet} (hp : Reader.paramSet s = .ok params s')
    (h : startsSigma s.cursor = true) : ∃ tok s'', expect .fatArrow s' = .ok tok s'' := by
  have htokens := (readsNested_paramSet s params s' hp).1
  rw [startsSigma, Bool.and_eq_true] at h
  have hopen : s.cursor.currentTag.isOpening = true := by rw [eq_of_beq h.1]; rfl
  exact readsGroup_paramSet.expect (fun e => by cases e) hopen hp htokens
    fun _ => seen_of_groupFollowedBy h.2

/-- **Counting brackets and reading them come to the same.**  Every reader passes properly bracketed
tokens; parentheses, arrays, parameter lists and blocks end behind the bracket that is found by counting;
and so the arrow that was seen behind parameters is there once they are read. -/
theorem readers_match_brackets :
    ((∀ ctx, ReadsNested (Reader.ofRules (Rules.expr · ctx))) ∧
      (∀ ctx, ReadsNested (Reader.ofRules (Rules.arrow · ctx))) ∧
      ReadsNested Reader.pattern ∧ ReadsNested Reader.atom ∧ ReadsNested Reader.paramSet ∧
      ReadsNested Reader.block ∧ ReadsNested Reader.decl) ∧
    ((∀ ctx, ReadsGroup (Reader.ofRules (parenthesized · ctx))) ∧
      (∀ ctx, ReadsGroup (Reader.ofRules (array · ctx))) ∧
      ReadsGroup Reader.paramSet ∧ ReadsGroup Reader.block) ∧
    ∀ s params s', Reader.paramSet s = .ok params s' →
      (startsParamList s.cursor = true → ∃ tok s'', expect .arrow s' = .ok tok s'') ∧
      (startsSigma s.cursor = true → ∃ tok s'', expect .fatArrow s' = .ok tok s'') := by
  refine ⟨⟨?_, ?_, ?_, ?_, readsNested_paramSet, ?_, ?_⟩, ⟨?_, ?_, readsGroup_paramSet, ?_⟩, ?_⟩
  · exact fun ctx => readsNested_ofRules rfl fun hk => (rules_agree hk hk).expr ctx
  · exact fun ctx => readsNested_ofRules rfl fun hk => (rules_agree hk hk).arrow ctx
  · exact readsNested_ofRules (p := fun _ => pattern) rfl fun _ => pattern_agrees
  · exact readsNested_ofRules (p := fun _ => atom) rfl fun _ => atom_agrees
  · exact readsNested_ofRules rfl fun hk => (rules_agree hk hk).block
  · exact readsNested_ofRules rfl fun hk => (decl_agrees (rules_agree hk hk)).mono (Nat.le_succ _)
  · exact fun ctx => readsGroup_node rfl ctx.nested fun found =>
      groupOrTuple found.items found.trailingComma
  · exact fun ctx => readsGroup_node rfl ctx.nested fun found => .array found.items
  · exact readsGroup_ofRules isGroup_of_block fun hk => (rules_agree hk hk).block
  · exact fun s params s' hp => ⟨expect_arrow hp, expect_fatArrow hp⟩

/-- A quoted name in parentheses, and the arrow behind it. -/
theorem quoted_param_matches :
    let s := State.start (.ofList [⟨.lparen, .dummy, .first⟩, ⟨.quote, .dummy, .first⟩,
      ⟨.ident .empty, .dummy, .first⟩, ⟨.rparen, .dummy, .first⟩, ⟨.arrow, .dummy, .first⟩]) .new
    startsParamList s.cursor = true ∧ ∃ params s', Reader.paramSet s = .ok params s' ∧
      (∃ close, s.cursor.matchingClose? s.cursor.position = some close ∧
        s'.cursor.position = close + 1) ∧
      ∃ tok s'', expect .arrow s' = .ok tok s'' := by
  intro s
  have hseen : startsParamList s.cursor = true := by decide +kernel
  have hopen : s.cursor.currentTag.isOpening = true := by decide +kernel
  have hok : (match Reader.paramSet s with | .ok _ _ => true | .error _ _ => false) = true := by
    decide +kernel
  cases hp : Reader.paramSet s with
  | error e s' =>
    rw [hp] at hok
    cases hok
  | ok params s' =>
    obtain ⟨-, ⟨-, -, hgroup, -⟩, hexpect⟩ := readers_match_brackets
    exact ⟨hseen, params, s', rfl, hgroup s params s' hopen hp, (hexpect s params s' hp).1 hseen⟩

end Grammar

end SolSyntax
