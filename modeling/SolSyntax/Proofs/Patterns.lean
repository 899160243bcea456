import SolSyntax.Proofs.Rows

/-!
# Paths and patterns side by side

Principal results: `path_agrees`, `pattern_agrees`, `atom_agrees`.
-/

namespace SolSyntax.Grammar

open Outline (leaf node)
open Parse

variable {w : Window} {s t s₁ t₁ : State} {d k : Nat} {v : List Token} {x y : List (Outline Ref)}
  {ts : List (Outline TokenKind)}

/-! ## Identifiers and paths -/

theorem expectIdent_eq {tok : Token} (hi : tok.kind.isIdent = true) :
    ∃ i : Ident, i.tokenKind = tok.kind ∧ ∀ {s : State} {r : List Token}, s.cursor.rest = tok :: r →
      ∃ s', expectIdent s = .ok i s' ∧ Moved 1 s s' := by
  have he : tok.tag ≠ .eof := by
    intro he
    have := TokenKind.isPlain_of_isIdent hi
    rw [he] at this
    cases this
  have taken : ∀ i : Ident,
      (∀ {c : Cursor}, c.current = tok → c.expectIdent = (.ok i, c.advance.2)) →
      ∀ {s : State} {r : List Token}, s.cursor.rest = tok :: r →
        ∃ s', expectIdent s = .ok i s' ∧ Moved 1 s s' := by
    intro i hc s r h
    obtain ⟨s', hs, ms⟩ := advance_eq h he
    have hcur : s.cursor.current = tok := by rw [Cursor.current_eq, h]; rfl
    simp only [advance, step, EStateM.Result.ok.injEq] at hs
    obtain ⟨-, rfl⟩ := hs
    refine ⟨_, ?_, ms⟩
    rw [expectIdent, tryStep, hc hcur]
  cases hk : tok.kind with
  | ident name =>
    refine ⟨⟨name, .simple, tok.span⟩, rfl, taken _ fun hcur => ?_⟩
    simp only [Cursor.expectIdent, hcur, hk]
  | symbol name =>
    refine ⟨⟨name, .symbol, tok.span⟩, rfl, taken _ fun hcur => ?_⟩
    simp only [Cursor.expectIdent, hcur, hk]
  | _ =>
    rw [hk] at hi
    cases hi

theorem expectIdent_miss (h : (headToken s.cursor.rest).kind.isIdent = false) :
    ∃ e s', expectIdent s = .error (.error e) s' ∧ Moved 0 s s' := by
  rw [← Cursor.current_eq] at h
  simp only [expectIdent, tryStep, Cursor.expectIdent]
  cases hk : s.cursor.current.kind with
  | ident name =>
    rw [hk] at h
    cases h
  | symbol name =>
    rw [hk] at h
    cases h
  | _ => exact ⟨_, _, rfl, rfl, rfl, rfl, rfl⟩

theorem isIdent_of_headTag {r : List Token} (h : headTag r = .newline ∨ headTag r = .eof) :
    (headToken r).kind.isIdent = false := by
  cases r with
  | nil => rfl
  | cons tok r =>
    obtain ⟨kind, span, position⟩ := tok
    cases kind <;> first | rfl | (rcases h with h | h <;> cases h)

theorem ident_agrees : Agrees w k .ident (one Ident.view) expectIdent expectIdent := by
  intro d v s t al _
  by_cases hv : ∃ tok u, v = tok :: u ∧ tok.kind.isIdent = true
  · obtain ⟨tok, u, rfl, hi⟩ := hv
    obtain ⟨i, hik, taken⟩ := expectIdent_eq hi
    obtain ⟨s', hs, ms⟩ := taken al.left
    obtain ⟨t', ht, mt⟩ := taken al.right
    rw [hs, ht]
    have b := al.both.step (u := [tok]) ms mt
      fun h => Tag.depthFrom_of_isPlain (TokenKind.isPlain_of_isIdent hi) d ▸ h.2.2
    have b' := b.token tok.kind
    refine .ok ⟨fun _ _ => rfl, [tok], u, _, rfl, .ident hi, ?_⟩
    rw [one, Ident.view, hik]
    exact b'
  · have hmiss : (headToken s.cursor.rest).kind.isIdent = false ∧
        (headToken t.cursor.rest).kind.isIdent = false := by
      rw [al.left, al.right]
      cases v with
      | nil => exact ⟨isIdent_of_headTag w.left_tag, isIdent_of_headTag w.right_tag⟩
      | cons tok u =>
        have : tok.kind.isIdent = false := by
          rw [Bool.eq_false_iff]
          exact fun h => hv ⟨tok, u, rfl, h⟩
        exact ⟨this, this⟩
    obtain ⟨e, s', hs, ms⟩ := expectIdent_miss hmiss.1
    obtain ⟨e', t', ht, mt⟩ := expectIdent_miss hmiss.2
    rw [hs, ht]
    exact al.both.error ms mt

theorem segment_item :
    Item w k .segment Ident.view (fun _ => True) never (optionally (look isPathDot) segment)
      (optionally (look isPathDot) segment) := by
  refine optionally_item Peeks.isPathDot ?_
  intro d v s t al hk hv
  cases v with
  | nil => cases hv
  | cons tok u =>
    rw [List.length_cons] at hk
    refine al.both.advance_bind hv (fun e => by cases e) ?_
    intro s₁ t₁ b
    refine (ident_agrees (k := k)).tail b (by omega) ?_
    intro i i' u' v' us s₂ t₂ hi hu hD b'
    exact ⟨hi, tok :: u', v', us, by rw [hu]; rfl, .segment hv hD, b'⟩

theorem path_agrees : Agrees w k .path (one Path.view) path path := by
  intro d v s t al hk
  unfold path
  refine ident_agrees.bind al.both hk ?_
  intro i i' u v₁ us s₁ t₁ hi hv hD b
  rw [hv, List.length_append] at hk
  refine (many_agrees (k := k) rfl segment_item).bind b (by omega) ?_
  intro is is' u' v₂ us' s₂ t₂ his hv₁ hD' b'
  have hpath : Same w (Path.ofIdents i is) (Path.ofIdents i' is') :=
    hi.map₂ his Path.ofIdents fun m i is => by rw [show relocate m is = is from List.map_id is]; rfl
  refine .ok ⟨hpath, u ++ u', v₂, _, by rw [hv, hv₁, List.append_assoc], .path hD hD', ?_⟩
  rw [one, one, Path.view, Path.view, Path.segments_ofIdents, Path.segments_ofIdents]
  exact b'.wrap .path

/-! ## Patterns -/

/-- A pattern that has been stored, in both runs. -/
theorem Both.found_pattern {ph : Phrase} {kind kind' : PatternKind} {sp sp' : Span}
    {o : Outline TokenKind} {u v' : List Token}
    (hv : v = u ++ v') (hD : Derives ph u [o]) (hkind : Same w kind kind') (hsp : Same w sp sp')
    (b : Both w s t d v' s₁ t₁ [kind.view] [kind'.view] [o]) :
    Meet w s t never (Found w s t d v ph (one PatternId.view)) (Grammar.newPattern kind sp s₁)
      (Grammar.newPattern kind' sp' t₁) :=
  b.newPattern hkind hsp fun hid b => ⟨hid, u, v', _, hv, hD, b⟩

section Atoms

variable {p q : Parse PatternId} [Forward p] [Forward q] [Dead p]

theorem patternPath_agrees :
    Agrees w k .atom (one PatternId.view) patternPath patternPath := by
  intro d v s t al hk
  unfold patternPath
  refine path_agrees.part al.both hk ?_
  intro path path' u v₁ o s₁ t₁ hpath hv hD b
  have b' := b.trans ((Aligned.both b.aligned).wrap .row)
  have hkind := hpath.map (PatternKind.constructor · []) fun _ _ => rfl
  have hsp := hpath.map Path.span fun _ _ => rfl
  refine Both.found_pattern hv (.pathPattern hD) hkind hsp ?_
  exact b'.wrap .constructorPattern

/-- A pattern in parentheses agrees if the pattern does. -/
theorem patternGroup_meet (hp : Agrees w k .pattern (one PatternId.view) p q) {o : Token}
    (ho : o.tag = .lparen) (al : Aligned w d (o :: v) s t) (hk : v.length < k) :
    Meet w s t never (Found w s t d (o :: v) .atom (one PatternId.view)) (patternGroup p s)
      (patternGroup q t) := by
  have hinner : Tag.isInner .rparen := by decide
  have := Dead.expectClosing hinner
  unfold patternGroup
  refine al.both.advance_bind ho (fun e => by cases e) ?_
  intro s₁ t₁ b₁
  refine b₁.skip_bind ?_ fun s' hend => Dead.stalled hend
  intro u₁ v₁ s₂ t₂ hv hu₁ _ _ b₂
  rw [hv, List.length_append] at hk
  refine hp.part b₂ (by omega) ?_
  intro id id' u₂ v₂ i s₃ t₃ hid hv₁ hD b₃
  refine b₃.skip_bind ?_ fun s' hend => Dead.stalled hend
  intro u₃ v₃ s₄ t₄ hv₂ hu₃ _ _ b₄
  refine b₄.expectClosing_bind hinner ?_
  intro c v₄ s₅ t₅ hv₃ hc b₅
  have hall : o :: v = o :: (u₁ ++ u₂ ++ u₃ ++ [c]) ++ v₄ := by simp [hv, hv₁, hv₂, hv₃]
  refine Both.found_pattern hall (.groupPattern ho hc hu₁ hu₃ hD) (hid.map PatternKind.group fun _ _ => rfl)
    (fun _ _ => rfl) ?_
  exact b₅.wrap .groupPattern

/-- What neither a line break nor the end is. -/
theorem atomOf_of_edge {p : Parse PatternId} {a : Token} (h : a.tag = .newline ∨ a.tag = .eof) :
    atomOf p a = failWanting .patternStart .expectedPattern := by
  obtain ⟨kind, span, position⟩ := a
  cases kind <;> first | rfl | (rcases h with h | h <;> cases h)

/-- An atom agrees if the pattern in its parentheses does. -/
theorem atomWith_agrees (hp : Agrees w k .pattern (one PatternId.view) p q) :
    Agrees w (k + 1) .atom (one PatternId.view) (atomWith p) (atomWith q) := by
  intro d v s t al hk
  unfold atomWith
  refine al.both.current_bind ?_ ?_
  · rintro tok u rfl
    unfold atomOf
    cases hl : tok.kind.literal? with
    | some l =>
      have hplain := TokenKind.isPlain_of_literal? hl
      refine al.both.advance_bind rfl (Tag.ne_eof_of_isPlain hplain) ?_
      intro s₁ t₁ b
      rw [Tag.depthFrom_of_isPlain hplain] at b
      refine Both.found_pattern List.singleton_append.symm (.literalPattern hl) (fun _ _ => rfl)
        (fun _ _ => rfl) ?_
      rw [PatternKind.view, Literal.view, TokenKind.tokenKind_literal? hl]
      exact (b.token tok.kind).wrap .literalPattern
    | none =>
      cases htok : tok.kind with
      | ident name => exact patternPath_agrees al hk
      | symbol name => exact patternPath_agrees al hk
      | dotDot =>
        have htag : tok.tag = .dotDot := by rw [Token.tag, htok]; rfl
        refine al.both.advance_bind htag (fun e => by cases e) ?_
        intro s₁ t₁ b
        refine Both.found_pattern List.singleton_append.symm (.restPattern htag) (fun _ _ => rfl)
          (fun _ _ => rfl) ?_
        exact b.wrap .restPattern
      | lparen =>
        have htag : tok.tag = .lparen := by rw [Token.tag, htok]; rfl
        rw [List.length_cons] at hk
        exact patternGroup_meet hp htag al (by omega)
      | _ => exact al.both.failWanting
  · intro hv a a' ha ha'
    rw [atomOf_of_edge (ha ▸ w.left_tag), atomOf_of_edge (ha' ▸ w.right_tag)]
    exact al.both.failWanting

theorem patternApplication_agrees (hp : Agrees w k .pattern (one PatternId.view) p q) :
    Agrees w (k + 1) .pattern (one PatternId.view) (patternApplication p) (patternApplication q) := by
  intro d v s t al hk
  unfold patternApplication
  refine path_agrees.part al.both hk ?_
  intro path path' u v₁ o s₁ t₁ hpath hv hD b
  rw [hv, List.length_append] at hk
  have peeks : Peeks w _ (checkSet .patternStart) := .checkSet rfl rfl
  have item := optionally_item peeks fun al hk _ => atomWith_agrees hp al hk
  refine (many_agrees rfl item).bindRow b (by omega) ?_
  intro as as' u' v₂ us' s₂ t₂ has hv₁ hD' b'
  have hall : v = u ++ u' ++ v₂ := by rw [hv, hv₁, List.append_assoc]
  have hne : u ++ u' ≠ [] := List.append_ne_nil_of_left_ne_nil (hD.ne_nil rfl) u'
  refine b'.spanFrom_bind al hall hne (hpath.map Path.span fun _ _ => rfl) fun sp sp' hsp => ?_
  refine Both.found_pattern hall (.appliedPattern hD hD') (hpath.map₂ has PatternKind.constructor fun _ _ _ => rfl)
    hsp ?_
  exact b'.wrap .constructorPattern

theorem patternWith_agrees (hp : Agrees w k .pattern (one PatternId.view) p q) :
    Agrees w (k + 1) .pattern (one PatternId.view) (patternWith p) (patternWith q) :=
  (Peeks.checkSet rfl rfl).choose (fun al hk _ => patternApplication_agrees hp al hk)
    ((atomWith_agrees hp).of_derives .atomPattern)

end Atoms

theorem patternAt_agrees {n m : Nat} (hn : k ≤ n) (hm : k ≤ m) :
    Agrees w k .pattern (one PatternId.view) (patternAt n) (patternAt m) := by
  induction k generalizing n m with
  | zero =>
    intro d v s t _ hk
    omega
  | succ k ih =>
    obtain _ | n := n
    · omega
    obtain _ | m := m
    · omega
    exact patternWith_agrees (ih (by omega) (by omega))

/-- Patterns agree; the bounds on their nesting are not reached. -/
theorem pattern_agrees : Agrees w k .pattern (one PatternId.view) pattern pattern := by
  intro d v s t al _
  obtain ⟨hs, ht⟩ := al.length_lt_bound
  exact patternAt_agrees (k := v.length + 1) hs ht al (Nat.lt_succ_self _)

theorem atom_agrees : Agrees w k .atom (one PatternId.view) atom atom := by
  intro d v s t al _
  obtain ⟨hs, ht⟩ := al.length_lt_bound
  exact atomWith_agrees (k := v.length + 1) (patternAt_agrees hs ht) al (by omega)

end SolSyntax.Grammar
