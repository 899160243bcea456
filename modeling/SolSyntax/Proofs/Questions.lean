import SolSyntax.Proofs.Steps

/-!
# Questions side by side

The questions that look further than the next token have the same answers in two runs that stand
before the same tokens.  A scan for a closing bracket ends within these, because they close all
brackets; a scan over the rest of a line ends at the line break after them at the latest; and no
`else` comes behind that line break.

Principal results: the lemmas on `Peeks`; `Aligned.isAnnotated_eq`, `Aligned.isTightDot_eq` — the
questions whose answers need more than that.
-/

namespace SolSyntax.Grammar

variable {w : Window} {s t : State} {d : Nat} {v : List Token}

/-! ## Beyond the common tokens -/

theorem groupThen_append {o : Token} {v r : List Token} {d : Nat} {tag : Tag}
    (h : Closes d (o :: v)) (ho : o.tag.isOpening = true) (ht : Tag.isInner tag)
    (hr : headTag r = .newline ∨ headTag r = .eof) :
    groupThen tag (o :: v ++ r) = groupThen tag (o :: v) := by
  obtain ⟨u, x, hsplit⟩ := groupSplit_of_isOpening h ho
  have hnil := hsplit []
  rw [List.append_nil, List.append_nil] at hnil
  rw [groupThen, groupThen, hsplit, hnil]
  exact headTag_append_beq ht hr

theorem holdsParams_append {o : Token} {v r : List Token} {d : Nat} (h : Closes d (o :: v))
    (ho : o.tag.isOpening = true) (hr : headTag r = .newline ∨ headTag r = .eof) :
    holdsParams (o :: v ++ r) = holdsParams (o :: v) := by
  obtain ⟨u, x, hsplit⟩ := groupSplit_of_isOpening h ho
  have hnil := hsplit []
  rw [List.append_nil, List.append_nil] at hnil
  have hquote : (headTag (v ++ r) == .quote) = (headTag v == .quote) :=
    headTag_append_beq (by decide) hr
  have harrow : (headTag (x ++ r) == .arrow) = (headTag x == .arrow) :=
    headTag_append_beq (by decide) hr
  rw [holdsParams, holdsParams, hsplit, hnil]
  simp only [harrow, List.cons_append, List.drop_one, List.tail_cons, hquote]

/-- A scan gives the same in both runs, if it does not see what comes after the common tokens, or
if there is nothing but the end and it sees no line break there. -/
theorem Aligned.scan_eq (al : Aligned w d v s t) {f : List Token → α}
    (h : Closes d v → ∀ r, headTag r = .newline ∨ headTag r = .eof → f (v ++ r) = f v)
    (hf : EndBlind f) : f s.cursor.rest = f t.cursor.rest := by
  rw [al.left, al.right]
  by_cases hbare : w.IsBare
  · obtain ⟨e, n, e', he, hn, he', hl, hr⟩ := hbare
    rw [hl, hr]
    exact hf v e n e' he hn he'
  · have closed : w.Differs → f (v ++ w.left) = f (v ++ w.right) := by
      intro hw
      rw [h (al.closes hw hbare) _ w.left_tag, h (al.closes hw hbare) _ w.right_tag]
    obtain ⟨hl, hr⟩ | ⟨-, hw⟩ | ⟨-, hw⟩ := w.cases_tails
    · rw [hl, hr]
    · exact closed hw
    · exact closed hw

/-- A question that first asks for the next tag. -/
theorem Peeks.guarded {tag : Tag} (ht : Tag.isInner tag) {q : Cursor → Bool} {f : List Token → Bool}
    (hq : ∀ c : Cursor, q c = f c.rest)
    (h : ∀ {d o v r}, o.tag = tag → Closes d (o :: v) →
      headTag r = .newline ∨ headTag r = .eof → f (o :: v ++ r) = f (o :: v)) (hf : EndBlind f) :
    Peeks w (fun v => headTag v = tag) (Parse.look fun c => c.isAt tag && q c) := by
  refine Peeks.look fun {d v s t} al => ?_
  rw [Cursor.isAt_eq, Cursor.isAt_eq, (al.headTag_beq ht).1, (al.headTag_beq ht).2, hq, hq]
  by_cases hv : headTag v = tag
  · refine ⟨?_, fun _ => hv⟩
    cases v with
    | nil => exact absurd hv.symm ht.2
    | cons o v => rw [al.scan_eq (fun hc r hr => h hv hc hr) hf]
  · rw [beq_false_of_ne hv]
    exact ⟨rfl, fun h => by cases h⟩

/-- The one question or the other. -/
theorem Peeks.either {P R : List Token → Prop} {q q' : Cursor → Bool}
    (h : Peeks w P (Parse.look q)) (h' : Peeks w R (Parse.look q')) :
    Peeks w (fun v => P v ∨ R v) (Parse.look fun c => q c || q' c) := by
  refine Peeks.look fun {d v s t} al => ?_
  obtain ⟨c, s₁, t₁, hs, ht, -, -, hp⟩ := h al
  obtain ⟨c', s₂, t₂, hs', ht', -, -, hp'⟩ := h' al
  cases hs
  cases hs'
  simp only [Parse.look, EStateM.Result.ok.injEq] at ht ht'
  rw [ht.1, ht'.1]
  refine ⟨rfl, fun h => ?_⟩
  cases hc : q s.cursor with
  | true => exact .inl (hp hc)
  | false =>
    rw [hc, Bool.false_or] at h
    exact .inr (hp' h)

/-! ## The questions of the grammar -/

theorem Peeks.groupFollowedBy {tag follow : Tag} (ht : Tag.isInner tag) (ho : tag.isOpening = true)
    (hf : Tag.isInner follow) :
    Peeks w (fun v => headTag v = tag)
      (Parse.look fun c => c.isAt tag && c.groupFollowedBy follow) :=
  Peeks.guarded ht (fun c => c.groupFollowedBy_eq follow)
    (fun hot hc hr => groupThen_append hc (by rw [hot]; exact ho) hf hr)
    (groupThen_endBlind hf.1 hf.2)

theorem Peeks.startsSigma : Peeks w (fun v => headTag v = .lbracket) (Parse.look startsSigma) :=
  Peeks.groupFollowedBy (by decide) rfl (by decide)

theorem Peeks.startsParamList :
    Peeks w (fun v => headTag v = .lbrace ∨ headTag v = .lparen) (Parse.look startsParamList) :=
  Peeks.either (Peeks.groupFollowedBy (by decide) rfl (by decide))
    (Peeks.guarded (by decide) Cursor.isParamList_eq
      (fun hot hc hr => holdsParams_append hc (by rw [hot]; rfl) hr) holdsParams_endBlind)

theorem Peeks.startsImplicitParams :
    Peeks w (fun v => headTag v = .lbrace) (Parse.look startsImplicitParams) := by
  refine Peeks.guarded (f := fun ts => [Tag.lparen, .lbracket, .lbrace, .colon].any (groupThen · ts))
    (by decide) (fun c => ?_) (fun {d o v r} hot hc hr => ?_) fun v e n e' he hn he' => ?_
  · exact congrArg _ (funext fun tag => c.groupFollowedBy_eq tag)
  · have ho : o.tag.isOpening = true := by rw [hot]; rfl
    have heq : ∀ tag : Tag, Tag.isInner tag →
        groupThen tag (o :: v ++ r) = groupThen tag (o :: v) :=
      fun _ ht => groupThen_append hc ho ht hr
    simp only [List.any_cons, List.any_nil, heq .lparen (by decide), heq .lbracket (by decide),
      heq .lbrace (by decide), heq .colon (by decide)]
  · have heq : ∀ tag : Tag, tag ≠ .newline → tag ≠ .eof →
        groupThen tag (v ++ [e]) = groupThen tag (v ++ [n, e']) :=
      fun _ ht ht' => groupThen_endBlind ht ht' v e n e' he hn he'
    simp only [List.any_cons, List.any_nil, heq .lparen (by decide) (by decide),
      heq .lbracket (by decide) (by decide), heq .lbrace (by decide) (by decide),
      heq .colon (by decide) (by decide)]

/-- The second question is asked if the first is answered with no. -/
theorem Peeks.orElse {P R : List Token → Prop} {p q : Parse Bool} (h : Peeks w P p) (h' : Peeks w R q) :
    Peeks w (fun _ => True) (p >>= fun c => if c = true then pure true else q) := by
  intro d v s t al
  obtain ⟨c, s₁, t₁, hs, ht, ms, mt, -⟩ := h al
  rw [bind_of_ok hs, bind_of_ok ht]
  cases c with
  | true => exact ⟨true, s₁, t₁, rfl, rfl, ms, mt, fun _ => trivial⟩
  | false =>
    obtain ⟨c', s₂, t₂, hs', ht', ms', mt', -⟩ := h' (al.both.stay ms mt).aligned
    exact ⟨c', s₂, t₂, hs', ht', ms.trans ms', mt.trans mt', fun _ => trivial⟩

theorem Peeks.startsDeclParams : Peeks w (fun _ => True) startsDeclParams :=
  (Peeks.check (by decide)).orElse ((Peeks.check (by decide)).orElse Peeks.startsImplicitParams)

theorem Peeks.isClauseLine : Peeks w (fun _ => True) (Parse.look isClauseLine) := by
  refine Peeks.look fun {d v s t} al => ⟨?_, fun _ => trivial⟩
  rw [Grammar.isClauseLine, Grammar.isClauseLine, Cursor.lineHas_eq, Cursor.lineHas_eq]
  refine al.scan_eq (f := fun ts => lineHasIn .eq (.single .lbrace) ts 0) (fun hc r hr => ?_)
    (lineHasIn_endBlind (by decide) _ 0)
  rw [← Nat.zero_add d] at hc
  exact lineHasIn_append hc hr (by decide)

theorem Peeks.endsLine :
    Peeks w (fun v => headTag v = .newline ∨ headTag v = .eof) (Parse.look endsLine) := by
  refine Peeks.look fun {d v s t} al => ?_
  simp only [Grammar.endsLine, Cursor.isAtEnd, Cursor.isAt_eq]
  obtain ⟨tok, u, rfl, hs, ht⟩ | ⟨rfl, hs, ht⟩ := al.headTag_eq
  · rw [hs, ht]
    exact ⟨rfl, by simp⟩
  · rw [hs, ht]
    refine ⟨?_, fun _ => .inr rfl⟩
    obtain ⟨hl | hl, hr | hr⟩ := headTag_tail w <;> rw [hl, hr] <;> rfl

theorem Peeks.continuesLine : Peeks w (fun _ => True) (Parse.look continuesLine) := by
  refine Peeks.look fun {d v s t} al => ⟨?_, fun _ => trivial⟩
  obtain ⟨c, s₁, t₁, hs, ht, -⟩ := Peeks.endsLine al
  cases hs
  simp only [Parse.look, EStateM.Result.ok.injEq] at ht
  rw [Grammar.continuesLine, Grammar.continuesLine, ht.1]

/-- Whether an `else` comes next, perhaps after line breaks. -/
theorem Peeks.startsElse :
    Peeks w (fun v => ∃ b e u, v = b ++ e :: u ∧ AllBreaks b ∧ e.tag = .kwElse)
      (Parse.look fun c => c.tagPastNewlines == .kwElse) := by
  refine Peeks.look fun {d v s t} al => ?_
  rw [Cursor.tagPastNewlines_eq, Cursor.tagPastNewlines_eq, al.left, al.right]
  have hsplit := List.takeWhile_append_dropWhile (p := (·.tag == Tag.newline)) (l := v)
  rw [skipBreaks_append_ite, skipBreaks_append_ite]
  cases hv : skipBreaks v with
  | nil =>
    rw [if_pos rfl, if_pos rfl]
    have hno : (headTag (skipBreaks w.left) == .kwElse) = false ∧
        (headTag (skipBreaks w.right) == .kwElse) = false := by
      obtain ⟨a, b, h, -, -, -⟩ := w
      cases h with
      | none => exact ⟨rfl, rfl⟩
      | line _ _ _ ha hb => exact ⟨beq_false_of_ne ha, beq_false_of_ne hb⟩
      | ended ha _ hb =>
        refine ⟨?_, beq_false_of_ne hb⟩
        cases a with
        | nil => rfl
        | cons tok a =>
          rw [headTag_cons] at ha
          simp [skipBreaks, ha]
    rw [hno.1, hno.2]
    exact ⟨rfl, fun h => by cases h⟩
  | cons e u =>
    rw [if_neg (List.cons_ne_nil _ _), if_neg (List.cons_ne_nil _ _)]
    refine ⟨rfl, fun he => ⟨_, e, u, ?_, allBreaks_takeWhile v, ?_⟩⟩
    · exact hsplit.symm.trans (congrArg _ hv)
    · simpa using he

/-! ## Points -/

/-- Behind the last common token both runs see the same span, unless the left one ends there. -/
theorem Aligned.nextSpan_eq (al : Aligned w d v s t) (hv : v ≠ [])
    (hw : w.IsEnded → v.tail ≠ []) : s.cursor.nextSpan = t.cursor.nextSpan := by
  rw [Cursor.nextSpan_eq, Cursor.nextSpan_eq, al.left, al.right]
  obtain ⟨a, b, h, _, _, _⟩ := w
  cases v with
  | nil => exact absurd rfl hv
  | cons tok u =>
    cases u with
    | cons tok' u => rfl
    | nil =>
      cases h with
      | none => rfl
      | @line a b ha hb hspan =>
        cases a with
        | nil => cases ha
        | cons x a =>
          cases b with
          | nil => cases hb
          | cons y b => exact hspan
      | ended ha hb => exact absurd rfl (hw ⟨ha, hb⟩)

/-- A point at the cursor touches both its neighbours in both runs, or in neither, unless it is the
last common token and the left list ends there. -/
theorem Aligned.isTightDot_eq (al : Aligned w d v s t) (hv : headTag v = .dot)
    (hw : w.IsEnded → v.tail ≠ []) : isTightDot s.cursor = isTightDot t.cursor := by
  have hne : v ≠ [] := by
    rintro rfl
    cases hv
  have hcur : s.cursor.current = t.cursor.current := by
    rw [Cursor.current_eq, Cursor.current_eq, al.left, al.right]
    cases v with
    | nil => exact absurd rfl hne
    | cons tok u => rfl
  rw [isTightDot, isTightDot, al.dot hv, hcur, al.nextSpan_eq hne hw]

/-- A point at the cursor touches both its neighbours in both runs, or in neither, or both have come
to a point that is the last common token. -/
theorem Aligned.cases_isTightDot {tok : Token} {u : List Token} (al : Aligned w d (tok :: u) s t)
    (htok : tok.tag = .dot) :
    isTightDot s.cursor = isTightDot t.cursor ∨ w.IsEnded ∧ w.pointed = true ∧ u = [] := by
  by_cases hu : u = []
  · by_cases hw : w.IsEnded
    · cases hp : w.pointed with
      | true => exact .inr ⟨hw, rfl, hu⟩
      | false => exact absurd htok (al.lastDot hw hp tok (by rw [hu]; rfl))
    · exact .inl (al.isTightDot_eq htok fun h => absurd h hw)
  · exact .inl (al.isTightDot_eq htok fun _ => hu)

theorem Peeks.isPathDot : Peeks w (fun v => headTag v = .dot) (Parse.look isPathDot) := by
  refine Peeks.look fun {d v s t} al => ?_
  have hparts : ∀ c : Cursor, Grammar.isPathDot c = (c.isAt .dot &&
      (TagSet.identStart.contains (c.peekTag 1) && isTightDot c)) := by
    intro c
    rw [Grammar.isPathDot, isTightDot]
    simp only [Bool.and_assoc]
  rw [hparts, hparts, Cursor.isAt_eq, Cursor.isAt_eq, (al.headTag_beq (by decide)).1,
    (al.headTag_beq (by decide)).2]
  by_cases hv : headTag v = .dot
  · refine ⟨?_, fun _ => hv⟩
    rw [Cursor.peekTag_one, Cursor.peekTag_one, al.left, al.right]
    cases v with
    | nil => cases hv
    | cons tok u =>
      cases u with
      | cons tok' u =>
        rw [al.isTightDot_eq hv fun _ => List.cons_ne_nil _ _]
        rfl
      | nil =>
        have hno : TagSet.identStart.contains (headTag w.left) = false ∧
            TagSet.identStart.contains (headTag w.right) = false := by
          obtain ⟨hl | hl, hr | hr⟩ := headTag_tail w <;> rw [hl, hr] <;> exact ⟨rfl, rfl⟩
        show (_ && (TagSet.identStart.contains (headTag w.left) && _)) =
          (_ && (TagSet.identStart.contains (headTag w.right) && _))
        rw [hno.1, hno.2]
        simp only [Bool.false_and, Bool.and_false]
  · rw [beq_false_of_ne hv]
    exact ⟨rfl, fun h => by cases h⟩

/-! ## Parameters -/

/-- Inside brackets, whether a parameter has a type does not depend on what comes after the common
tokens. -/
theorem Aligned.isAnnotated_eq (al : Aligned w d v s t) (hd : 0 < d) :
    isAnnotated s.cursor = isAnnotated t.cursor := by
  rw [Cursor.isAnnotated_eq, Cursor.isAnnotated_eq]
  refine al.scan_eq (f := fun ts => annotatedIn ts 0) (fun hc r _ => ?_) (annotatedIn_endBlind 0)
  rw [← Nat.zero_add d] at hc
  exact annotatedIn_append hc hd r

end SolSyntax.Grammar
