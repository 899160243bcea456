import SolSyntax.Proofs.Rows

/-!
# Lists side by side

A list has separators between its items and ends before a closing bracket.  Line breaks may lead out
of the common tokens only where there is no such bracket, so a list with its brackets agrees if its
items do.

Principal results: `sequence_meet` — the items; `bracketed_meet`, `braced_meet` — with the brackets.
-/

namespace SolSyntax.Grammar

open Parse

variable {α : Type} [Relocate α] {w : Window} {s t s₁ t₁ : State} {d k : Nat} {v : List Token}
  {x y : List (Outline Ref)} {ts : List (Outline TokenKind)}

/-! ## Items and separators -/

/-- Both runs have read what stands between items. -/
def Parted (w : Window) (s t : State) (d : Nat) (v : List Token) (sep : Separators) (c c' : Bool)
    (s' t' : State) : Prop :=
  c = c' ∧ ∃ u v', v = u ++ v' ∧ sep.Gap c u ∧ Both w s t d v' s' t' [] [] []

/-- What tells whether another item may come. -/
def Separator (w : Window) (sep : Separators) (p : Parse Bool) : Prop :=
  ∀ ⦃d v s t⦄, Aligned w d v s t → Meet w s t (fun _ => True) (Parted w s t d v sep) (p s) (p t)

section Sequences

variable {ph : Phrase} {view : α → Outline Ref} {p q : Parse α} {sep : Separators}
  {separator : Parse Bool} {close : Tag}

/-- The items found so far, last first, and whether a separator came last, are a list in front of the
tokens that are left. -/
def Listed (w : Window) (s t : State) (d : Nat) (v : List Token) (sep : Separators) (ph : Phrase)
    (view : α → Outline Ref) (found found' : List α × Bool) (v' : List Token) (s' t' : State) : Prop :=
  Same w found.1 found'.1 ∧ found.2 = found'.2 ∧ ∃ u ts, v = u ++ v' ∧
    Derives (.items sep ph found.2) u ts ∧
    Both w s t d v' s' t' (found.1.map view) (found'.1.map view) ts

theorem sequenceTurn_meet [Forward p] [Forward q] [Forward separator] (hclose : Tag.isInner close)
    (hph : ph.isSolid = true) (hsep : Separator w sep separator)
    (item : ∀ {v s t}, Aligned w d v s t → v.length < k →
      Meet w s t never (Found w s t d v ph (one view)) (p s) (q t))
    {found found' : List α × Bool} {v₁ : List Token} (hk : v.length < k)
    (more : found.1 = [] ∨ found.2 = true)
    (inv : Listed w s t d v sep ph view (found.1.reverse, found.2) (found'.1.reverse, found'.2) v₁ s₁ t₁) :
    Meet w s t (fun _ => True)
      (Meet.Turn
        (fun f f' v₂ s₂ t₂ => (f.1 = [] ∨ f.2 = true) ∧
          Listed w s t d v sep ph view (f.1.reverse, f.2) (f'.1.reverse, f'.2) v₂ s₂ t₂)
        (fun f f' s₂ t₂ => ∃ v₂,
          Listed w s t d v sep ph view (f.1.reverse, f.2) (f'.1.reverse, f'.2) v₂ s₂ t₂) v₁)
      (sequenceTurn close p separator found s₁) (sequenceTurn close q separator found' t₁) := by
  obtain ⟨hsame, hflag, u, ts, rfl, hD, b⟩ := inv
  rw [List.length_append] at hk
  refine (Peeks.check hclose).ite b ?_ ?_
  · intro s₂ t₂ _ b₂
    exact .ok ⟨v₁, hsame, hflag, u, ts, rfl, hD, b₂⟩
  · intro s₂ t₂ b₂
    refine ((item b₂.aligned (by omega)).base b₂.left.arena b₂.right.arena).bind' ?_
    rintro a a' s₃ t₃ ⟨haa, u₃, v₃, us, rfl, hDu, c₃⟩
    have b₃ := b₂.trans c₃
    have hsame' : Same w (a :: found.1).reverse (a' :: found'.1).reverse := by
      have := haa.cons hsame.reverse
      rw [List.reverse_reverse, List.reverse_reverse] at this
      exact this.reverse
    have hone : us.length = 1 := c₃.left.stores.length_eq
    have hts : ts = [] ∨ found.2 = true := by
      refine more.imp (fun h => ?_) id
      have := b.left.stores.length_eq
      simpa [h] using this
    have hnext := Derives.itemsNext hD hts hDu
    have hlen := List.length_pos_iff.2 (hDu.ne_nil hph)
    refine ((hsep b₃.aligned).base b₃.left.arena b₃.right.arena).bind ?_ ?_
    · rintro c c' s₄ t₄ ⟨rfl, u₄, v₄, rfl, hgap, c₄⟩
      have b₄ := b₃.trans c₄
      simp only [List.append_nil, one] at b₄
      cases hgap with
      | @next b₁ sb b₂' hb₁ hs hb₂ =>
        refine .ok ⟨v₄, ?_, .inr rfl, hsame', rfl, u ++ u₃ ++ b₁ ++ sb ++ b₂', ts ++ us, ?_, ?_, ?_⟩
        · simp only [List.length_append] at hk ⊢
          omega
        · simp only [List.append_assoc]
        · refine .itemsPad (.itemsSeparated (.itemsPad hnext hb₁) ?_ hs) hb₂
          intro h
          rw [(List.append_eq_nil_iff.1 h).2] at hone
          cases hone
        · simpa only [List.reverse_cons, List.map_append, List.map_cons, List.map_nil] using b₄
      | last hb =>
        refine .ok ⟨v₄, hsame', rfl, u ++ u₃ ++ u₄, ts ++ us, ?_, .itemsPad hnext hb, ?_⟩
        · simp only [List.append_assoc]
        · simpa only [List.reverse_cons, List.map_append, List.map_cons, List.map_nil] using b₄
    · rintro (_ | _) s' - hend
      · exact ⟨hend, trivial⟩
      · exact ⟨hend, trivial⟩

omit [Relocate α] in
theorem Dead.sequence [Dead p] (hclose : Tag.isInner close) : Dead (sequence close p separator) := by
  have := NotAtEnd.check hclose
  have : ∀ found, Dead (sequenceTurn close p separator found) := by
    intro found
    unfold sequenceTurn
    infer_instance
  unfold Grammar.sequence
  infer_instance

/-- A list agrees if its items and separators do.  It may stall only where a separator does. -/
theorem sequence_meet [Forward p] [Forward q] [Forward separator] [Dead p]
    (hclose : Tag.isInner close) (hph : ph.isSolid = true) (hsep : Separator w sep separator)
    (item : ∀ {v s t}, Aligned w d v s t → v.length < k →
      Meet w s t never (Found w s t d v ph (one view)) (p s) (q t))
    (al : Aligned w d v s t) (hk : v.length < k) :
    Meet w s t (fun _ => True)
      (fun found found' s' t' => ∃ v', Listed w s t d v sep ph view found found' v' s' t')
      (sequence close p separator s) (sequence close q separator t) := by
  have loop : Meet w s t (fun _ => True)
      (fun f f' s₂ t₂ => ∃ v₂,
          Listed w s t d v sep ph view (f.1.reverse, f.2) (f'.1.reverse, f'.2) v₂ s₂ t₂)
      (repeating (sequenceTurn close p separator) ([], false) s)
      (repeating (sequenceTurn close q separator) ([], false) t) := by
    have init : Listed w s t d v sep ph view ([], false) ([], false) v s t :=
      ⟨fun _ _ => rfl, rfl, [], [], rfl, .itemsNil sep ph, al.both⟩
    refine Meet.repeating (T := fun _ => True)
      (I := fun f f' v₂ s₂ t₂ => (f.1 = [] ∨ f.2 = true) ∧
        Listed w s t d v sep ph view (f.1.reverse, f.2) (f'.1.reverse, f'.2) v₂ s₂ t₂)
      ?_ (fun _ _ => trivial) ?_ al ⟨.inl rfl, init⟩
    · rintro f f' v₁ s₁ t₁ ⟨more, inv⟩
      exact sequenceTurn_meet hclose hph hsep item hk more inv
    · intro f s' _ hend
      have := NotAtEnd.check hclose
      show Stalled _ (sequenceTurn close p separator f s')
      unfold sequenceTurn
      exact Dead.stalled hend
  refine loop.bind ?_ ?_
  · rintro f f' s₁ t₁ ⟨v', h⟩
    exact .ok ⟨v', h⟩
  · intro f s' _ hend
    exact ⟨hend, trivial⟩

end Sequences

/-! ## The separators of the grammar -/

theorem commaSeparator_meet : Separator w .comma commaSeparator := by
  intro d v s t al
  unfold commaSeparator
  refine al.both.skip_bind ?_ ?_
  · intro u v₁ s₁ t₁ hv hu _ _ b₁
    refine b₁.accept_ite (by decide) ?_ ?_
    · intro c v₂ s₂ t₂ hv₁ hc b₂
      refine b₂.skip_bind ?_ ?_
      · intro u' v₃ s₃ t₃ hv₂ hu' _ _ b₃
        refine .ok ⟨rfl, u ++ [c] ++ u', v₃, ?_, .next hu ⟨c, rfl, hc⟩ hu', b₃⟩
        rw [hv, hv₁, hv₂]
        simp only [List.append_assoc, List.cons_append, List.nil_append]
      · intro s' hend
        exact ⟨hend, trivial⟩
    · intro s₂ t₂ b₂
      exact .ok ⟨rfl, u, v₁, hv, .last hu, b₂⟩
  · intro s' hend
    obtain ⟨s₁, hs, h₁⟩ := (NotAtEnd.accept (show Tag.isInner .comma by decide)).answer s' hend
    rw [bind_of_ok hs]
    exact ⟨h₁, trivial⟩

theorem breakSeparator_meet : Separator w .lines breakSeparator := by
  intro d v s t al
  obtain ⟨s₁, hs, ms⟩ := check_eq .newline s
  obtain ⟨t₁, ht, mt⟩ := check_eq .newline t
  have b := al.both.stay ms mt
  have skips : (v = [] → w.Differs) → headTag v = .newline ∨ v = [] →
      Meet w s t (fun _ => True) (Parted w s t d v .lines)
        ((skipNewlines >>= fun _ => pure true) s₁) ((skipNewlines >>= fun _ => pure true) t₁) := by
    intro hnil hv
    refine b.skip_bind ?_ fun s' hend => ⟨hend, trivial⟩
    intro u v' s₂ t₂ huv hu hhead hne b₂
    refine .ok ⟨rfl, u, v', huv, .of_separates ⟨?_, hu⟩, b₂⟩
    -- not even one line break can have been skipped only behind the common tokens
    rintro rfl
    rw [List.nil_append] at huv
    obtain hv | hv := hv
    · exact hhead (huv ▸ hv)
    · exact hne (hnil hv) (huv ▸ hv)
  have stays : Meet w s t (fun _ => True) (Parted w s t d v .lines) (pure (f := Parse) false s₁)
      (pure (f := Parse) false t₁) := .ok ⟨rfl, [], v, rfl, .last .nil, b⟩
  unfold breakSeparator
  rw [bind_of_ok hs, bind_of_ok ht]
  obtain ⟨tok, u, rfl, hsv, htv⟩ | ⟨rfl, hsv, htv⟩ := al.headTag_eq
  · rw [hsv, htv]
    by_cases htok : tok.tag = .newline
    · rw [htok]
      exact skips (fun h => by cases h) (.inl htok)
    · rw [beq_false_of_ne htok]
      exact stays
  · rw [hsv, htv]
    obtain ⟨hl, hr⟩ | ⟨hl, hr⟩ | ⟨hl, hr⟩ := w.cases_tails
    · rw [hl, hr]
      exact stays
    · rw [show headTag w.left = .newline from hl, show headTag w.right = .newline from hr]
      exact skips (fun _ => hr) (.inr rfl)
    · obtain ⟨t₂, ht₂, mt₂⟩ := skipNewlines_eq t₁
      rw [hl, show headTag w.right = .newline from hr]
      refine .ended ⟨hl, hr⟩ ?_ ?_ ⟨?_, trivial⟩
      · show s₁.cursor.rest.length ≤ _
        rw [b.aligned.left]
        exact Nat.le_refl _
      · show (final ((skipNewlines >>= fun _ => pure (f := Parse) true) t₁)).cursor.rest.length < _
        rw [bind_of_ok ht₂]
        show t₂.cursor.rest.length < _
        rw [rest_of_moved_takeWhile rfl mt₂, b.aligned.right]
        exact dropWhile_length_lt (fun t ht => by simp [ht]) hr
      · rw [isAtEnd_eq, b.aligned.left]
        simp [hl]

theorem eatSeparators_meet : Separator w .loose eatSeparators := by
  intro d v s t al
  obtain ⟨-, hl, hr⟩ | ⟨hl, hr, hleft, hright⟩ | ⟨hw, hend, hleft, hright⟩ :=
    w.cases_skip v (p := fun t => t.tag == .comma || t.tag == .newline) (fun t ht => by simp [ht])
      (fun t ht => by simp [ht])
  · rw [← al.left] at hl
    rw [← al.right] at hr
    obtain ⟨s₁, hs, ms⟩ := eatSeparators_eq s hl
    obtain ⟨t₁, ht, mt⟩ := eatSeparators_eq t hr
    rw [hs, ht]
    have hsplit := (List.takeWhile_append_dropWhile
      (p := fun t : Token => t.tag == .comma || t.tag == .newline) (l := v)).symm
    have hall : ∀ t ∈ v.takeWhile fun t : Token => t.tag == .comma || t.tag == .newline,
        t.tag = .comma ∨ t.tag = .newline := by
      intro t ht
      have := all_takeWhile t ht
      simpa using this
    have b := al.both
    rw [hsplit] at b
    have b' := b.step ms mt (nested_of_separators hall).closes.1
    refine .ok ⟨rfl, _, _, hsplit, ?_, b'⟩
    generalize v.takeWhile (fun t : Token => t.tag == .comma || t.tag == .newline) = u at hall
    cases u with
    | nil => exact .last .nil
    | cons tok u => exact .of_separates ⟨List.cons_ne_nil _ _, hall⟩
  · obtain ⟨s₁, hs, ms⟩ := eatSeparators_eq s rfl
    obtain ⟨t₁, ht, mt⟩ := eatSeparators_eq t rfl
    rw [hs, ht]
    refine .line hl hr ?_ ?_
    · show s₁.cursor.rest.length < _
      rwa [rest_of_moved_takeWhile rfl ms, al.left]
    · show t₁.cursor.rest.length < _
      rwa [rest_of_moved_takeWhile rfl mt, al.right]
  · obtain ⟨s₁, hs, ms⟩ := eatSeparators_eq s rfl
    obtain ⟨t₁, ht, mt⟩ := eatSeparators_eq t rfl
    rw [hs, ht]
    refine .ended hw ?_ ?_ ⟨?_, trivial⟩
    · show s₁.cursor.rest.length ≤ _
      rwa [rest_of_moved_takeWhile rfl ms, al.left]
    · show t₁.cursor.rest.length < _
      rwa [rest_of_moved_takeWhile rfl mt, al.right]
    · rw [isAtEnd_eq, rest_of_moved_takeWhile rfl ms, al.left, hend]
      rfl

/-! ## Brackets -/

section Groups

variable {ph : Phrase} {view : α → Outline Ref} {p q : Parse α} [Forward p] [Forward q] [Dead p]
  {close : Tag}

/-- Both runs have read a list up to the bracket that closes it. -/
def FoundList (w : Window) (s t : State) (d : Nat) (v : List Token) (close : Tag) (sep : Separators)
    (ph : Phrase) (view : α → Outline Ref) (R : List (Outline TokenKind) → Prop)
    (found found' : List α × Bool) (s' t' : State) : Prop :=
  found.2 = found'.2 ∧ ∃ u c v' ts, v = u ++ c :: v' ∧ c.tag = close ∧
    Derives (.items sep ph found.2) u ts ∧ R ts ∧
    Both w s t d v' s' t' (found.1.map view) (found'.1.map view) ts

/-- Items in brackets, with commas between them. -/
theorem bracketed_meet {o : Token} (hopen : o.tag.isOpening = true) (hclosing : close.isClosing = true)
    (hph : ph.isSolid = true)
    (item : ∀ {v s t}, Aligned w (d + 1) v s t → v.length < k →
      Meet w s t never (Found w s t (d + 1) v ph (one view)) (p s) (q t))
    (al : Aligned w d (o :: v) s t) (hk : v.length < k) :
    Meet w s t never
      (fun a b s' t' => Same w a b ∧ FoundList w s t d v close .comma ph view (fun _ => True)
        (a.items, a.trailingComma) (b.items, b.trailingComma) s' t')
      (bracketed close p s) (bracketed close q t) := by
  have hinner : Tag.isInner close := by
    constructor <;> rintro rfl <;> cases hclosing
  have : Dead (sequence close p commaSeparator) := .sequence hinner
  have := Dead.expectClosing hinner
  unfold bracketed
  refine al.both.advance_bind rfl (Tag.ne_eof_of_isOpening hopen) ?_
  intro s₁ t₁ b₁
  rw [Tag.depthFrom_of_isOpening hopen] at b₁
  refine b₁.skip_bind ?_ fun s' hend => Dead.stalled hend
  intro u v₁ s₂ t₂ hv hu _ _ b₂
  have hk₁ : v₁.length < k := by rw [hv, List.length_append] at hk; omega
  refine ((sequence_meet hinner hph commaSeparator_meet item b₂.aligned hk₁).base b₂.left.arena
    b₂.right.arena).bind ?_ fun _ s' _ hend => Dead.stalled hend
  rintro found found' s₃ t₃ ⟨v₂, hsame, hflag, u', ts, hv₁, hD, c₃⟩
  refine (b₂.trans c₃).expectClosing_bind hinner ?_
  intro c v₃ s₄ t₄ hv₂ hc b₄
  rw [Tag.depthFrom_of_isClosing hclosing, Nat.add_sub_cancel] at b₄
  refine .ok ⟨fun base hb => ?_, hflag, u ++ u', c, v₃, ts, ?_, hc, hD.breaks_items hu, trivial, b₄⟩
  · rw [hsame base hb, ← hflag]
    rfl
  · rw [hv, hv₁, hv₂, List.append_assoc]

/-- Items in braces, to which there may be an objection. -/
theorem braced_meet {sep : Separators} {separator : Parse Bool} [Forward separator]
    {finish : List α → Parse Unit} [∀ items, Forward (finish items)] [∀ items, Idle (finish items)]
    {R : List (Outline TokenKind) → Prop} (hph : ph.isSolid = true)
    (hsep : Separator w sep separator)
    (item : ∀ {v s t}, Aligned w (d + 1) v s t → v.length < k →
      Meet w s t never (Found w s t (d + 1) v ph (one view)) (p s) (q t))
    (hfinish : ∀ {items items' v' s' t' ts},
      Same w items items' → Both w s t (d + 1) v' s' t' (items.map view) (items'.map view) ts →
      Meet w s t never
        (fun _ _ s₂ t₂ => R ts ∧
          Both w s t (d + 1) v' s₂ t₂ (items.map view) (items'.map view) ts)
        (finish items s') (finish items' t'))
    (al : Aligned w d v s t) (hk : v.length ≤ k) :
    Meet w s t never
      (fun a b s' t' => Same w a b ∧ ∃ o v₁ separated, v = o :: v₁ ∧ o.tag = .lbrace ∧
        FoundList w s t d v₁ .rbrace sep ph view R (a.1, separated) (b.1, separated) s' t')
      (braced p separator finish s) (braced q separator finish t) := by
  have hinner : Tag.isInner .rbrace := by decide
  have : Dead (sequence .rbrace p separator) := .sequence hinner
  have := Dead.expectClosing hinner
  unfold braced
  refine al.both.expect_bind (by decide) ?_
  intro o v₁ s₁ t₁ hv ho b₁
  refine b₁.skip_bind ?_ fun s' hend => Dead.stalled hend
  intro u v₂ s₂ t₂ hv₁ hu _ _ b₂
  have hk₂ : v₂.length < k := by
    rw [hv, hv₁, List.length_cons, List.length_append] at hk
    omega
  refine ((sequence_meet hinner hph hsep item b₂.aligned hk₂).base b₂.left.arena
    b₂.right.arena).bind ?_ fun _ s' _ hend => Dead.stalled hend
  rintro found found' s₃ t₃ ⟨v₃, hsame, hflag, u', ts, hv₂, hD, c₃⟩
  refine (hfinish hsame (b₂.trans c₃)).bind' ?_
  rintro - - s₄ t₄ ⟨hR, b₄⟩
  refine b₄.expectClosing_bind (by decide) ?_
  intro c v₄ s₅ t₅ hv₃ hc b₅
  have hpair : Same w (found.1, o.span.merge c.span) (found'.1, o.span.merge c.span) :=
    hsame.map (fun items => (items, o.span.merge c.span)) fun _ _ => rfl
  refine .ok ⟨hpair, o, v₁, found.2, hv, ho, rfl, u ++ u', c, v₄, ts, ?_, hc, hD.breaks_items hu, hR,
    b₅⟩
  rw [hv₁, hv₂, hv₃, List.append_assoc]

omit [Relocate α] in
theorem noObjection_meet {items items' : List α} (b : Both w s t d v s₁ t₁ x y ts) :
    Meet w s t never (fun _ _ s₂ t₂ => True ∧ Both w s t d v s₂ t₂ x y ts)
      (noObjection items s₁) (noObjection items' t₁) := .ok ⟨trivial, b⟩

end Groups

end SolSyntax.Grammar
