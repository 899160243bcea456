import SolSyntax.Proofs.Ends
import SolSyntax.Proofs.Questions

/-!
# Phrases and rows side by side

`Agrees` is what a production owes: run twice before the same tokens it ends alike, and where it
succeeds both runs have read the same phrase and stored the same outlines.

Principal results: `Agrees.bind` — a production made of others; `many_meet`, `many_agrees` — rows of
phrases; `optionally_item`, `before_item`, `accept_item` — what tells whether a row goes on.
-/

namespace SolSyntax.Grammar

open Outline (leaf node)
open Parse

/-! ## What a production owes -/

variable {α : Type} [Relocate α] {w : Window} {s t s₁ t₁ : State} {d k : Nat} {v : List Token}
  {x y : List (Outline Ref)} {ts : List (Outline TokenKind)}

/-- Both runs have read the same phrase and stored the same outlines. -/
def Found (w : Window) (s t : State) (d : Nat) (v : List Token) (ph : Phrase)
    (view : α → List (Outline Ref)) (a b : α) (s' t' : State) : Prop :=
  Same w a b ∧
    ∃ u v' ts, v = u ++ v' ∧ Derives ph u ts ∧ Both w s t d v' s' t' (view a) (view b) ts

/-- Before fewer than `k` common tokens two productions read the same phrase, or fail alike. -/
def Agrees (w : Window) (k : Nat) (ph : Phrase) (view : α → List (Outline Ref)) (p q : Parse α) :
    Prop :=
  ∀ ⦃d v s t⦄, Aligned w d v s t → v.length < k →
    Meet w s t never (Found w s t d v ph view) (p s) (q t)

/-- A piece of syntax with one view. -/
def one (view : α → Outline Ref) (a : α) : List (Outline Ref) := [view a]

theorem Agrees.mono {j : Nat} {ph : Phrase} {view : α → List (Outline Ref)} {p q : Parse α}
    (h : Agrees w k ph view p q) (hj : j ≤ k) : Agrees w j ph view p q :=
  fun _ _ _ _ al hk => h al (Nat.lt_of_lt_of_le hk hj)

/-- A phrase of one kind may be one of another. -/
theorem Agrees.of_derives {ph ph' : Phrase} {view : α → List (Outline Ref)} {p q : Parse α}
    (h : Agrees w k ph view p q) (hph : ∀ {u us}, Derives ph u us → Derives ph' u us) :
    Agrees w k ph' view p q := by
  intro d v s t al hk
  refine (h al hk).mono (fun _ h => h) ?_
  rintro a b s' t' ⟨hab, u, v', us, hv, hD, hb⟩
  exact ⟨hab, u, v', us, hv, hph hD, hb⟩

/-- A phrase that is found after looking around. -/
theorem Both.found {ph : Phrase} {view : α → List (Outline Ref)} {r r' : Outcome α}
    (b : Both w s t d v s₁ t₁ [] [] [])
    (h : Meet w s₁ t₁ never (Found w s₁ t₁ d v ph view) r r') :
    Meet w s t never (Found w s t d v ph view) r r' := by
  refine (h.base b.left.arena b.right.arena).mono (fun _ h => h) ?_
  rintro a a' s' t' ⟨haa, u, v', us, hv, hD, hb⟩
  exact ⟨haa, u, v', us, hv, hD, b.trans hb⟩

/-- A question that decides what is read. -/
theorem Peeks.choose {P : List Token → Prop} {test : Parse Bool} {ph : Phrase}
    {view : α → List (Outline Ref)} {p p' q q' : Parse α} (h : Peeks w P test)
    (yes : ∀ {d v s t}, Aligned w d v s t → v.length < k → P v →
      Meet w s t never (Found w s t d v ph view) (p s) (p' t))
    (no : Agrees w k ph view q q') :
    Agrees w k ph view (test >>= fun c => if c = true then p else q)
      (test >>= fun c => if c = true then p' else q') := by
  intro d v s t al hk
  refine h.ite al.both ?_ ?_
  · intro s₁ t₁ hv b
    exact b.found (yes b.aligned hk hv)
  · intro s₁ t₁ b
    exact b.found (no b.aligned hk)

theorem Agrees.within {ph : Phrase} {view : α → List (Outline Ref)} {p q : Parse α}
    (h : Agrees w k ph view p q) (what : Construct) :
    Agrees w k ph view (within what p) (within what q) := fun _ _ _ _ al hk => (h al hk).within

section Sequencing

variable {ph : Phrase} {view : α → List (Outline Ref)} {p q : Parse α} {f g : α → Parse β}
  {S : β → Prop} {Q : β → β → State → State → Prop}

/-- Going on behind a part. -/
theorem Agrees.bind [∀ a, Forward (f a)] [∀ a, Forward (g a)] (h : Agrees w k ph view p q)
    (b : Both w s t d v s₁ t₁ x y ts) (hk : v.length < k)
    (next : ∀ {a a' u v' us s₂ t₂}, Same w a a' → v = u ++ v' → Derives ph u us →
      Both w s t d v' s₂ t₂ (x ++ view a) (y ++ view a') (ts ++ us) →
      Meet w s t S Q (f a s₂) (g a' t₂)) :
    Meet w s t S Q ((p >>= f) s₁) ((q >>= g) t₁) := by
  refine ((h b.aligned hk).base b.left.arena b.right.arena).bind' ?_
  rintro a a' s₂ t₂ ⟨haa, u, v', us, hv, hD, hb⟩
  exact next haa hv hD (b.trans hb)

/-- Going on behind a part with one outline. -/
theorem Agrees.part {view : α → Outline Ref} [∀ a, Forward (f a)] [∀ a, Forward (g a)]
    (h : Agrees w k ph (one view) p q) (b : Both w s t d v s₁ t₁ x y ts) (hk : v.length < k)
    (next : ∀ {a a' u v' o s₂ t₂}, Same w a a' → v = u ++ v' → Derives ph u [o] →
      Both w s t d v' s₂ t₂ (x ++ [view a]) (y ++ [view a']) (ts ++ [o]) →
      Meet w s t S Q (f a s₂) (g a' t₂)) :
    Meet w s t S Q ((p >>= f) s₁) ((q >>= g) t₁) := by
  refine ((h b.aligned hk).base b.left.arena b.right.arena).bind' ?_
  rintro a a' s₂ t₂ ⟨haa, u, v', us, hv, hD, hb⟩
  obtain ⟨o, rfl⟩ := List.length_eq_one_iff.1 hb.left.stores.length_eq
  exact next haa hv hD (b.trans hb)

/-- Going on behind a part that becomes a row. -/
theorem Agrees.bindRow [∀ a, Forward (f a)] [∀ a, Forward (g a)] (h : Agrees w k ph view p q)
    (b : Both w s t d v s₁ t₁ x y ts) (hk : v.length < k)
    (next : ∀ {a a' u v' us s₂ t₂}, Same w a a' → v = u ++ v' → Derives ph u us →
      Both w s t d v' s₂ t₂ (x ++ [node .row (view a)]) (y ++ [node .row (view a')])
        (ts ++ [node .row us]) →
      Meet w s t S Q (f a s₂) (g a' t₂)) :
    Meet w s t S Q ((p >>= f) s₁) ((q >>= g) t₁) := by
  refine ((h b.aligned hk).base b.left.arena b.right.arena).bind' ?_
  rintro a a' s₂ t₂ ⟨haa, u, v', us, hv, hD, hb⟩
  exact next haa hv hD (b.trans (hb.wrap .row))

/-- A part that comes last. -/
theorem Agrees.tail {Q : α → α → State → State → Prop} (h : Agrees w k ph view p q)
    (b : Both w s t d v s₁ t₁ x y ts) (hk : v.length < k)
    (done : ∀ {a a' u v' us s₂ t₂}, Same w a a' → v = u ++ v' → Derives ph u us →
      Both w s t d v' s₂ t₂ (x ++ view a) (y ++ view a') (ts ++ us) → Q a a' s₂ t₂) :
    Meet w s t never Q (p s₁) (q t₁) := by
  refine ((h b.aligned hk).base b.left.arena b.right.arena).mono (fun _ h => h) ?_
  rintro a a' s₂ t₂ ⟨haa, u, v', us, hv, hD, hb⟩
  exact done haa hv hD (b.trans hb)

end Sequencing

/-! ## Rows -/

/-- The item of a row: a phrase in both runs, or the end of the row in both, before tokens of which
`E` holds.  `S` says what the left run may be left with at the end of its tokens. -/
def Item (w : Window) (k : Nat) (ph : Phrase) (view : α → Outline Ref) (E : List Token → Prop)
    (S : Option α → Prop) (p q : Parse (Option α)) : Prop :=
  ∀ ⦃d v s t⦄, Aligned w d v s t → v.length < k →
    Meet w s t S
      (fun o o' s' t' =>
        match o, o' with
        | some a, some a' => Found w s t d v ph (one view) a a' s' t'
        | none, none => Both w s t d v s' t' [] [] [] ∧ E v
        | _, _ => False)
      (p s) (q t)

/-- Both runs have read the same row, and stand before tokens of which `E` holds. -/
def FoundRow (w : Window) (s t : State) (d : Nat) (v : List Token) (ph : Phrase)
    (view : α → Outline Ref) (E : List Token → Prop) (as as' : List α) (s' t' : State) : Prop :=
  Same w as as' ∧ ∃ u v' ts, v = u ++ v' ∧ Derives (.star ph) u ts ∧ (ts = [] → u = []) ∧ E v' ∧
    Both w s t d v' s' t' (as.map view) (as'.map view) ts

section Rows

variable {ph : Phrase} {view : α → Outline Ref} {p q : Parse (Option α)} [Forward p] [Forward q]
  {E : List Token → Prop}

/-- A row agrees if its items do.  Where an item stalls the row stalls too, and is not empty. -/
theorem many_meet (stalls : Prop) (hph : ph.isSolid = true)
    (item : Item w k ph view E (fun o => o.isSome = true ∧ stalls) p q)
    (idle : stalls → ∀ s' : State, s'.cursor.isAtEnd = true → Stalled (fun o => o = none) (p s'))
    (al : Aligned w d v s t) (hk : v.length < k) :
    Meet w s t (fun items => items ≠ [] ∧ stalls) (FoundRow w s t d v ph view E) (many p s)
      (many q t) := by
  -- so far the items, last first, are a row in front of the tokens that are left
  let Inv : List α → List α → List Token → State → State → Prop := fun as as' v₁ s₁ t₁ =>
    Same w as as' ∧ ∃ u ts, v = u ++ v₁ ∧ Derives (.star ph) u ts ∧ (ts = [] → u = []) ∧
      Both w s t d v₁ s₁ t₁ (as.reverse.map view) (as'.reverse.map view) ts
  have loop : Meet w s t (fun items => items ≠ [] ∧ stalls)
      (fun as as' s' t' => FoundRow w s t d v ph view E as.reverse as'.reverse s' t')
      (repeating (manyTurn p) [] s) (repeating (manyTurn q) [] t) := by
    refine Meet.repeating (I := Inv)
      (T := fun step => ∃ as, step = .yield as ∧ as ≠ [] ∧ stalls) ?_ ?_ ?_ al
      ⟨fun _ _ => rfl, [], [], rfl, .starNil ph, fun _ => rfl, al.both⟩
    · rintro as as' v₁ s₁ t₁ ⟨has, u, ts, rfl, hD, hnil, b⟩
      rw [List.length_append] at hk
      have := Has.afterItem @Forward as
      have := Has.afterItem @Forward as'
      refine ((item b.aligned (by omega)).base b.left.arena b.right.arena).bind ?_ ?_
      · rintro (_ | a) (_ | a') s₂ t₂ h
        · have hb := b.trans h.1
          rw [List.append_nil, List.append_nil, List.append_nil] at hb
          exact .ok ⟨has.reverse, u, v₁, ts, rfl, hD, hnil, h.2, hb⟩
        · exact h.elim
        · exact h.elim
        · obtain ⟨haa, u', v', us, rfl, hD', hb⟩ := h
          have hne := List.length_pos_iff.2 (hD'.ne_nil hph)
          have hone : us.length = 1 := hb.left.stores.length_eq
          refine .ok ⟨v', by rw [List.length_append]; omega, haa.cons has, u ++ u', ts ++ us,
            by rw [List.append_assoc], .starSnoc hD hD', fun h => ?_, ?_⟩
          · rw [(List.append_eq_nil_iff.1 h).2] at hone
            cases hone
          have hb' := b.trans hb
          simpa only [one, List.reverse_cons, List.map_append, List.map_cons, List.map_nil] using hb'
      · rintro (_ | a) s' ⟨hs, hstalls⟩ hend
        · cases hs
        · exact ⟨hend, _, rfl, List.cons_ne_nil _ _, hstalls⟩
    · rintro as ⟨bs, e, -⟩
      cases e
    · rintro as s' ⟨bs, e, hne, hstalls⟩ hend
      cases e
      have hi := idle hstalls s' hend
      show Stalled _ (EStateM.bind p _ s')
      unfold EStateM.bind
      generalize p s' = r at hi
      cases r with
      | ok o s'' =>
        obtain ⟨hend', rfl⟩ := hi
        exact ⟨hend', as, rfl, hne, hstalls⟩
      | error e s'' => trivial
  refine loop.bind ?_ ?_
  · intro as as' s₁ t₁ h
    exact .ok h
  · rintro as s' ⟨hne, hstalls⟩ hend
    exact ⟨hend, fun h => hne (List.reverse_eq_nil_iff.1 h), hstalls⟩

/-- A row whose items leave nothing at the end. -/
theorem many_row (hph : ph.isSolid = true) (item : Item w k ph view E never p q)
    (al : Aligned w d v s t) (hk : v.length < k) :
    Meet w s t never (FoundRow w s t d v ph view E) (many p s) (many q t) := by
  refine (many_meet False hph ?_ (fun h => h.elim) al hk).mono (fun _ h => h.2) fun _ _ _ _ h => h
  intro d v s t al hk
  exact (item al hk).mono (fun _ h => h.elim) fun _ _ _ _ h => h

theorem many_agrees (hph : ph.isSolid = true) (item : Item w k ph view E never p q) :
    Agrees w k (.star ph) (fun as => as.map view) (many p) (many q) := by
  intro d v s t al hk
  refine (many_row hph item al hk).mono (fun _ h => h) ?_
  rintro as as' s₁ t₁ ⟨has, u, v', ts, hv, hD, -, -, hb⟩
  exact ⟨has, u, v', ts, hv, hD, hb⟩

end Rows

section Options

variable {ph : Phrase} {view : α → Outline Ref} {p q : Parse α}

/-- What a test announces, if anything. -/
theorem optionally_item {P : List Token → Prop} {test : Parse Bool} (ht : Peeks w P test)
    (hp : ∀ {d v s t}, Aligned w d v s t → v.length < k → P v →
      Meet w s t never (Found w s t d v ph (one view)) (p s) (q t)) :
    Item w k ph view (fun _ => True) never (optionally test p) (optionally test q) := by
  intro d v s t al hk
  refine ht.ite al.both ?_ ?_
  · intro s₁ t₁ hv b
    refine ((hp b.aligned hk hv).base b.left.arena b.right.arena).bind' ?_
    rintro a a' s₂ t₂ ⟨haa, u, v', us, hv, hD, hb⟩
    exact .ok ⟨haa, u, v', us, hv, hD, b.trans hb⟩
  · intro s₁ t₁ b
    exact .ok ⟨b, trivial⟩

/-- What comes before a token of a given tag. -/
theorem before_item {stop : Tag} (ht : Tag.isInner stop) (hp : Agrees w k ph (one view) p q) :
    Item w k ph view (fun v => headTag v = stop) never (optionally (isBefore stop) p)
      (optionally (isBefore stop) q) := by
  intro d v s t al hk
  obtain ⟨c, s₁, t₁, hs, ht', ms, mt, hstop⟩ := Peeks.check ht al
  have hbefore : ∀ {s s' : State}, check stop s = .ok c s' → isBefore stop s = .ok (!c) s' := by
    intro s s' h
    rw [isBefore, bind_of_ok h]
    rfl
  have b := al.both.stay ms mt
  show Meet w s t _ _ ((isBefore stop >>= _) s) ((isBefore stop >>= _) t)
  rw [bind_of_ok (hbefore hs), bind_of_ok (hbefore ht')]
  cases c with
  | true => exact .ok ⟨b, hstop rfl⟩
  | false =>
    refine ((hp b.aligned hk).base b.left.arena b.right.arena).bind' ?_
    rintro a a' s₂ t₂ ⟨haa, u, v', us, hv, hD, hb⟩
    exact .ok ⟨haa, u, v', us, hv, hD, b.trans hb⟩

/-- A part that comes after a sign, if anything. -/
theorem accept_item {tag : Tag} {ph' : Phrase} (ht : Tag.isInner tag) (hplain : tag.isPlain = true)
    (hp : Agrees w k ph' (one view) p q)
    (hph : ∀ {tok : Token} {u us}, tok.tag = tag → Derives ph' u us → Derives ph (tok :: u) us) :
    Item w (k + 1) ph view (fun _ => True) never (optionally (accept tag) p)
      (optionally (accept tag) q) := by
  intro d v s t al hk
  refine al.both.accept_ite ht ?_ ?_
  · intro tok u s₁ t₁ hv htag b
    subst hv
    rw [Tag.depthFrom_of_isPlain hplain] at b
    rw [List.length_cons] at hk
    refine ((hp b.aligned (by omega)).base b.left.arena b.right.arena).bind' ?_
    rintro a a' s₂ t₂ ⟨haa, u', v', us, rfl, hD, hb⟩
    exact .ok ⟨haa, tok :: u', v', us, rfl, hph htag hD, b.trans hb⟩
  · intro s₁ t₁ b
    exact .ok ⟨b, trivial⟩

/-- A part that may be missing. -/
theorem Item.opt {E : List Token → Prop} {p q : Parse (Option α)}
    (h : Item w k ph view E never p q) : Agrees w k (.opt ph) (one (partOf view)) p q := by
  intro d v s t al hk
  refine (h al hk).mono (fun _ h => h) ?_
  rintro (_ | a) (_ | a') s₂ t₂ hm
  · exact ⟨fun _ _ => rfl, [], v, _, rfl, .optNone ph, hm.1.wrap .row⟩
  · exact hm.elim
  · exact hm.elim
  · obtain ⟨haa, u, v', us, hv, hD, b⟩ := hm
    exact ⟨haa.some, u, v', _, hv, .optSome hD, b.wrap .row⟩

end Options

end SolSyntax.Grammar
