import SolSyntax.Proofs.Lockstep

/-!
# Elementary steps side by side

What asking, taking and skipping tokens and making nodes do to two runs that stand before the same
tokens.  A question about the next tokens has the same answer in both (`Peeks`); taking a token moves
both behind it; line breaks may lead out of the common tokens.

Principal results: `Both.skip_bind`, `Both.expect_bind`, `Both.accept_ite`, `Peeks.ite` — how a
production goes on after such a step; `Dead` — steps that fail at the end of the tokens.
-/

namespace SolSyntax.Grammar

open Outline (leaf node)
open Parse

/-! ## One run -/

/-- How a step goes on after it has succeeded. -/
theorem bind_of_ok {p : Parse α} {f : α → Parse β} {s s' : State} {a : α} (h : p s = .ok a s') :
    (p >>= f) s = f a s' := by
  show EStateM.bind p f s = f a s'
  unfold EStateM.bind
  rw [h]

/-- How a step goes on after it has failed. -/
theorem bind_of_error {p : Parse α} {f : α → Parse β} {s s' : State} {e : Failure}
    (h : p s = .error e s') : (p >>= f) s = .error e s' := by
  show EStateM.bind p f s = .error e s'
  unfold EStateM.bind
  rw [h]

/-- How a production that succeeds began and went on. -/
theorem exists_of_bind_ok {p : Parse α} {f : α → Parse β} {s s' : State} {b : β}
    (h : (p >>= f) s = .ok b s') : ∃ a s₁, p s = .ok a s₁ ∧ f a s₁ = .ok b s' := by
  cases hp : p s with
  | ok a s₁ =>
    rw [bind_of_ok hp] at h
    exact ⟨a, s₁, rfl, h⟩
  | error e s₁ =>
    rw [bind_of_error hp] at h
    cases h

theorem check_eq (tag : Tag) (s : State) :
    ∃ s', check tag s = .ok (headTag s.cursor.rest == tag) s' ∧ Moved 0 s s' := by
  have h := s.cursor.isAt_eq tag
  by_cases hc : s.cursor.isAt tag = true
  · refine ⟨s, ?_, .refl s⟩
    rw [← h, hc]
    simp only [check, step, Cursor.check, if_pos hc]
  · refine ⟨{ s with cursor := s.cursor.note (.single tag) }, ?_, rfl, rfl, rfl, rfl⟩
    rw [← h, Bool.eq_false_iff.2 hc]
    simp only [check, step, Cursor.check, if_neg hc]

theorem checkSet_eq (set : TagSet) (s : State) :
    ∃ s', checkSet set s = .ok (set.contains (headTag s.cursor.rest)) s' ∧ Moved 0 s s' := by
  rw [← Cursor.currentTag_eq]
  by_cases hc : set.contains s.cursor.currentTag = true
  · refine ⟨s, ?_, .refl s⟩
    rw [hc]
    simp only [checkSet, step, Cursor.checkSet, if_pos hc]
  · refine ⟨{ s with cursor := s.cursor.note set }, ?_, rfl, rfl, rfl, rfl⟩
    rw [Bool.eq_false_iff.2 hc]
    simp only [checkSet, step, Cursor.checkSet, if_neg hc]

theorem isAtEnd_eq (s : State) : s.cursor.isAtEnd = (headTag s.cursor.rest == .eof) :=
  Cursor.isAt_eq _ _

theorem advance_eq {s : State} {tok : Token} {r : List Token} (h : s.cursor.rest = tok :: r)
    (he : tok.tag ≠ .eof) : ∃ s', advance s = .ok tok s' ∧ Moved 1 s s' := by
  have hend : s.cursor.isAtEnd = false := by
    rw [isAtEnd_eq, h, headTag_cons]
    simpa using he
  have hcur : s.cursor.current = tok := by rw [Cursor.current_eq, h]; rfl
  unfold advance step Cursor.advance
  rw [hend, hcur]
  exact ⟨_, rfl, rfl, rfl, rfl, rfl⟩

/-- At the end there is nothing to take. -/
theorem advance_end {s : State} (h : s.cursor.isAtEnd = true) :
    ∃ tok, advance s = .ok tok s := by
  unfold advance step Cursor.advance
  rw [h]
  exact ⟨_, rfl⟩

theorem skipNewlines_eq (s : State) :
    ∃ s', skipNewlines s = .ok () s' ∧
      Moved (s.cursor.rest.takeWhile (·.tag == .newline)).length s s' :=
  ⟨_, rfl, rfl, Cursor.skipFrom_eq _ _ _, rfl, rfl⟩

theorem eatSeparators_eq (s : State) {u : List Token}
    (hu : s.cursor.rest.takeWhile (fun t => t.tag == .comma || t.tag == .newline) = u) :
    ∃ s', eatSeparators s = .ok (!u.isEmpty) s' ∧ Moved u.length s s' := by
  have hskip := Cursor.skipFrom_eq s.cursor.tokens (fun t => t == .comma || t == .newline)
    s.cursor.position
  rw [show s.cursor.tokens.toList.drop s.cursor.position = s.cursor.rest from rfl, hu] at hskip
  simp only [eatSeparators, step, Cursor.eatSeparators, hskip]
  cases u with
  | nil =>
    rw [if_pos (by simp)]
    exact ⟨_, rfl, rfl, rfl, rfl, rfl⟩
  | cons tok u =>
    rw [if_neg (by simp)]
    exact ⟨_, rfl, rfl, rfl, rfl, rfl⟩

/-! ## Asking -/

/-- A question whose answer is the same for two runs that stand before the same tokens, and which
tells `P` of these if it is yes. -/
def Peeks (w : Window) (P : List Token → Prop) (test : Parse Bool) : Prop :=
  ∀ ⦃d v s t⦄, Aligned w d v s t → ∃ c s' t', test s = .ok c s' ∧ test t = .ok c t' ∧
    Moved 0 s s' ∧ Moved 0 t t' ∧ (c = true → P v)

/-- A tag that neither ends a line nor the tokens. -/
def Tag.isInner (t : Tag) : Prop := t ≠ .newline ∧ t ≠ .eof

instance (t : Tag) : Decidable (Tag.isInner t) := inferInstanceAs (Decidable (_ ∧ _))

theorem headTag_append_beq {tag : Tag} (ht : Tag.isInner tag) {u r : List Token}
    (hr : headTag r = .newline ∨ headTag r = .eof) :
    (headTag (u ++ r) == tag) = (headTag u == tag) := by
  cases u with
  | cons tok u => rfl
  | nil =>
    show (headTag r == tag) = (Tag.eof == tag)
    rw [beq_false_of_ne ht.2.symm]
    rcases hr with hr | hr <;> rw [hr]
    · exact beq_false_of_ne ht.1.symm
    · exact beq_false_of_ne ht.2.symm

variable {w : Window} {s t s₁ t₁ : State} {d : Nat} {v : List Token} {x y : List (Outline Ref)}
  {ts : List (Outline TokenKind)} {S : β → Prop} {Q : β → β → State → State → Prop}

/-- Behind the common tokens both runs see a line break or the end. -/
theorem headTag_tail (w : Window) :
    (headTag w.left = .newline ∨ headTag w.left = .eof) ∧
      (headTag w.right = .newline ∨ headTag w.right = .eof) := ⟨w.left_tag, w.right_tag⟩

theorem Aligned.headTag_eq (h : Aligned w d v s t) :
    (∃ tok u, v = tok :: u ∧ headTag s.cursor.rest = tok.tag ∧ headTag t.cursor.rest = tok.tag) ∨
      v = [] ∧ headTag s.cursor.rest = headTag w.left ∧ headTag t.cursor.rest = headTag w.right := by
  cases v with
  | nil => exact .inr ⟨rfl, by rw [h.left]; rfl, by rw [h.right]; rfl⟩
  | cons tok u => exact .inl ⟨tok, u, rfl, by rw [h.left]; rfl, by rw [h.right]; rfl⟩

theorem Aligned.headTag_beq (h : Aligned w d v s t) {tag : Tag} (ht : Tag.isInner tag) :
    (headTag s.cursor.rest == tag) = (headTag v == tag) ∧
      (headTag t.cursor.rest == tag) = (headTag v == tag) := by
  rw [h.left, h.right]
  exact ⟨headTag_append_beq ht w.left_tag, headTag_append_beq ht w.right_tag⟩

theorem Peeks.check {tag : Tag} (ht : Tag.isInner tag) :
    Peeks w (fun v => headTag v = tag) (check tag) := by
  intro d v s t h
  obtain ⟨s', hs, ms⟩ := check_eq tag s
  obtain ⟨t', ht', mt⟩ := check_eq tag t
  rw [(h.headTag_beq ht).1] at hs
  rw [(h.headTag_beq ht).2] at ht'
  exact ⟨_, s', t', hs, ht', ms, mt, by simp⟩

theorem Peeks.isAt {tag : Tag} (ht : Tag.isInner tag) :
    Peeks w (fun v => headTag v = tag) (isAt tag) := by
  intro d v s t h
  refine ⟨_, s, t, rfl, ?_, .refl s, .refl t, ?_⟩
  · show EStateM.Result.ok (t.cursor.isAt tag) t = .ok (s.cursor.isAt tag) t
    rw [Cursor.isAt_eq, Cursor.isAt_eq, (h.headTag_beq ht).1, (h.headTag_beq ht).2]
  · intro hc
    simpa [Cursor.isAt_eq, (h.headTag_beq ht).1] using hc

theorem Peeks.checkSet {set : TagSet} (hn : set.contains .newline = false)
    (he : set.contains .eof = false) :
    Peeks w (fun v => set.contains (headTag v) = true) (checkSet set) := by
  intro d v s t h
  obtain ⟨s', hs, ms⟩ := checkSet_eq set s
  obtain ⟨t', ht, mt⟩ := checkSet_eq set t
  have heq : set.contains (headTag s.cursor.rest) = set.contains (headTag v) ∧
      set.contains (headTag t.cursor.rest) = set.contains (headTag v) := by
    obtain ⟨tok, u, rfl, hs, ht⟩ | ⟨rfl, hs, ht⟩ := h.headTag_eq
    · rw [hs, ht]
      exact ⟨rfl, rfl⟩
    · rw [hs, ht, headTag_nil, he]
      obtain ⟨hl | hl, hr | hr⟩ := headTag_tail w <;> simp [hl, hr, hn, he]
  rw [heq.1] at hs
  rw [heq.2] at ht
  exact ⟨_, s', t', hs, ht, ms, mt, fun h => h⟩

/-- A question that does not remember what it asked for. -/
theorem Peeks.look {P : List Token → Prop} {q : Cursor → Bool}
    (h : ∀ {d v s t}, Aligned w d v s t →
      q s.cursor = q t.cursor ∧ (q s.cursor = true → P v)) : Peeks w P (look q) := by
  intro d v s t al
  obtain ⟨heq, hp⟩ := h al
  refine ⟨_, s, t, rfl, ?_, .refl s, .refl t, hp⟩
  show EStateM.Result.ok (q t.cursor) t = .ok (q s.cursor) t
  rw [heq]

/-- After a question both runs go the same way. -/
theorem Peeks.ite {P : List Token → Prop} {test : Parse Bool} (h : Peeks w P test)
    (b : Both w s t d v s₁ t₁ x y ts) {p p' q q' : Parse β}
    (yes : ∀ {s₂ t₂}, P v → Both w s t d v s₂ t₂ x y ts → Meet w s t S Q (p s₂) (p' t₂))
    (no : ∀ {s₂ t₂}, Both w s t d v s₂ t₂ x y ts → Meet w s t S Q (q s₂) (q' t₂)) :
    Meet w s t S Q ((test >>= fun c => if c = true then p else q) s₁)
      ((test >>= fun c => if c = true then p' else q') t₁) := by
  obtain ⟨c, s₂, t₂, hs, ht, ms, mt, hp⟩ := h b.aligned
  rw [bind_of_ok hs, bind_of_ok ht]
  cases c with
  | true => exact yes (hp rfl) (b.stay ms mt)
  | false => exact no (b.stay ms mt)

/-! ## Failing -/

/-- Runs that stand side by side fail at the same place. -/
theorem Both.error {e e' : SyntaxError} {s₂ t₂ : State} (b : Both w s t d v s₁ t₁ x y ts)
    (hs : Moved 0 s₁ s₂) (ht : Moved 0 t₁ t₂) :
    Meet w s t S Q (.error (.error e) s₂) (.error (.error e') t₂) := by
  have b' := b.stay hs ht
  exact .error v b'.left.arena b'.right.arena b'.aligned.left b'.aligned.right b'.aligned.twins

theorem Both.fail {c c' : Complaint} (b : Both w s t d v s₁ t₁ x y ts) :
    Meet w s t S Q (Parse.fail c s₁) (Parse.fail c' t₁) := b.error (.refl _) (.refl _)

theorem Both.failWanting {set set' : TagSet} {c c' : Complaint} (b : Both w s t d v s₁ t₁ x y ts) :
    Meet w s t S Q (failWanting set c s₁) (failWanting set' c' t₁) :=
  b.error ⟨rfl, rfl, rfl, rfl⟩ ⟨rfl, rfl, rfl, rfl⟩

/-! ## Taking tokens -/

variable {f g : α → Parse β}

theorem Both.current_bind {f g : Token → Parse β} (b : Both w s t d v s₁ t₁ x y ts)
    (here : ∀ tok u, v = tok :: u → Meet w s t S Q (f tok s₁) (g tok t₁))
    (edge : v = [] → ∀ a a' : Token, a.tag = headTag w.left → a'.tag = headTag w.right →
      Meet w s t S Q (f a s₁) (g a' t₁)) :
    Meet w s t S Q ((current >>= f) s₁) ((current >>= g) t₁) := by
  show Meet w s t S Q (f s₁.cursor.current s₁) (g t₁.cursor.current t₁)
  rw [Cursor.current_eq, Cursor.current_eq, b.aligned.left, b.aligned.right]
  cases v with
  | nil =>
    refine edge rfl _ _ ?_ ?_
    · cases w.left <;> rfl
    · cases w.right <;> rfl
  | cons tok u => exact here tok u rfl

theorem Both.advance_bind {tag : Tag} {tok : Token} {f g : Token → Parse β}
    (b : Both w s t d (tok :: v) s₁ t₁ x y ts) (htag : tok.tag = tag) (he : tag ≠ .eof)
    (next : ∀ {s₂ t₂}, Both w s t (tag.depthFrom d) v s₂ t₂ x y ts →
      Meet w s t S Q (f tok s₂) (g tok t₂)) :
    Meet w s t S Q ((advance >>= f) s₁) ((advance >>= g) t₁) := by
  obtain ⟨s₂, hs, ms⟩ := advance_eq b.aligned.left (by rwa [htag])
  obtain ⟨t₂, ht, mt⟩ := advance_eq b.aligned.right (by rwa [htag])
  rw [bind_of_ok hs, bind_of_ok ht]
  exact next (b.step (u := [tok]) ms mt fun h => htag ▸ h.2.2)

/-- What a run that takes a token of a given tag does: it takes it, or stays. -/
theorem Both.cases_check {tag : Tag} (b : Both w s t d v s₁ t₁ x y ts) (ht : Tag.isInner tag) :
    ∃ s₂ t₂, Both w s t d v s₂ t₂ x y ts ∧ Moved 0 s₁ s₂ ∧ Moved 0 t₁ t₂ ∧
      ((∃ tok u, v = tok :: u ∧ tok.tag = tag ∧ check tag s₁ = .ok true s₂ ∧
          check tag t₁ = .ok true t₂) ∨
        check tag s₁ = .ok false s₂ ∧ check tag t₁ = .ok false t₂) := by
  obtain ⟨c, s₂, t₂, hs, ht', ms, mt, hp⟩ := Peeks.check ht b.aligned
  refine ⟨s₂, t₂, b.stay ms mt, ms, mt, ?_⟩
  cases c with
  | false => exact .inr ⟨hs, ht'⟩
  | true =>
    refine .inl ?_
    cases v with
    | nil => exact absurd (hp rfl).symm ht.2
    | cons tok u => exact ⟨tok, u, rfl, hp rfl, hs, ht'⟩

theorem Both.accept_ite {tag : Tag} (b : Both w s t d v s₁ t₁ x y ts) (ht : Tag.isInner tag)
    {p p' q q' : Parse β}
    (yes : ∀ {tok u s₂ t₂}, v = tok :: u → tok.tag = tag →
      Both w s t (tag.depthFrom d) u s₂ t₂ x y ts → Meet w s t S Q (p s₂) (p' t₂))
    (no : ∀ {s₂ t₂}, Both w s t d v s₂ t₂ x y ts → Meet w s t S Q (q s₂) (q' t₂)) :
    Meet w s t S Q ((accept tag >>= fun c => if c = true then p else q) s₁)
      ((accept tag >>= fun c => if c = true then p' else q') t₁) := by
  obtain ⟨s₂, t₂, b₂, -, -, ⟨tok, u, rfl, htag, hs, ht'⟩ | ⟨hs, ht'⟩⟩ := b.cases_check ht
  · obtain ⟨s₃, hs₃, ms⟩ := advance_eq b₂.aligned.left (htag ▸ ht.2)
    obtain ⟨t₃, ht₃, mt⟩ := advance_eq b₂.aligned.right (htag ▸ ht.2)
    have hacc : accept tag s₁ = .ok true s₃ ∧ accept tag t₁ = .ok true t₃ := by
      constructor
      · rw [accept, bind_of_ok hs]
        exact bind_of_ok hs₃
      · rw [accept, bind_of_ok ht']
        exact bind_of_ok ht₃
    rw [bind_of_ok hacc.1, bind_of_ok hacc.2]
    exact yes rfl htag (b₂.step (u := [tok]) ms mt fun h => htag ▸ h.2.2)
  · have hacc : accept tag s₁ = .ok false s₂ ∧ accept tag t₁ = .ok false t₂ := by
      constructor
      · rw [accept, bind_of_ok hs]
        rfl
      · rw [accept, bind_of_ok ht']
        rfl
    rw [bind_of_ok hacc.1, bind_of_ok hacc.2]
    exact no b₂

theorem expect_eq (tag : Tag) {s : State} {tok : Token} {r : List Token}
    (h : s.cursor.rest = tok :: r) (htag : tok.tag = tag) (he : tag ≠ .eof) :
    ∃ s', expect tag s = .ok tok s' ∧ Moved 1 s s' := by
  obtain ⟨s', hs, ms⟩ := advance_eq h (by rwa [htag])
  refine ⟨s', ?_, ms⟩
  have hat : s.cursor.isAt tag = true := by rw [Cursor.isAt_eq, h, headTag_cons, htag]; simp
  simp only [advance, step] at hs
  simp only [expect, tryStep, Cursor.expect, Cursor.check, if_pos hat]
  cases hs
  rfl

theorem expect_miss (tag : Tag) {s : State} (h : (headTag s.cursor.rest == tag) = false) :
    ∃ e s', expect tag s = .error (.error e) s' ∧ Moved 0 s s' := by
  have hat : s.cursor.isAt tag = false := by rw [Cursor.isAt_eq, h]
  refine ⟨(s.cursor.note (.single tag)).complain (.expectedToken tag),
    { s with cursor := s.cursor.note (.single tag) }, ?_, rfl, rfl, rfl, rfl⟩
  simp only [expect, tryStep, Cursor.expect, Cursor.check, hat]
  rfl

/-- Both runs take a token of a given tag, or fail. -/
theorem Both.expect_bind {tag : Tag} {f g : Token → Parse β} (b : Both w s t d v s₁ t₁ x y ts)
    (ht : Tag.isInner tag)
    (next : ∀ {tok u s₂ t₂}, v = tok :: u → tok.tag = tag →
      Both w s t (tag.depthFrom d) u s₂ t₂ x y ts → Meet w s t S Q (f tok s₂) (g tok t₂)) :
    Meet w s t S Q ((expect tag >>= f) s₁) ((expect tag >>= g) t₁) := by
  by_cases hv : headTag v = tag
  · cases v with
    | nil => exact absurd hv.symm ht.2
    | cons tok u =>
      obtain ⟨s₂, hs, ms⟩ := expect_eq tag b.aligned.left hv ht.2
      obtain ⟨t₂, ht', mt⟩ := expect_eq tag b.aligned.right hv ht.2
      rw [bind_of_ok hs, bind_of_ok ht']
      exact next rfl hv (b.step (u := [tok]) ms mt fun h => hv ▸ h.2.2)
  · have hb := b.aligned.headTag_beq ht
    obtain ⟨e, s₂, hs, ms⟩ := expect_miss tag (hb.1.trans (beq_false_of_ne hv))
    obtain ⟨e', t₂, ht', mt⟩ := expect_miss tag (hb.2.trans (beq_false_of_ne hv))
    rw [bind_of_error hs, bind_of_error ht']
    exact b.error ms mt

/-- Both runs take the bracket that closes a group, or fail. -/
theorem Both.expectClosing_bind {close : Tag} {o o' : Span} {f g : Span → Parse β}
    (b : Both w s t d v s₁ t₁ x y ts) (ht : Tag.isInner close)
    (next : ∀ {tok u s₂ t₂}, v = tok :: u → tok.tag = close →
      Both w s t (close.depthFrom d) u s₂ t₂ x y ts →
      Meet w s t S Q (f tok.span s₂) (g tok.span t₂)) :
    Meet w s t S Q ((expectClosing close o >>= f) s₁) ((expectClosing close o' >>= g) t₁) := by
  obtain ⟨s₂, t₂, b₂, ms, mt, ⟨tok, u, rfl, htag, hs, ht'⟩ | ⟨hs, ht'⟩⟩ := b.cases_check ht
  · obtain ⟨s₃, hs₃, ms₃⟩ := advance_eq b₂.aligned.left (htag ▸ ht.2)
    obtain ⟨t₃, ht₃, mt₃⟩ := advance_eq b₂.aligned.right (htag ▸ ht.2)
    have hleft : expectClosing close o s₁ = .ok tok.span s₃ := by
      rw [expectClosing, bind_of_ok hs]
      exact bind_of_ok hs₃
    have hright : expectClosing close o' t₁ = .ok tok.span t₃ := by
      rw [expectClosing, bind_of_ok ht']
      exact bind_of_ok ht₃
    rw [bind_of_ok hleft, bind_of_ok hright]
    exact next rfl htag (b₂.step (u := [tok]) ms₃ mt₃ fun h => htag ▸ h.2.2)
  · have hleft : ∃ e, expectClosing close o s₁ = .error (.error e) s₂ :=
      ⟨_, by rw [expectClosing, bind_of_ok hs]; rfl⟩
    have hright : ∃ e, expectClosing close o' t₁ = .error (.error e) t₂ :=
      ⟨_, by rw [expectClosing, bind_of_ok ht']; rfl⟩
    obtain ⟨e, hleft⟩ := hleft
    obtain ⟨e', hright⟩ := hright
    rw [bind_of_error hleft, bind_of_error hright]
    exact b.error ms mt

/-! ## Skipping line breaks -/

theorem dropWhile_append_of_eq_nil {p : Token → Bool} {v r : List Token} (h : v.dropWhile p = []) :
    (v ++ r).dropWhile p = r.dropWhile p := by
  rw [List.dropWhile_append, h]
  rfl

theorem takeWhile_append_of_ne {p : Token → Bool} {v r : List Token}
    (h : v.dropWhile p ≠ [] ∨ r = []) : (v ++ r).takeWhile p = v.takeWhile p := by
  obtain h | rfl := h
  · induction v with
    | nil => exact absurd rfl h
    | cons t v ih =>
      rw [List.cons_append, List.takeWhile_cons, List.takeWhile_cons]
      split
      · rename_i hp
        rw [ih]
        rwa [List.dropWhile_cons, if_pos hp] at h
      · rfl
  · rw [List.append_nil]

theorem all_takeWhile {p : Token → Bool} {v : List Token} : ∀ t ∈ v.takeWhile p, p t = true :=
  fun t ht => List.all_eq_true.1 List.all_takeWhile t ht

theorem allBreaks_takeWhile (v : List Token) : AllBreaks (v.takeWhile (·.tag == .newline)) :=
  fun t ht => eq_of_beq (all_takeWhile (p := (·.tag == Tag.newline)) t ht)

theorem headTag_skipBreaks (r : List Token) : headTag (skipBreaks r) ≠ .newline := by
  cases h : skipBreaks r with
  | nil => exact fun e => by cases e
  | cons t u =>
    have := List.head?_dropWhile_not (fun t : Token => t.tag == .newline) r
    rw [skipBreaks] at h
    rw [h] at this
    simpa using this

theorem dropWhile_length_lt {p : Token → Bool} (hp : ∀ t : Token, t.tag = .newline → p t = true)
    {r : List Token} (h : headTag r = .newline) : (r.dropWhile p).length < r.length := by
  cases r with
  | nil => cases h
  | cons t r =>
    rw [List.dropWhile_cons, if_pos (hp t h), List.length_cons]
    exact Nat.lt_succ_of_le (List.dropWhile_suffix _).length_le

/-- Where skipping leads that does not stop at line breaks: it ends within the common tokens, or passes
the line break behind them, or comes to the end of the left list. -/
theorem Window.cases_skip (w : Window) (v : List Token) {p : Token → Bool}
    (hp : ∀ t : Token, t.tag = .newline → p t = true) (he : ∀ t : Token, t.tag = .eof → p t = false) :
    ((w.Differs → v.dropWhile p ≠ []) ∧ (v ++ w.left).takeWhile p = v.takeWhile p ∧
        (v ++ w.right).takeWhile p = v.takeWhile p) ∨
      (w.IsLine ∧ w.Differs ∧ ((v ++ w.left).dropWhile p).length < w.left.length ∧
        ((v ++ w.right).dropWhile p).length < w.right.length) ∨
      w.IsEnded ∧ headTag ((v ++ w.left).dropWhile p) = .eof ∧
        ((v ++ w.left).dropWhile p).length ≤ w.left.length ∧
        ((v ++ w.right).dropWhile p).length < w.right.length := by
  obtain ⟨hl, hr⟩ | h := w.cases_tails
  · refine .inl ⟨fun h => ?_, takeWhile_append_of_ne (.inr hl), takeWhile_append_of_ne (.inr hr)⟩
    rw [Window.Differs, hr] at h
    cases h
  · by_cases hv : v.dropWhile p = []
    · refine .inr ?_
      rw [dropWhile_append_of_eq_nil hv, dropWhile_append_of_eq_nil hv]
      obtain ⟨hl, hr⟩ | hw := h
      · exact .inl ⟨hl, hr, dropWhile_length_lt hp hl, dropWhile_length_lt hp hr⟩
      · refine .inr ⟨hw, ?_, (List.dropWhile_suffix _).length_le, dropWhile_length_lt hp hw.2⟩
        have hl := hw.1
        cases hleft : w.left with
        | nil => rfl
        | cons t r =>
          rw [hleft, headTag_cons] at hl
          rw [List.dropWhile_cons, he t hl]
          exact hl
    · exact .inl ⟨fun _ => hv, takeWhile_append_of_ne (.inl hv), takeWhile_append_of_ne (.inl hv)⟩

theorem rest_of_moved_takeWhile {s s' : State} {p : Token → Bool} {r : List Token}
    (h : s.cursor.rest = r) (m : Moved (r.takeWhile p).length s s') :
    s'.cursor.rest = r.dropWhile p := by
  rw [m.rest, h, Cursor.drop_length_takeWhile]

/-- Both runs skip line breaks.  If these lead out of the common tokens, the runs have passed a line
break, or the left one has come to its end. -/
theorem Both.skip_bind {f g : Unit → Parse β} [Forward (f ())] [Forward (g ())]
    (b : Both w s t d v s₁ t₁ x y ts)
    (next : ∀ {u v' s₂ t₂}, v = u ++ v' → AllBreaks u → headTag v' ≠ .newline →
      (w.Differs → v' ≠ []) → Both w s t d v' s₂ t₂ x y ts → Meet w s t S Q (f () s₂) (g () t₂))
    (stall : ∀ s', s'.cursor.isAtEnd = true → Stalled S (f () s')) :
    Meet w s t S Q ((skipNewlines >>= f) s₁) ((skipNewlines >>= g) t₁) := by
  obtain ⟨s₂, hs, ms⟩ := skipNewlines_eq s₁
  obtain ⟨t₂, ht, mt⟩ := skipNewlines_eq t₁
  rw [b.aligned.left] at ms
  rw [b.aligned.right] at mt
  rw [bind_of_ok hs, bind_of_ok ht]
  obtain ⟨hne, hl, hr⟩ | ⟨hl, hr, hleft, hright⟩ | ⟨hw, hend, hleft, hright⟩ :=
    w.cases_skip v (p := (·.tag == .newline)) (fun t ht => by simp [ht]) (fun t ht => by simp [ht])
  · have hsplit := (List.takeWhile_append_dropWhile (p := (·.tag == .newline)) (l := v)).symm
    have b' := b
    rw [hsplit] at b'
    exact next hsplit (allBreaks_takeWhile v) (headTag_skipBreaks v) hne
      (b'.step (hl ▸ ms) (hr ▸ mt) (allBreaks_takeWhile v).nested.closes.1)
  · refine .line hl hr (Nat.lt_of_le_of_lt (Forward.onward (p := f ()) s₂).length_le ?_)
      (Nat.lt_of_le_of_lt (Forward.onward (p := g ()) t₂).length_le ?_)
    · rwa [rest_of_moved_takeWhile b.aligned.left ms]
    · rwa [rest_of_moved_takeWhile b.aligned.right mt]
  · refine .ended hw (Nat.le_trans (Forward.onward (p := f ()) s₂).length_le ?_)
      (Nat.lt_of_le_of_lt (Forward.onward (p := g ()) t₂).length_le ?_) (stall s₂ ?_)
    · rwa [rest_of_moved_takeWhile b.aligned.left ms]
    · rwa [rest_of_moved_takeWhile b.aligned.right mt]
    · rw [isAtEnd_eq, rest_of_moved_takeWhile b.aligned.left ms, hend]
      rfl

/-! ## Spans -/

/-- Both runs remember the token at which they stand. -/
theorem Both.start_bind {f g : Token → Parse β} (b : Both w s t d v s₁ t₁ x y ts)
    (next : ∀ tok tok', (v ≠ [] → tok' = tok) → Meet w s t S Q (f tok s₁) (g tok' t₁)) :
    Meet w s t S Q ((current >>= f) s₁) ((current >>= g) t₁) := by
  show Meet w s t S Q (f s₁.cursor.current s₁) (g t₁.cursor.current t₁)
  refine next _ _ fun hv => ?_
  rw [Cursor.current_eq, Cursor.current_eq, b.aligned.left, b.aligned.right]
  cases v with
  | nil => exact absurd rfl hv
  | cons tok u => rfl

theorem Both.exprSpan_bind {id id' : ExprId} {f g : Span → Parse β}
    (b : Both w s t d v s₁ t₁ x y ts) (hid : Same w id id')
    (next : ∀ sp sp', Same w sp sp' → Meet w s t S Q (f sp s₁) (g sp' t₁)) :
    Meet w s t S Q ((exprSpan id >>= f) s₁) ((exprSpan id' >>= g) t₁) := by
  refine next _ _ fun base hb => ?_
  rw [hid base hb, (b.aligned.twins base hb).arena, Arena.exprSpan_behind]
  rfl

theorem Both.patternSpan_bind {id id' : PatternId} {f g : Span → Parse β}
    (b : Both w s t d v s₁ t₁ x y ts) (hid : Same w id id')
    (next : ∀ sp sp', Same w sp sp' → Meet w s t S Q (f sp s₁) (g sp' t₁)) :
    Meet w s t S Q ((patternSpan id >>= f) s₁) ((patternSpan id' >>= g) t₁) := by
  refine next _ _ fun base hb => ?_
  rw [hid base hb, (b.aligned.twins base hb).arena, Arena.patternSpan_behind]
  rfl

theorem Same.merge {a a' c c' : Span} (ha : Same w a a') (hc : Same w c c') :
    Same w (a.merge c) (a'.merge c') := ha.map₂ hc Span.merge fun _ _ _ => rfl

/-- Both runs ask for the span up to the last token taken, after they have taken one. -/
theorem Both.spanFrom_bind {start start' : Span} {f g : Span → Parse β} {u v₀ : List Token}
    {d₀ : Nat} {s₀ t₀ : State} (b : Both w s t d v s₁ t₁ x y ts) (al : Aligned w d₀ v₀ s₀ t₀)
    (hv : v₀ = u ++ v) (hu : u ≠ []) (hstart : Same w start start')
    (next : ∀ sp sp', Same w sp sp' → Meet w s t S Q (f sp s₁) (g sp' t₁)) :
    Meet w s t S Q ((spanFrom start >>= f) s₁) ((spanFrom start' >>= g) t₁) := by
  refine next _ _ (hstart.merge fun base hb => ?_)
  have hlen := (al.twins base hb).extent
  rw [hv, List.length_append] at hlen
  have := List.length_pos_iff.2 hu
  exact (b.aligned.twins base hb).previous (by omega)

/-! ## Nodes and names -/

theorem Both.wrap (b : Both w s t d v s₁ t₁ x y ts) (form : Form) :
    Both w s t d v s₁ t₁ [node form x] [node form y] [node form ts] :=
  ⟨b.aligned, b.left.wrap form, b.right.wrap form⟩

theorem Both.token (b : Both w s t d v s₁ t₁ x y ts) (k : TokenKind) :
    Both w s t d v s₁ t₁ (x ++ [leaf (.token k)]) (y ++ [leaf (.token k)]) (ts ++ [leaf k]) :=
  ⟨b.aligned, b.left.token k, b.right.token k⟩

theorem Both.trans {s₂ t₂ : State} {d' : Nat} {v' : List Token} {x' y' : List (Outline Ref)}
    {us : List (Outline TokenKind)} (b : Both w s t d v s₁ t₁ x y ts)
    (c : Both w s₁ t₁ d' v' s₂ t₂ x' y' us) :
    Both w s t d' v' s₂ t₂ (x ++ x') (y ++ y') (ts ++ us) :=
  ⟨c.aligned, b.left.trans c.left, b.right.trans c.right⟩

/-- Both runs make a node of what they have stored. -/
theorem Both.newExpr {kind kind' : ExprKind} {o : Outline TokenKind} {sp sp' : Span}
    {Q : ExprId → ExprId → State → State → Prop} {S : ExprId → Prop}
    (b : Both w s t d v s₁ t₁ [kind.view] [kind'.view] [o]) (hkind : Same w kind kind')
    (hsp : Same w sp sp')
    (done : ∀ {id id' s₂ t₂}, Same w id id' → Both w s t d v s₂ t₂ [id.view] [id'.view] [o] →
      Q id id' s₂ t₂) :
    Meet w s t S Q (newExpr kind sp s₁) (newExpr kind' sp' t₁) := by
  have heq : ∀ base, w.base = some base → t₁.arena = s₁.arena.behind base →
      t₁.arena.newExpr ⟨kind', sp'⟩ =
        (relocate base.mark (s₁.arena.newExpr ⟨kind, sp⟩).1,
          (s₁.arena.newExpr ⟨kind, sp⟩).2.behind base) := by
    intro base hb ha
    rw [ha, hkind base hb, hsp base hb]
    exact s₁.arena.newExpr_behind base ⟨kind, sp⟩
  refine .ok (done (fun base hb => ?_) ⟨?_, b.left.newExpr sp, b.right.newExpr sp'⟩)
  · exact congrArg Prod.fst (heq base hb (b.aligned.twins base hb).arena)
  · exact b.aligned.of_cursor rfl rfl id fun base hb _ ha => congrArg Prod.snd (heq base hb ha)

/-- Both runs make a pattern of what they have stored. -/
theorem Both.newPattern {kind kind' : PatternKind} {o : Outline TokenKind} {sp sp' : Span}
    {Q : PatternId → PatternId → State → State → Prop} {S : PatternId → Prop}
    (b : Both w s t d v s₁ t₁ [kind.view] [kind'.view] [o]) (hkind : Same w kind kind')
    (hsp : Same w sp sp')
    (done : ∀ {id id' s₂ t₂}, Same w id id' → Both w s t d v s₂ t₂ [id.view] [id'.view] [o] →
      Q id id' s₂ t₂) :
    Meet w s t S Q (newPattern kind sp s₁) (newPattern kind' sp' t₁) := by
  have heq : ∀ base, w.base = some base → t₁.arena = s₁.arena.behind base →
      t₁.arena.newPattern ⟨kind', sp'⟩ =
        (relocate base.mark (s₁.arena.newPattern ⟨kind, sp⟩).1,
          (s₁.arena.newPattern ⟨kind, sp⟩).2.behind base) := by
    intro base hb ha
    rw [ha, hkind base hb, hsp base hb]
    exact s₁.arena.newPattern_behind base ⟨kind, sp⟩
  refine .ok (done (fun base hb => ?_) ⟨?_, b.left.newPattern sp, b.right.newPattern sp'⟩)
  · exact congrArg Prod.fst (heq base hb (b.aligned.twins base hb).arena)
  · exact b.aligned.of_cursor rfl rfl id fun base hb _ ha => congrArg Prod.snd (heq base hb ha)

end SolSyntax.Grammar
