import SolSyntax.Proofs.Patterns
import SolSyntax.Proofs.Spelling

/-!
# Reading what is written

`Yields p view u r o`: wherever the tokens `u` and behind them `r` come next, the reader `p` succeeds, takes
just `u`, and what it has stored is the tree `o`.  Steps are chained by `Read`, what has been read so
far.

Principal results: `Read.many_bind`, `Read.bracketed_bind` — rows and lists of items;
`patternAt_reads` — paths and patterns.
-/

namespace SolSyntax.Grammar

open Outline (leaf node)
open Parse

/-- The step succeeds, with something true of its outcome. -/
def Succeeds (r : Outcome α) (Q : α → State → Prop) : Prop := ∃ a s, r = .ok a s ∧ Q a s

theorem Succeeds.bind {p : Parse α} {f : α → Parse β} {s : State} {P : α → State → Prop}
    {Q : β → State → Prop} (h : Succeeds (p s) P) (next : ∀ {a s'}, P a s' → Succeeds (f a s') Q) :
    Succeeds ((p >>= f) s) Q := by
  obtain ⟨a, s', hp, ha⟩ := h
  rw [bind_of_ok hp]
  exact next ha

theorem Succeeds.mono {r : Outcome α} {P Q : α → State → Prop} (h : Succeeds r P)
    (hPQ : ∀ {a s}, P a s → Q a s) : Succeeds r Q := by
  obtain ⟨a, s, hr, ha⟩ := h
  exact ⟨a, s, hr, hPQ ha⟩

/-- A question that leaves all as it is has an answer. -/
def Answers (test : Parse Bool) (s : State) (c : Bool) : Prop := ∃ s', test s = .ok c s' ∧ Moved 0 s s'

/-- From `s` to `s'` the tokens `u` were taken, which have `v` behind them, and the views `x` were
stored, whose outlines are `ts`. -/
structure Read (s s' : State) (u v : List Token) (x : List (Outline Ref))
    (ts : List (Outline TokenKind)) : Prop where
  tokens : s'.cursor.tokens = s.cursor.tokens
  position : s'.cursor.position = s.cursor.position + u.length
  split : s.cursor.rest = u ++ v
  grew : Grew s s' x ts

/-- Where tokens come next, a reader takes them and stores a tree. -/
def Yields (p : Parse α) (view : α → Outline Ref) (u r : List Token) (o : Outline TokenKind) : Prop :=
  ∀ s, s.cursor.rest = u ++ r → Succeeds (p s) fun a s' => Read s s' u r [view a] [o]

variable {s s₁ s₂ : State} {u v w : List Token} {x y : List (Outline Ref)}
  {ts us : List (Outline TokenKind)} {Q : β → State → Prop}

namespace Read

theorem start (h : s.cursor.rest = v) : Read s s [] v [] [] := ⟨rfl, rfl, h, .refl s⟩

theorem rest (h : Read s s₁ u v x ts) : s₁.cursor.rest = v := by
  rw [Cursor.rest_of_position h.tokens h.position, h.split, List.drop_left]

theorem trans (h : Read s s₁ u (w ++ v) x ts) (k : Read s₁ s₂ w v y us) :
    Read s s₂ (u ++ w) v (x ++ y) (ts ++ us) := by
  refine ⟨k.tokens.trans h.tokens, ?_, ?_, h.grew.trans k.grew⟩
  · rw [k.position, h.position, List.length_append, Nat.add_assoc]
  · rw [h.split, List.append_assoc]

theorem move (h : Read s s₁ u (w ++ v) x ts) (m : Moved w.length s₁ s₂) : Read s s₂ (u ++ w) v x ts := by
  refine ⟨m.tokens.trans h.tokens, ?_, ?_, h.grew.move m.arena m.names⟩
  · rw [m.position, h.position, List.length_append, Nat.add_assoc]
  · rw [h.split, List.append_assoc]

theorem stay (h : Read s s₁ u v x ts) (m : Moved 0 s₁ s₂) : Read s s₂ u v x ts :=
  ⟨m.tokens.trans h.tokens, m.position.trans h.position, h.split, h.grew.move m.arena m.names⟩

/-- What was read before does not matter. -/
theorem again (h : Read s s₁ u v x ts) : Read s₁ s₁ [] v [] [] := start h.rest

theorem leaf (h : Read s s₁ u v x ts) (k : TokenKind) :
    Read s s₁ u v (x ++ [Outline.leaf (.token k)]) (ts ++ [Outline.leaf k]) :=
  ⟨h.tokens, h.position, h.split, h.grew.token k⟩

theorem wrap (h : Read s s₁ u v x ts) (form : Form) : Read s s₁ u v [node form x] [node form ts] :=
  ⟨h.tokens, h.position, h.split, h.grew.wrap form⟩

/-- There are as many views as outlines. -/
theorem length_eq (h : Read s s₁ u v x ts) : ts.length = x.length := h.grew.stores.length_eq

/-- The span before the cursor is that of the last token that was read. -/
theorem previousSpan (h : Read s s₁ u v x ts) (hu : u ≠ []) :
    s₁.cursor.previousSpan = ((u.getLast?).map Token.span).getD .dummy :=
  Cursor.previousSpan_of_position h.tokens h.position h.split hu

/-! ### Steps -/

theorem advance_bind {t : Token} {f : Token → Parse β} (h : Read s s₁ u (t :: v) x ts) (ht : t.tag ≠ .eof)
    (next : ∀ {s₂}, Read s s₂ (u ++ [t]) v x ts → Succeeds (f t s₂) Q) :
    Succeeds ((advance >>= f) s₁) Q := by
  obtain ⟨s₂, hs, m⟩ := advance_eq h.rest ht
  rw [bind_of_ok hs]
  exact next (h.move (w := [t]) m)

theorem expect_bind {t : Token} {tag : Tag} {f : Token → Parse β} (h : Read s s₁ u (t :: v) x ts)
    (ht : t.tag = tag) (he : tag ≠ .eof)
    (next : ∀ {s₂}, Read s s₂ (u ++ [t]) v x ts → Succeeds (f t s₂) Q) :
    Succeeds ((expect tag >>= f) s₁) Q := by
  obtain ⟨s₂, hs, m⟩ := expect_eq tag h.rest ht he
  rw [bind_of_ok hs]
  exact next (h.move (w := [t]) m)

theorem current_bind {t : Token} {f : Token → Parse β} (h : Read s s₁ u (t :: v) x ts)
    (next : Succeeds (f t s₁) Q) : Succeeds ((current >>= f) s₁) Q := by
  show Succeeds (f s₁.cursor.current s₁) Q
  rw [Cursor.current_eq, h.rest]
  exact next

theorem skip_bind {b : List Token} {f : Unit → Parse β} (h : Read s s₁ u (b ++ v) x ts) (hb : AllBreaks b)
    (hv : headTag v ≠ .newline) (next : ∀ {s₂}, Read s s₂ (u ++ b) v x ts → Succeeds (f () s₂) Q) :
    Succeeds ((skipNewlines >>= f) s₁) Q := by
  obtain ⟨s₂, hs, m⟩ := skipNewlines_eq s₁
  have htake : s₁.cursor.rest.takeWhile (·.tag == .newline) = b := by
    rw [h.rest, List.takeWhile_append_of_pos fun t ht => beq_iff_eq.2 (hb t ht)]
    cases v with
    | nil => exact List.append_nil b
    | cons t v => rw [List.takeWhile_cons_of_neg (by simpa using hv), List.append_nil]
  rw [bind_of_ok hs]
  exact next (h.move (htake ▸ m))

/-! ### Questions -/

theorem check (h : Read s s₁ u v x ts) (tag : Tag) : Answers (check tag) s₁ (headTag v == tag) := by
  obtain ⟨s₂, hs, m⟩ := check_eq tag s₁
  rw [h.rest] at hs
  exact ⟨s₂, hs, m⟩

theorem checkSet (h : Read s s₁ u v x ts) (set : TagSet) :
    Answers (checkSet set) s₁ (set.contains (headTag v)) := by
  obtain ⟨s₂, hs, m⟩ := checkSet_eq set s₁
  rw [h.rest] at hs
  exact ⟨s₂, hs, m⟩

theorem isBefore (h : Read s s₁ u v x ts) (tag : Tag) :
    Answers (isBefore tag) s₁ (headTag v != tag) := by
  obtain ⟨s₂, hs, m⟩ := h.check tag
  refine ⟨s₂, ?_, m⟩
  rw [Grammar.isBefore, bind_of_ok hs]
  rfl

theorem yes {test : Parse Bool} {p q : Parse β} (h : Read s s₁ u v x ts) (ht : Answers test s₁ true)
    (next : ∀ {s₂}, Read s s₂ u v x ts → Succeeds (p s₂) Q) :
    Succeeds ((test >>= fun c => if c = true then p else q) s₁) Q := by
  obtain ⟨s₂, hs, m⟩ := ht
  rw [bind_of_ok hs]
  exact next (h.stay m)

theorem no {test : Parse Bool} {p q : Parse β} (h : Read s s₁ u v x ts) (ht : Answers test s₁ false)
    (next : ∀ {s₂}, Read s s₂ u v x ts → Succeeds (q s₂) Q) :
    Succeeds ((test >>= fun c => if c = true then p else q) s₁) Q := by
  obtain ⟨s₂, hs, m⟩ := ht
  rw [bind_of_ok hs]
  exact next (h.stay m)

theorem accept_yes {t : Token} {tag : Tag} {p q : Parse β} (h : Read s s₁ u (t :: v) x ts)
    (ht : t.tag = tag) (he : tag ≠ .eof)
    (next : ∀ {s₂}, Read s s₂ (u ++ [t]) v x ts → Succeeds (p s₂) Q) :
    Succeeds ((accept tag >>= fun c => if c = true then p else q) s₁) Q := by
  refine Succeeds.bind (P := fun c s₂ => c = true ∧ Read s s₂ (u ++ [t]) v x ts) ?_ ?_
  · refine h.yes ?_ fun h => h.advance_bind (by rwa [ht]) fun h => ⟨true, _, rfl, rfl, h⟩
    have := h.check tag
    rwa [headTag_cons, ht, beq_self_eq_true] at this
  · rintro c s₂ ⟨rfl, h⟩
    exact next h

theorem accept_no {tag : Tag} {p q : Parse β} (h : Read s s₁ u v x ts) (hv : headTag v ≠ tag)
    (next : ∀ {s₂}, Read s s₂ u v x ts → Succeeds (q s₂) Q) :
    Succeeds ((accept tag >>= fun c => if c = true then p else q) s₁) Q := by
  refine Succeeds.bind (P := fun c s₂ => c = false ∧ Read s s₂ u v x ts) ?_ ?_
  · refine h.no ?_ fun h => ⟨false, _, rfl, rfl, h⟩
    have := h.check tag
    rwa [beq_false_of_ne hv] at this
  · rintro c s₂ ⟨rfl, h⟩
    exact next h

theorem closing_bind {c : Token} {close : Tag} {opening : Span} {f : Span → Parse β}
    (h : Read s s₁ u (c :: v) x ts) (hc : c.tag = close) (hclose : close.isClosing = true)
    (next : ∀ {span s₂}, Read s s₂ (u ++ [c]) v x ts → Succeeds (f span s₂) Q) :
    Succeeds ((expectClosing close opening >>= f) s₁) Q := by
  refine Succeeds.bind (P := fun _ s₂ => Read s s₂ (u ++ [c]) v x ts) ?_ next
  refine h.yes ?_ fun h => h.advance_bind (by rw [hc]; exact Tag.ne_eof_of_isClosing hclose) fun h =>
    ⟨_, _, rfl, h⟩
  have := h.check close
  rwa [headTag_cons, hc, beq_self_eq_true] at this

/-! ### Parts and nodes -/

theorem part_bind {p : Parse α} {view : α → Outline Ref} {o : Outline TokenKind} {f : α → Parse β}
    (h : Read s s₁ u (w ++ v) x ts) (hp : Yields p view w v o)
    (next : ∀ {a s₂}, Read s s₂ (u ++ w) v (x ++ [view a]) (ts ++ [o]) → Succeeds (f a s₂) Q) :
    Succeeds ((p >>= f) s₁) Q :=
  Succeeds.bind (hp s₁ h.rest) fun k => next (h.trans k)

theorem part {p : Parse α} {view : α → Outline Ref} {o : Outline TokenKind}
    (h : Read s s₁ u (w ++ v) x ts) (hp : Yields p view w v o) :
    Succeeds (p s₁) fun a s₂ => Read s s₂ (u ++ w) v (x ++ [view a]) (ts ++ [o]) :=
  (hp s₁ h.rest).mono h.trans

theorem newExpr {kind : ExprKind} {o : Outline TokenKind} {span : Span}
    (h : Read s s₁ u v [kind.view] [o]) :
    Succeeds (newExpr kind span s₁) fun id s₂ => Read s s₂ u v [id.view] [o] :=
  ⟨_, _, rfl, h.tokens, h.position, h.split, h.grew.newExpr span⟩

theorem newPattern {kind : PatternKind} {o : Outline TokenKind} {span : Span}
    (h : Read s s₁ u v [kind.view] [o]) :
    Succeeds (newPattern kind span s₁) fun id s₂ => Read s s₂ u v [id.view] [o] :=
  ⟨_, _, rfl, h.tokens, h.position, h.split, h.grew.newPattern span⟩

end Read

theorem exprSpan_bind {id : ExprId} {f : Span → Parse β} (next : ∀ span, Succeeds (f span s) Q) :
    Succeeds ((exprSpan id >>= f) s) Q := next _

theorem spanFrom_bind {start : Span} {f : Span → Parse β} (next : ∀ span, Succeeds (f span s) Q) :
    Succeeds ((spanFrom start >>= f) s) Q := next _

/-! ## Rows -/

theorem length_le_flatMap {xs : List Piece} (hne : ∀ y ∈ xs, y.tokens ≠ []) :
    xs.length ≤ (xs.flatMap Piece.tokens).length := by
  induction xs with
  | nil => exact Nat.le_refl 0
  | cons y ys ih =>
    have := List.length_pos_iff.2 (hne y List.mem_cons_self)
    have := ih fun z hz => hne z (List.mem_cons_of_mem _ hz)
    rw [List.flatMap_cons, List.length_append, List.length_cons]
    omega

/-- There are more turns than tokens. -/
theorem Read.length_lt_bound (h : Read s s₁ u (w ++ v) x ts) : w.length < s₁.bound := by
  have := s₁.cursor.length_rest
  rw [h.rest, List.length_append] at this
  rw [State.bound]
  omega

section Rows

variable {test : Parse Bool} {p : Parse α} {view : α → Outline Ref} {xs : List Piece}

/-- What is needed to read a row of items up to its end: every item is asked for and read, and behind
the last one none is asked for. -/
structure Rowed (test : Parse Bool) (p : Parse α) (view : α → Outline Ref) (s : State) (u : List Token)
    (xs : List Piece) (r : List Token) : Prop where
  yes : ∀ (ys) {z zs}, xs = ys ++ z :: zs → ∀ {s₁ x ts},
    Read s s₁ (u ++ ys.flatMap Piece.tokens) (z.tokens ++ (zs.flatMap Piece.tokens ++ r)) x ts →
    Answers test s₁ true
  reads : ∀ (ys) {z zs}, xs = ys ++ z :: zs →
    Yields p view z.tokens (zs.flatMap Piece.tokens ++ r) z.outline
  no : ∀ {s₁ x ts}, Read s s₁ (u ++ xs.flatMap Piece.tokens) r x ts → Answers test s₁ false

theorem Rowed.tail {z : Piece} {zs : List Piece} {r : List Token}
    (h : Rowed test p view s u (z :: zs) r) : Rowed test p view s (u ++ z.tokens) zs r where
  yes := by
    intro ys z' zs' e s₁ x ts hr
    rw [List.append_assoc, ← List.flatMap_cons] at hr
    exact h.yes (z :: ys) (by rw [e]; rfl) hr
  reads := fun ys _ _ e => h.reads (z :: ys) (by rw [e]; rfl)
  no := by
    intro s₁ x ts hr
    rw [List.append_assoc, ← List.flatMap_cons] at hr
    exact h.no hr

/-- The loop over a row takes up the items one by one. -/
theorem Read.manyTurns {r : List Token} (hrow : Rowed test p view s u xs r)
    (h : Read s s₁ u (xs.flatMap Piece.tokens ++ r) x ts) {n : Nat} (hn : xs.length < n) (acc : List α) :
    Succeeds (turns (manyTurn (optionally test p)) n acc s₁) fun as s₂ =>
      ∃ bs : List α, as = bs.reverse ++ acc ∧ bs.length = xs.length ∧
        Read s s₂ (u ++ xs.flatMap Piece.tokens) r (x ++ bs.map view) (ts ++ xs.map Piece.outline) := by
  obtain ⟨n, rfl⟩ : ∃ m, n = m + 1 := ⟨n - 1, by omega⟩
  induction xs generalizing u x ts s₁ n acc with
  | nil =>
    rw [List.flatMap_nil, List.nil_append] at h
    have hno := hrow.no (by rwa [List.flatMap_nil, List.append_nil])
    refine Succeeds.bind (P := fun c s₂ => c = .done acc ∧ Read s s₂ u r x ts) ?_ ?_
    · refine Succeeds.bind (P := fun a s₂ => a = none ∧ Read s s₂ u r x ts) ?_ ?_
      · exact h.no hno fun h => ⟨none, _, rfl, rfl, h⟩
      · rintro a s₂ ⟨rfl, h⟩
        exact ⟨.done acc, s₂, rfl, rfl, h⟩
    · rintro c s₂ ⟨rfl, h⟩
      refine ⟨acc, s₂, rfl, [], rfl, rfl, ?_⟩
      simpa using h
  | cons z zs ih =>
    rw [List.flatMap_cons, List.append_assoc] at h
    have hyes := hrow.yes [] rfl (by rwa [List.flatMap_nil, List.append_nil])
    have hreads := hrow.reads [] rfl
    refine Succeeds.bind (P := fun c s₂ => ∃ a, c = .yield (a :: acc) ∧ Read s s₂ (u ++ z.tokens)
      (zs.flatMap Piece.tokens ++ r) (x ++ [view a]) (ts ++ [z.outline])) ?_ ?_
    · refine Succeeds.bind (P := fun c s₂ => ∃ a, c = some a ∧ Read s s₂ (u ++ z.tokens)
        (zs.flatMap Piece.tokens ++ r) (x ++ [view a]) (ts ++ [z.outline])) ?_ ?_
      · refine h.yes hyes fun h => h.part_bind hreads fun {a s₂} h => ⟨some a, s₂, rfl, a, rfl, h⟩
      · rintro c s₂ ⟨a, rfl, h⟩
        exact ⟨_, s₂, rfl, a, rfl, h⟩
    · rintro c s₂ ⟨a, rfl, h⟩
      rw [List.length_cons] at hn
      obtain ⟨n, rfl⟩ : ∃ m, n = m + 1 := ⟨n - 1, by omega⟩
      refine (ih hrow.tail h (a :: acc) n (by omega)).mono ?_
      rintro as s₃ ⟨bs, rfl, hlen, hr⟩
      refine ⟨a :: bs, by simp, by simp [hlen], ?_⟩
      simpa using hr

/-- A row of items is read up to its end. -/
theorem Read.many_bind {r : List Token} {f : List α → Parse β} (hrow : Rowed test p view s u xs r)
    (hne : ∀ y ∈ xs, y.tokens ≠ []) (h : Read s s₁ u (xs.flatMap Piece.tokens ++ r) x ts)
    (next : ∀ {as s₂}, as.length = xs.length → Read s s₂ (u ++ xs.flatMap Piece.tokens) r
      (x ++ as.map view) (ts ++ xs.map Piece.outline) → Succeeds (f as s₂) Q) :
    Succeeds ((many (optionally test p) >>= f) s₁) Q := by
  have hbound := Nat.lt_of_le_of_lt (length_le_flatMap hne) h.length_lt_bound
  refine Succeeds.bind (P := fun as s₂ => as.length = xs.length ∧
    Read s s₂ (u ++ xs.flatMap Piece.tokens) r (x ++ as.map view) (ts ++ xs.map Piece.outline)) ?_ ?_
  · refine Succeeds.bind (h.manyTurns hrow hbound []) ?_
    rintro as s₂ ⟨bs, rfl, hlen, h⟩
    refine ⟨_, s₂, rfl, ?_⟩
    simpa using ⟨hlen, h⟩
  · rintro as s₂ ⟨hlen, h⟩
    exact next hlen h

end Rows

/-- What holds of the tag of every item and of what follows holds of the tag with which a row begins. -/
theorem headTag_pieces {P : Tag → Prop} {xs : List Piece} {r : List Token}
    (hxs : ∀ y ∈ xs, y.tokens ≠ [] ∧ P (headTag y.tokens)) (hr : P (headTag r)) :
    P (headTag (xs.flatMap Piece.tokens ++ r)) := by
  cases xs with
  | nil => exact hr
  | cons y ys =>
    obtain ⟨hne, hy⟩ := hxs y List.mem_cons_self
    rwa [List.flatMap_cons, List.append_assoc, headTag_append hne]

/-! ## Lists -/

section Lists

variable {close : Tag} {p : Parse α} {view : α → Outline Ref} {xs : List Piece} {separated : Bool}

theorem not_newline_of_isClosing (hclose : close.isClosing = true) : close ≠ .newline := by
  rintro rfl
  cases hclose

/-- Behind an item there may be another if a comma comes next. -/
theorem Read.comma_bind {b b' : List Token} {f : Bool → Parse β} {sep : Token}
    (h : Read s s₁ u (b ++ sep :: (b' ++ v)) x ts) (hb : AllBreaks b) (hsep : sep.tag = .comma)
    (hb' : AllBreaks b') (hv : headTag v ≠ .newline)
    (next : ∀ {s₂}, Read s s₂ (u ++ b ++ sep :: b') v x ts → Succeeds (f true s₂) Q) :
    Succeeds ((commaSeparator >>= f) s₁) Q := by
  refine Succeeds.bind (P := fun c s₂ => c = true ∧ Read s s₂ (u ++ b ++ sep :: b') v x ts) ?_ ?_
  · refine h.skip_bind hb (by rw [headTag_cons, hsep]; decide) fun h => ?_
    refine h.accept_yes hsep (by decide) fun h => h.skip_bind hb' hv fun h => ⟨true, _, rfl, rfl, ?_⟩
    simpa using h
  · rintro c s₂ ⟨rfl, h⟩
    exact next h

theorem Read.noComma_bind {b : List Token} {f : Bool → Parse β}
    (h : Read s s₁ u (b ++ v) x ts) (hb : AllBreaks b) (hv : headTag v ≠ .newline)
    (hcomma : headTag v ≠ .comma)
    (next : ∀ {s₂}, Read s s₂ (u ++ b) v x ts → Succeeds (f false s₂) Q) :
    Succeeds ((commaSeparator >>= f) s₁) Q := by
  refine Succeeds.bind (P := fun c s₂ => c = false ∧ Read s s₂ (u ++ b) v x ts) ?_ ?_
  · refine h.skip_bind hb hv fun h => h.accept_no hcomma fun h => ⟨false, _, rfl, rfl, h⟩
  · rintro c s₂ ⟨rfl, h⟩
    exact next h

theorem gap_of_append {b r : List Token} (hb : AllBreaks b) (hr : headTag r = .comma ∨ headTag r = close)
    (hclose : close.isClosing = true) : Gap close (b ++ r) := by
  have hskip : skipBreaks (b ++ r) = r := by
    rw [skipBreaks, List.dropWhile_append_of_pos fun t ht => beq_iff_eq.2 (hb t ht)]
    refine skipBreaks_eq_self ?_
    rcases hr with hr | hr <;> rw [hr]
    · decide
    · exact not_newline_of_isClosing hclose
  rwa [Gap, hskip]

/-- What is needed to read a list of items: none begins like what stands around it, and every one is
read if a comma or the closing bracket comes behind it. -/
structure Listable (close : Tag) (p : Parse α) (view : α → Outline Ref) (xs : List Piece) : Prop where
  ne_nil : ∀ {y}, y ∈ xs → y.tokens ≠ []
  ne_newline : ∀ {y}, y ∈ xs → headTag y.tokens ≠ .newline
  ne_close : ∀ {y}, y ∈ xs → headTag y.tokens ≠ close
  reads : ∀ {y}, y ∈ xs → ∀ {r}, Gap close r → Yields p view y.tokens r y.outline

theorem Listable.tail {z : Piece} {zs : List Piece} (h : Listable close p view (z :: zs)) :
    Listable close p view zs :=
  ⟨fun hy => h.ne_nil (List.mem_cons_of_mem _ hy), fun hy => h.ne_newline (List.mem_cons_of_mem _ hy),
    fun hy => h.ne_close (List.mem_cons_of_mem _ hy), fun hy => h.reads (List.mem_cons_of_mem _ hy)⟩

theorem Listable.ne_newline_row {w : List Token} {c : Token} {r : List Token}
    (hlist : Listable close p view xs) (hrow : Row xs w separated) (hclose : close.isClosing = true)
    (hc : c.tag = close) :
    headTag (w ++ c :: r) ≠ .newline := by
  cases xs with
  | nil =>
    cases hrow
    rw [List.nil_append, headTag_cons, hc]
    exact not_newline_of_isClosing hclose
  | cons y ys =>
    rw [hrow.headTag_eq (hlist.ne_nil List.mem_cons_self)]
    exact hlist.ne_newline List.mem_cons_self

theorem Listable.length_le {w : List Token} (hlist : Listable close p view xs) (hrow : Row xs w separated) :
    xs.length ≤ w.length := by
  induction hrow with
  | nil => exact Nat.le_refl 0
  | last =>
    have := List.length_pos_iff.2 (hlist.ne_nil List.mem_cons_self)
    rw [List.length_append, List.length_singleton]
    omega
  | next _ _ _ _ ih =>
    have := ih hlist.tail
    simp only [List.length_append, List.length_cons]
    omega

/-- The loop over a list takes up the items one by one. -/
theorem Read.sequenceTurns {c : Token} {r : List Token} (hrow : Row xs w separated)
    (hlist : Listable close p view xs) (hclose : close.isClosing = true) (hc : c.tag = close)
    (h : Read s s₁ u (w ++ c :: r) x ts) {n : Nat} (hn : xs.length < n) (acc : List α) (flag : Bool) :
    Succeeds (turns (sequenceTurn close p commaSeparator) n (acc, flag) s₁) fun found s₂ =>
      ∃ bs : List α, found = (bs.reverse ++ acc, if xs.isEmpty then flag else separated) ∧
        Read s s₂ (u ++ w) (c :: r) (x ++ bs.map view) (ts ++ xs.map Piece.outline) := by
  obtain ⟨n, rfl⟩ : ∃ m, n = m + 1 := ⟨n - 1, by omega⟩
  induction hrow generalizing u x ts s₁ n acc flag with
  | nil =>
    rw [List.nil_append] at h
    refine Succeeds.bind (P := fun d s₂ => d = .done (acc, flag) ∧ Read s s₂ u (c :: r) x ts) ?_ ?_
    · refine h.yes ?_ fun h => ⟨_, _, rfl, rfl, h⟩
      have := h.check close
      rwa [headTag_cons, hc, beq_self_eq_true] at this
    · rintro d s₂ ⟨rfl, h⟩
      refine ⟨_, s₂, rfl, [], rfl, ?_⟩
      simpa using h
  | @last z b hb =>
    have hz := List.mem_cons_self (a := z) (l := [])
    rw [List.append_assoc] at h
    have hgap : Gap close (b ++ c :: r) := gap_of_append hb (.inr hc) hclose
    refine Succeeds.bind (P := fun d s₂ => ∃ a, d = .done (a :: acc, false) ∧
      Read s s₂ (u ++ z.tokens ++ b) (c :: r) (x ++ [view a]) (ts ++ [z.outline])) ?_ ?_
    · refine h.no ?_ fun h => h.part_bind (hlist.reads hz hgap) fun {a s₂} h => ?_
      · have := h.check close
        rwa [headTag_append (hlist.ne_nil hz), beq_false_of_ne (hlist.ne_close hz)] at this
      · refine h.noComma_bind hb (by rw [headTag_cons, hc]; exact not_newline_of_isClosing hclose) ?_
          fun {s₃} h => ⟨_, s₃, rfl, a, rfl, h⟩
        rw [headTag_cons, hc]
        rintro rfl
        cases hclose
    · rintro d s₂ ⟨a, rfl, h⟩
      refine ⟨_, s₂, rfl, [a], rfl, ?_⟩
      simpa using h
  | @next z zs b sep b' w separated hb hsep hb' hrow ih =>
    have hz := List.mem_cons_self (a := z) (l := zs)
    have hsplit : z.tokens ++ b ++ sep :: (b' ++ w) ++ c :: r =
        z.tokens ++ (b ++ sep :: (b' ++ (w ++ c :: r))) := by simp
    rw [hsplit] at h
    have hgap : Gap close (b ++ sep :: (b' ++ (w ++ c :: r))) := gap_of_append hb (.inl hsep) hclose
    have hfollow := hlist.tail.ne_newline_row hrow hclose hc (r := r)
    refine Succeeds.bind (P := fun d s₂ => ∃ a, d = .yield (a :: acc, true) ∧
      Read s s₂ (u ++ z.tokens ++ b ++ sep :: b') (w ++ c :: r) (x ++ [view a]) (ts ++ [z.outline])) ?_ ?_
    · refine h.no ?_ fun h => h.part_bind (hlist.reads hz hgap) fun {a s₂} h => ?_
      · have := h.check close
        rwa [headTag_append (hlist.ne_nil hz), beq_false_of_ne (hlist.ne_close hz)] at this
      · exact h.comma_bind hb hsep hb' hfollow fun {s₃} h => ⟨_, s₃, rfl, a, rfl, h⟩
    · rintro d s₂ ⟨a, rfl, h⟩
      rw [List.length_cons] at hn
      obtain ⟨n, rfl⟩ : ∃ m, n = m + 1 := ⟨n - 1, by omega⟩
      refine (ih hlist.tail h (a :: acc) true n (by omega)).mono ?_
      rintro found s₃ ⟨bs, rfl, hr⟩
      refine ⟨a :: bs, by cases zs <;> simp, ?_⟩
      simpa using hr

/-- Items in brackets are read up to the closing bracket. -/
theorem Read.bracketed_bind {o c : Token} {b r : List Token} {f : Bracketed α → Parse β}
    (hrow : Row xs w separated) (hlist : Listable close p view xs) (hclose : close.isClosing = true)
    (hc : c.tag = close) (ho : o.tag ≠ .eof) (hb : AllBreaks b)
    (h : Read s s₁ u (o :: (b ++ w ++ [c]) ++ r) x ts)
    (next : ∀ {found s₂}, found.trailingComma = separated → Read s s₂ (u ++ o :: (b ++ w ++ [c])) r
      (x ++ found.items.map view) (ts ++ xs.map Piece.outline) → Succeeds (f found s₂) Q) :
    Succeeds ((bracketed close p >>= f) s₁) Q := by
  have hsplit : o :: (b ++ w ++ [c]) ++ r = o :: (b ++ (w ++ c :: r)) := by simp
  rw [hsplit] at h
  refine Succeeds.bind (P := fun found s₂ => found.trailingComma = separated ∧
    Read s s₂ (u ++ o :: (b ++ w ++ [c])) r (x ++ found.items.map view) (ts ++ xs.map Piece.outline)) ?_ ?_
  · refine h.advance_bind ho fun h => h.skip_bind hb (hlist.ne_newline_row hrow hclose hc) fun {s₂} h => ?_
    have hbound := Nat.lt_of_le_of_lt (hlist.length_le hrow) h.length_lt_bound
    refine Succeeds.bind (P := fun found s₃ => found.2 = separated ∧ Read s s₃ (u ++ [o] ++ b ++ w) (c :: r)
      (x ++ found.1.map view) (ts ++ xs.map Piece.outline)) ?_ ?_
    · refine Succeeds.bind (h.sequenceTurns hrow hlist hclose hc hbound [] false) ?_
      rintro found s₃ ⟨bs, rfl, h⟩
      refine ⟨_, s₃, rfl, ?_, by simpa using h⟩
      cases hrow <;> rfl
    · rintro ⟨as, flag⟩ s₃ ⟨rfl, h⟩
      refine h.closing_bind hc hclose fun {span s₄} h => ⟨_, s₄, rfl, rfl, ?_⟩
      simpa using h
  · rintro found s₂ ⟨hflag, h⟩
    exact next hflag h

end Lists

/-! ## Paths -/

theorem ident_yields {o : Outline TokenKind} (h : Derives .ident u [o]) (r : List Token) :
    Yields expectIdent Ident.view u r o := by
  cases h with
  | @ident t hi =>
    intro s hs
    obtain ⟨i, hik, taken⟩ := expectIdent_eq hi
    obtain ⟨s', hp, m⟩ := taken hs
    refine ⟨i, s', hp, ?_⟩
    show Read s s' [t] r [leaf (.token i.tokenKind)] [leaf t.kind]
    rw [hik]
    exact ((Read.start hs).move (w := [t]) m).leaf t.kind

theorem segment_yields {o : Outline TokenKind} (h : Derives .segment u [o]) (r : List Token) :
    Yields segment Ident.view u r o := by
  cases h with
  | segment hd hi =>
    intro s hs
    refine (Read.start hs).advance_bind (by rw [hd]; decide) fun h => ?_
    exact h.part (ident_yields hi r)

/-- The spans around a point. -/
theorem Read.adjacent {a d b : Token} (h : Read s s₁ u (d :: b :: v) x ts) (ha : u.getLast? = some a) :
    s₁.cursor.previousSpan = a.span ∧ s₁.cursor.current.span = d.span ∧ s₁.cursor.nextSpan = b.span := by
  have hu : u ≠ [] := by
    rintro rfl
    cases ha
  rw [h.previousSpan hu, Cursor.current_eq, Cursor.nextSpan_eq, h.rest, ha]
  exact ⟨rfl, rfl, rfl⟩

theorem Read.isPathDot_of_touching {a d b : Token} (h : Read s s₁ u (d :: b :: v) x ts)
    (ha : u.getLast? = some a) (hd : d.tag = .dot) (hb : TagSet.identStart.contains b.tag = true)
    (hab : Cursor.adjacent a.span d.span = true ∧ Cursor.adjacent d.span b.span = true) :
    isPathDot s₁.cursor = true := by
  obtain ⟨hprev, hcur, hnext⟩ := h.adjacent ha
  rw [isPathDot, Cursor.isAt_eq, Cursor.peekTag_one, hprev, hcur, hnext, h.rest, List.drop_one,
    List.tail_cons, headTag_cons, headTag_cons, hd, hb, hab.1, hab.2]
  rfl

theorem Read.not_isPathDot (h : Read s s₁ u v x ts) (hu : u ≠ []) (hv : EndsPath u v) :
    isPathDot s₁.cursor = false := by
  rw [Bool.eq_false_iff]
  intro hdot
  simp only [isPathDot, Bool.and_eq_true, Cursor.isAt_eq, Cursor.peekTag_one, h.rest, beq_iff_eq] at hdot
  obtain ⟨⟨⟨hd, hb⟩, hprev⟩, hnext⟩ := hdot
  obtain ⟨a, ha⟩ := Option.ne_none_iff_exists'.1 (mt List.getLast?_eq_none_iff.1 hu)
  cases v with
  | nil => cases hd
  | cons d v =>
    cases v with
    | nil => exact absurd (show TagSet.identStart.contains .eof = true from hb) (by decide)
    | cons b v =>
      obtain ⟨hspan, hcur, hspan'⟩ := h.adjacent ha
      rw [hspan, hcur] at hprev
      rw [hspan', hcur] at hnext
      exact hv d (b :: v) rfl hd ⟨a, b, ha, rfl, hprev, hnext⟩

/-- A path is read if its points touch their neighbours and what follows does not go on with it. -/
theorem path_yields {p : Outline TokenKind} {r : List Token} (h : Derives .path u [p]) (hd : DotsTouch u)
    (hr : EndsPath u r) : Yields path Path.view u r p := by
  cases h with
  | @path w v ts us hi hs =>
    obtain ⟨o, rfl⟩ : ∃ o, ts = [o] := by
      cases hi
      exact ⟨_, rfl⟩
    obtain ⟨xs, rfl, rfl, hxs⟩ := exists_pieces exists_segment hs
    have hw : w ≠ [] := hi.ne_nil rfl
    intro s hstart
    rw [List.append_assoc] at hstart
    refine (Read.start hstart).part_bind (ident_yields hi _) fun {i s₁} h => ?_
    have hrow : Rowed (look isPathDot) segment Ident.view s w xs r := by
      refine ⟨?_, ?_, fun {s₁ x ts} h => ⟨s₁, ?_, .refl s₁⟩⟩
      · rintro ys ⟨zt, zo⟩ zs rfl s₁ x ts hread
        refine ⟨s₁, ?_, .refl s₁⟩
        have hseg : Derives .segment zt [zo] := hxs ⟨zt, zo⟩ (by simp)
        obtain ⟨a, ha⟩ := Option.ne_none_iff_exists'.1
          (mt List.getLast?_eq_none_iff.1 (List.append_ne_nil_of_left_ne_nil hw (ys.flatMap Piece.tokens)))
        cases hseg with
        | @segment d _ _ hdot hi =>
          cases hi with
          | @ident b hb =>
            obtain ⟨pre, hpre⟩ := List.getLast?_eq_some_iff.1 ha
            have hinfix : [a, d, b] <:+: w ++ (ys ++ ⟨[d, b], .leaf b.kind⟩ :: zs).flatMap Piece.tokens := by
              refine ⟨pre, zs.flatMap Piece.tokens, ?_⟩
              rw [List.flatMap_append, List.flatMap_cons, ← List.append_assoc w, hpre]
              simp
            have hname : TagSet.identStart.contains b.tag = true :=
              (Derives.path (.ident hb) (.starNil _)).starts_path
            show EStateM.Result.ok (isPathDot s₁.cursor) s₁ = .ok true s₁
            rw [hread.isPathDot_of_touching ha hdot hname (hd a d b hinfix hdot)]
      · rintro ys z zs rfl
        exact segment_yields (hxs z (by simp)) _
      · show EStateM.Result.ok (isPathDot s₁.cursor) s₁ = .ok false s₁
        rw [h.not_isPathDot (List.append_ne_nil_of_left_ne_nil hw _) hr]
    refine h.many_bind hrow (fun y hy => (hxs y hy).ne_nil rfl) fun {is s₂} _ h => ⟨_, s₂, rfl, ?_⟩
    simpa [Path.view, Path.segments_ofIdents] using h.wrap .path

/-! ## Patterns -/

/-- A reader of patterns of at most so many tokens. -/
def ReadsPatterns (n : Nat) (p : Parse PatternId) : Prop :=
  ∀ {u r o}, u.length ≤ n → Derives .pattern u [o] → DotsTouch u → headTag r ≠ .dot →
    TagSet.patternStart.contains (headTag r) = false → Yields p PatternId.view u r o

theorem patternPath_yields {o : Outline TokenKind} {r : List Token} (h : Derives .path u [o])
    (hd : DotsTouch u) (hr : headTag r ≠ .dot) :
    Yields patternPath PatternId.view u r (node .constructorPattern [o, node .row []]) := by
  intro s hs
  refine (Read.start hs).part_bind (path_yields h hd (.of_headTag hr)) fun h => ?_
  refine Read.newPattern ?_
  simpa [PatternKind.view, rowOf] using (h.trans (h.again.wrap .row)).wrap .constructorPattern

theorem patternGroup_yields {p : Parse PatternId} {n : Nat} {o c : Token} {b b' : List Token}
    {i : Outline TokenKind} {r : List Token} (hp : ReadsPatterns n p) (hn : w.length ≤ n)
    (ho : o.tag = .lparen) (hc : c.tag = .rparen) (hb : AllBreaks b) (hb' : AllBreaks b')
    (h : Derives .pattern w [i]) (hd : DotsTouch w) :
    Yields (patternGroup p) PatternId.view (o :: (b ++ w ++ b' ++ [c])) r (node .groupPattern [i]) := by
  intro s hs
  have hall : o :: (b ++ w ++ b' ++ [c]) ++ r = o :: (b ++ (w ++ (b' ++ c :: r))) := by simp
  have hbehind : headTag (b' ++ c :: r) = .newline ∨ headTag (b' ++ c :: r) = .rparen :=
    hc ▸ headTag_allBreaks_append hb'
  have hstart := h.starts_pattern
  rw [hall] at hs
  refine (Read.start hs).advance_bind (by rw [ho]; decide) fun h₁ => h₁.skip_bind hb ?_ fun h₂ => ?_
  · rw [headTag_append (h.ne_nil rfl)]
    intro e
    rw [e] at hstart
    exact absurd hstart (by decide)
  · refine h₂.part_bind (hp hn h hd ?_ ?_) fun h₃ => h₃.skip_bind hb' (by rw [headTag_cons, hc]; decide) fun h₄ => ?_
    · rcases hbehind with e | e <;> rw [e] <;> decide
    · rcases hbehind with e | e <;> rw [e] <;> decide
    · refine h₄.closing_bind hc rfl fun h => Read.newPattern ?_
      simpa [PatternKind.view] using h.wrap .groupPattern

/-- An atom is read by what reads the pattern in its parentheses. -/
theorem atomWith_yields {p : Parse PatternId} {n : Nat} {o : Outline TokenKind} {r : List Token}
    (hp : ReadsPatterns n p) (hn : u.length ≤ n + 1) (h : Derives .atom u [o]) (hd : DotsTouch u)
    (hr : headTag r ≠ .dot) : Yields (atomWith p) PatternId.view u r o := by
  intro s hs
  cases h with
  | @literalPattern t l hl =>
    refine (Read.start hs).current_bind ?_
    rw [atomOf, hl]
    refine (Read.start hs).advance_bind (Tag.ne_eof_of_isPlain (TokenKind.isPlain_of_literal? hl)) fun h => ?_
    refine Read.newPattern ?_
    rw [PatternKind.view, Literal.view, TokenKind.tokenKind_literal? hl]
    exact (h.leaf t.kind).wrap .literalPattern
  | pathPattern hpath =>
    have hname := hpath.isName_path
    obtain ⟨t, v, rfl⟩ := List.exists_cons_of_ne_nil (hpath.ne_nil rfl)
    refine (Read.start hs).current_bind ?_
    have hread := patternPath_yields hpath hd hr s hs
    obtain ⟨n, hk | hk⟩ := TokenKind.exists_name hname <;> rw [atomOf, hk] <;> exact hread
  | @restPattern t ht =>
    refine (Read.start hs).current_bind ?_
    rw [atomOf, TokenKind.eq_of_tag ht rfl]
    refine (Read.start hs).advance_bind (by rw [ht]; decide) fun h => ?_
    exact (h.wrap .restPattern).newPattern
  | @groupPattern o c b w b' ts ho hc hb hb' hpat =>
    obtain ⟨i, rfl⟩ := exists_pattern hpat
    have hlen : w.length ≤ n := by
      simp only [List.length_cons, List.length_append] at hn
      omega
    have hread := patternGroup_yields (r := r) hp hlen ho hc hb hb' hpat
      (hd.mono ⟨o :: b, b' ++ [c], by simp⟩) s hs
    refine (Read.start hs).current_bind ?_
    rw [atomOf, TokenKind.eq_of_tag ho rfl]
    exact hread

theorem patternApplication_yields {p : Parse PatternId} {n : Nat} {o : Outline TokenKind}
    {xs : List Piece} {r : List Token} (hp : ReadsPatterns n p)
    (hn : (u ++ xs.flatMap Piece.tokens).length ≤ n + 1) (h : Derives .path u [o])
    (hxs : ∀ y ∈ xs, Derives .atom y.tokens [y.outline]) (hd : DotsTouch (u ++ xs.flatMap Piece.tokens))
    (hdot : headTag r ≠ .dot) (hr : TagSet.patternStart.contains (headTag r) = false) :
    Yields (patternApplication p) PatternId.view (u ++ xs.flatMap Piece.tokens) r
      (node .constructorPattern [o, node .row (xs.map Piece.outline)]) := by
  have hstarts : ∀ {y}, y ∈ xs → y.tokens ≠ [] ∧ headTag y.tokens ≠ .dot :=
    fun hy => ⟨(hxs _ hy).ne_nil rfl, (hxs _ hy).headTag_atom_ne (by decide)⟩
  intro s hs
  rw [List.append_assoc] at hs
  have hbehind := headTag_pieces (P := (· ≠ .dot)) (fun y => hstarts) hdot
  refine (Read.start hs).part_bind
    (path_yields h (hd.mono ⟨[], _, rfl⟩) (.of_headTag hbehind)) fun {q s₁} h₁ => ?_
  have hrow : Rowed (checkSet .patternStart) (atomWith p) PatternId.view s₁ [] xs r := by
    refine ⟨?_, ?_, fun h => by simpa [hr] using h.checkSet .patternStart⟩
    · rintro ys z zs rfl s₁ x ts hread
      have hz := hxs z (by simp)
      have := hread.checkSet .patternStart
      rwa [headTag_append (hz.ne_nil rfl), hz.starts_atom] at this
    · rintro ys z zs rfl
      have hz := hxs z (by simp)
      have hlen : z.tokens.length ≤ n + 1 := by
        simp only [List.flatMap_append, List.flatMap_cons, List.length_append] at hn
        omega
      refine atomWith_yields hp hlen hz (hd.mono ?_)
        (headTag_pieces (P := (· ≠ .dot)) (fun y hy => hstarts (by simp [hy])) hdot)
      exact ⟨u ++ ys.flatMap Piece.tokens, zs.flatMap Piece.tokens, by simp⟩
  refine h₁.again.many_bind hrow (fun y hy => (hstarts hy).1) fun {as s₂} _ h₂ => ?_
  refine spanFrom_bind fun span => Read.newPattern ?_
  simpa [PatternKind.view, rowOf] using (h₁.trans (h₂.wrap .row)).wrap .constructorPattern

/-- Every pattern is read that has no more tokens than the reader may nest. -/
theorem patternAt_reads (n : Nat) : ReadsPatterns n (patternAt n) := by
  induction n with
  | zero =>
    intro u r o hn h
    exact absurd (List.eq_nil_of_length_eq_zero (Nat.le_zero.1 hn)) (h.ne_nil rfl)
  | succ n ih =>
    intro u r o hn h hd hdot hr s hs
    have hset := (Read.start hs).checkSet .identStart
    have applied : ∀ {v : List Token} (xs : List Piece) {q}, u = v ++ xs.flatMap Piece.tokens → Derives .path v [q] →
        (∀ y ∈ xs, Derives .atom y.tokens [y.outline]) →
        o = node .constructorPattern [q, node .row (xs.map Piece.outline)] →
        Succeeds (patternAt (n + 1) s) fun a s' => Read s s' u r [a.view] [o] := by
      rintro v xs q rfl hq hxs rfl
      rw [List.append_assoc, headTag_append (hq.ne_nil rfl), hq.starts_path] at hset
      exact (Read.start hs).yes hset fun h =>
        h.part (patternApplication_yields ih hn hq hxs hd hdot hr)
    have other : TagSet.identStart.contains (headTag u) = false → Derives .atom u [o] →
        Succeeds (patternAt (n + 1) s) fun a s' => Read s s' u r [a.view] [o] := by
      intro hu ha
      rw [headTag_append (ha.ne_nil rfl), hu] at hset
      exact (Read.start hs).no hset fun h => h.part (atomWith_yields ih hn ha hd hdot)
    cases h with
    | atomPattern ha =>
      have self := ha
      cases ha with
      | pathPattern hq => exact applied [] (by simp) hq (fun _ hy => by cases hy) rfl
      | literalPattern hl =>
        refine other ?_ self
        have := TokenKind.starts_of_literal? hl
        rw [headTag_cons]
        generalize Token.tag _ = tag at this ⊢
        cases tag <;> first | rfl | exact absurd this (by decide)
      | restPattern ht => exact other (by rw [headTag_cons, ht]; decide) self
      | groupPattern ho => exact other (by rw [headTag_cons, ho]; decide) self
    | appliedPattern hq has =>
      obtain ⟨xs, rfl, rfl, hxs⟩ := exists_pieces exists_atom has
      exact applied xs rfl hq hxs rfl

theorem pattern_yields {o : Outline TokenKind} {r : List Token} (h : Derives .pattern u [o])
    (hd : DotsTouch u) (hdot : headTag r ≠ .dot) (hr : TagSet.patternStart.contains (headTag r) = false) :
    Yields pattern PatternId.view u r o := fun s hs =>
  patternAt_reads s.bound (Nat.le_of_lt (Read.start hs).length_lt_bound) h hd hdot hr s hs

theorem atom_yields {o : Outline TokenKind} {r : List Token} (h : Derives .atom u [o])
    (hd : DotsTouch u) (hdot : headTag r ≠ .dot) : Yields atom PatternId.view u r o := fun s hs =>
  atomWith_yields (patternAt_reads s.bound) (Nat.le_succ_of_le (Nat.le_of_lt (Read.start hs).length_lt_bound))
    h hd hdot s hs

end SolSyntax.Grammar
